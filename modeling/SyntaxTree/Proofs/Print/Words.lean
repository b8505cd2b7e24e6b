import SyntaxTree.Print.Text
import SyntaxTree.Proofs.Print.SExpr

/-! # Words of the canonical text

The bare words of a text are names, numbers and operator symbols. No word is of two of these
sorts, apart from the names of the float literals that are not finite. -/

namespace SyntaxTree

namespace Print

open SExpr (isSolid)

/-! ## Sorts of words -/

/-- The characters that a name may begin with. -/
def isNameStart (c : Char) : Bool := c.isAlpha || c == '_'

/-- The characters that a name may go on with. -/
def isNamePart (c : Char) : Bool := c.isAlphanum || c == '_'

/-- A letter or underscore, and then letters, digits and underscores. -/
def isIdentifier (name : String) : Bool :=
  match name.toList with
  | [] => false
  | c :: rest => isNameStart c && rest.all isNamePart

/-- A word that begins as a name does. -/
def Named (word : List Char) : Prop := ∃ c ∈ word.head?, isNameStart c = true

/-- A word that begins with a minus sign or a digit and is no sign alone. -/
def Numeric (word : List Char) : Prop :=
  (∃ c ∈ word.head?, c = '-' ∨ c.isDigit = true) ∧ ∃ c ∈ word, isNamePart c = true

/-- A word of signs. -/
def Symbolic (word : List Char) : Prop := ∀ c ∈ word, isNamePart c = false

theorem symbolic_of_all {word : List Char} (h : word.all (!isNamePart ·) = true) :
    Symbolic word := by
  simpa [Symbolic] using h

theorem isNamePart_of_start {c : Char} (h : isNameStart c = true) : isNamePart c = true := by
  simp only [isNameStart, isNamePart, Char.isAlphanum, Bool.or_eq_true] at h ⊢
  tauto

/-- A name does not begin with a digit, which sets it apart from a number. -/
theorem isNameStart_digit {c : Char} (h : c.isDigit = true) : isNameStart c = false := by
  cases hs : isNameStart c with
  | false => rfl
  | true =>
      have hletters : isNameStart c = (decide (c.val ≥ 'A'.val ∧ c.val ≤ 'Z'.val) ||
          (c.val ≥ 'a'.val && c.val ≤ 'z'.val) || c == '_') := rfl
      simp only [hletters, Char.isDigit, Bool.or_eq_true, Bool.and_eq_true, decide_eq_true_eq,
        beq_iff_eq] at h hs
      rcases hs with (hs | hs) | rfl
      · exact absurd (UInt32.le_trans hs.1 h.2) (by decide)
      · exact absurd (UInt32.le_trans hs.1 h.2) (by decide)
      · exact absurd h.2 (by decide)

/-- No word is a name and a number: the first character decides. -/
theorem Named.not_numeric {word : List Char} (h : Named word) : ¬ Numeric word := by
  rintro ⟨⟨c, hc, hnumeric⟩, -⟩
  obtain ⟨d, hd, hstart⟩ := h
  obtain rfl := Option.mem_unique hc hd
  rcases hnumeric with rfl | hdigit
  · exact absurd hstart (by decide)
  · exact absurd hstart (by simp [isNameStart_digit hdigit])

theorem Named.not_symbolic {word : List Char} (h : Named word) : ¬ Symbolic word := by
  intro hs
  obtain ⟨c, hc, hstart⟩ := h
  have := hs c (List.mem_of_mem_head? hc)
  rw [isNamePart_of_start hstart] at this
  exact absurd this (by simp)

/-- No word is a number and an operator, though both may begin with a minus sign. -/
theorem Numeric.not_symbolic {word : List Char} (h : Numeric word) : ¬ Symbolic word := by
  intro hs
  obtain ⟨-, c, hc, hpart⟩ := h
  exact absurd (hs c hc) (by simp [hpart])

/-! ## Names -/

/-- A name is taken apart into its first character and the others. -/
theorem isIdentifier_iff {name : String} :
    isIdentifier name = true ↔
      ∃ c rest, name.toList = c :: rest ∧ isNameStart c = true ∧ ∀ d ∈ rest, isNamePart d = true := by
  unfold isIdentifier
  split
  · rename_i h
    simp [h]
  · rename_i c rest h
    simp [h]

theorem named_of_isIdentifier {name : String} (h : isIdentifier name = true) :
    Named name.toList := by
  obtain ⟨c, rest, hname, hc, -⟩ := isIdentifier_iff.1 h
  exact ⟨c, by simp [hname], hc⟩

theorem isSolid_of_isNamePart {c : Char} (h : isNamePart c = true) : isSolid c = true := by
  simp only [isSolid, Bool.and_eq_true, bne_iff_ne]
  refine ⟨⟨⟨?_, ?_⟩, ?_⟩, ?_⟩ <;>
    · rintro rfl
      exact absurd h (by decide)

/-- A name can stand as a word: it holds nothing that would end one. -/
theorem solid_of_isIdentifier {name : String} (h : isIdentifier name = true) :
    (SExpr.atom name.toList).Solid := by
  obtain ⟨c, rest, hname, hc, hrest⟩ := isIdentifier_iff.1 h
  rw [hname]
  refine .atom (by simp) (List.forall_mem_cons.2 ⟨?_, fun d hd => ?_⟩)
  · exact isSolid_of_isNamePart (isNamePart_of_start hc)
  · exact isSolid_of_isNamePart (hrest d hd)

/-! ## Symbols -/

theorem unarySymbol_symbolic (op : UnaryOp) : Symbolic op.symbol.toList := by
  refine symbolic_of_all ?_
  cases op <;> decide

theorem binarySymbol_symbolic (op : BinaryOp) : Symbolic op.symbol.toList := by
  refine symbolic_of_all ?_
  cases op <;> decide

theorem unarySymbol_solid (op : UnaryOp) : (SExpr.atom op.symbol.toList).Solid := by
  refine .atom_of_all ?_ ?_ <;> cases op <;> decide

theorem binarySymbol_solid (op : BinaryOp) : (SExpr.atom op.symbol.toList).Solid := by
  refine .atom_of_all ?_ ?_ <;> cases op <;> decide

/-! ## Numbers -/

theorem isNamePart_digit {c : Char} (h : c.isDigit = true) : isNamePart c = true := by
  simp [isNamePart, Char.isAlphanum, h]

theorem isDigit_of_mem_repr {n : Nat} {c : Char} (h : c ∈ n.repr.toList) : c.isDigit = true := by
  rw [Nat.toList_repr] at h
  exact Nat.isDigit_of_mem_toDigits (by decide) (by decide) h

/-- The decimal form of a number is not empty and begins with a digit. -/
theorem repr_cons (n : Nat) : ∃ c rest, n.repr.toList = c :: rest ∧ c.isDigit = true := by
  have hne : n.repr.toList ≠ [] := by simp
  obtain ⟨c, rest, h⟩ := List.exists_cons_of_ne_nil hne
  exact ⟨c, rest, h, isDigit_of_mem_repr (h ▸ List.mem_cons_self)⟩

/-- Different numbers have different decimal forms. -/
theorem repr_injective {m n : Nat} (h : m.repr = n.repr) : m = n := by
  have hdigits := congrArg (fun text => Nat.ofDigitChars 10 text.toList 0) h
  simpa only [Nat.toList_repr, Nat.ofDigitChars_ten_toDigits] using hdigits

theorem repr_numeric (n : Nat) : Numeric n.repr.toList := by
  obtain ⟨c, rest, h, hc⟩ := repr_cons n
  rw [h]
  exact ⟨⟨c, rfl, .inr hc⟩, c, List.mem_cons_self, isNamePart_digit hc⟩

theorem repr_solid (n : Nat) : (SExpr.atom n.repr.toList).Solid :=
  .atom (by simp) fun _ hc => isSolid_of_isNamePart (isNamePart_digit (isDigit_of_mem_repr hc))

theorem isDigit_of_mem_paddedDigits {width n : Nat} {c : Char}
    (h : c ∈ Decimal.paddedDigits width n) : c.isDigit = true := by
  rcases List.mem_append.1 h with h | h
  · rw [List.eq_of_mem_replicate h]
    decide
  · exact Nat.isDigit_of_mem_toDigits (by decide) (by decide) h

/-- The whole part, and behind a point as many digits as there are places. -/
theorem toList_fixedPoint (places n : Nat) :
    (Decimal.fixedPoint places n).toList =
      if places = 0 then n.repr.toList
      else (n / Nat.pow 10 places).repr.toList ++
        '.' :: Decimal.paddedDigits places (n % Nat.pow 10 places) := by
  unfold Decimal.fixedPoint
  split
  · rfl
  · simp only [String.toList_append, String.toList_ofList, List.append_assoc]
    rfl

/-- The text of a finite number: a sign, digits, and more characters of numbers. -/
theorem toFixed_form (places : Nat) (x : Binary64) :
    ∃ sign digits rest, (x.toFixed places).toList = sign ++ (digits ++ rest) ∧
      (sign = [] ∨ sign = ['-']) ∧ digits ≠ [] ∧ (∀ c ∈ digits, c.isDigit = true) ∧
      (∀ c ∈ rest, c = '.' ∨ c.isDigit = true) ∧ (1 ≤ places → '.' ∈ rest) := by
  have hsign : (if x.isNegative then "-" else "").toList = [] ∨
      (if x.isNegative then "-" else "").toList = ['-'] := by
    cases x.isNegative
    · exact .inl (by decide)
    · exact .inr (by decide)
  rw [Binary64.toFixed, String.toList_append, toList_fixedPoint]
  by_cases hplaces : places = 0
  · rw [if_pos hplaces]
    refine ⟨_, _, [], by rw [List.append_nil], hsign, by simp, fun c => isDigit_of_mem_repr, ?_, ?_⟩
    · simp
    · omega
  · rw [if_neg hplaces]
    refine ⟨_, _, _, rfl, hsign, by simp, fun c => isDigit_of_mem_repr, fun c hc => ?_,
      fun _ => List.mem_cons_self⟩
    rcases List.mem_cons.1 hc with hc | hc
    · exact .inl hc
    · exact .inr (isDigit_of_mem_paddedDigits hc)

/-- A text in fixed notation is a number, with or without a sign in front. -/
theorem toFixed_numeric (places : Nat) (x : Binary64) : Numeric (x.toFixed places).toList := by
  obtain ⟨sign, digits, rest, h, hsign, hne, hdigits, -, -⟩ := toFixed_form places x
  obtain ⟨c, digits, rfl⟩ := List.exists_cons_of_ne_nil hne
  have hc := hdigits c List.mem_cons_self
  rw [h]
  refine ⟨?_, c, by simp, isNamePart_digit hc⟩
  rcases hsign with rfl | rfl
  · exact ⟨c, rfl, .inr hc⟩
  · exact ⟨'-', rfl, .inl rfl⟩

/-- A float literal has the name of a number that is not finite or a numeric text. -/
theorem floatText_sorts (config : PrintConfig) (x : Binary64) :
    config.floatText x = "nan" ∨ config.floatText x = "inf" ∨
      Numeric (config.floatText x).toList := by
  unfold PrintConfig.floatText
  split
  · exact .inl rfl
  · split
    · split
      · refine .inr (.inr ⟨⟨'-', by decide, .inl rfl⟩, 'i', by decide, by decide⟩)
      · exact .inr (.inl rfl)
    · exact .inr (.inr (toFixed_numeric _ x))

/-- With a digit after the point no float literal is written as an integer is. -/
theorem floatText_not_digits {config : PrintConfig} (hp : 1 ≤ config.floatPrecision)
    (x : Binary64) : ∃ c ∈ (config.floatText x).toList, c.isDigit = false := by
  unfold PrintConfig.floatText
  split
  · exact ⟨'n', by decide, by decide⟩
  · split
    · split
      · exact ⟨'i', by decide, by decide⟩
      · exact ⟨'i', by decide, by decide⟩
    · obtain ⟨sign, digits, rest, h, -, -, -, -, hpoint⟩ :=
        toFixed_form config.floatPrecision x
      refine ⟨'.', ?_, by decide⟩
      rw [h]
      exact List.mem_append_right _ (List.mem_append_right _ (hpoint hp))

/-- The text of a float can stand as a word, whatever the float. -/
theorem floatText_solid (config : PrintConfig) (x : Binary64) :
    (SExpr.atom (config.floatText x).toList).Solid := by
  unfold PrintConfig.floatText
  split
  · exact .atom_of_all (by decide) (by decide)
  · split
    · split
      · exact .atom_of_all (by decide) (by decide)
      · exact .atom_of_all (by decide) (by decide)
    · obtain ⟨sign, digits, rest, h, hsign, hne, hdigits, hrest, -⟩ :=
        toFixed_form config.floatPrecision x
      rw [h]
      have hdigit {c : Char} (hc : c.isDigit = true) : isSolid c = true :=
        isSolid_of_isNamePart (isNamePart_digit hc)
      refine .atom (by simp [hne]) fun c hc => ?_
      rcases List.mem_append.1 hc with hc | hc
      · rcases hsign with rfl | rfl
        · exact absurd hc List.not_mem_nil
        · rw [List.mem_singleton.1 hc]
          decide
      · rcases List.mem_append.1 hc with hc | hc
        · exact hdigit (hdigits c hc)
        · rcases hrest c hc with rfl | hc
          · decide
          · exact hdigit hc

end Print

end SyntaxTree
