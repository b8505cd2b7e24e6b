import SyntaxTree.Proofs.Json.Token

/-! # Reading numbers

The reader of a literal takes the longest literal of the grammar, which in a document is always
followed by a blank, a comma, a closing bracket or the end. A literal below `2 ^ 64` that is bare
digits keeps its value as a natural number. -/

namespace SyntaxTree

namespace Json

open Text (Cursor)
open Reader Grammar

/-- What may follow a value in a document. -/
def Delimited (c : Cursor) : Prop :=
  ∀ x ∈ c.rest.head?, isBlank x = true ∨ x = ',' ∨ x = ']' ∨ x = '\x7d'

/-- A test that fails on blanks and on the signs between values ends where a value does. -/
theorem Delimited.stops {c : Cursor} {test : Char → Bool} (h : Delimited c)
    (htest : ∀ x, isBlank x = true ∨ x = ',' ∨ x = ']' ∨ x = '\x7d' → test x = false) :
    Stops test c := fun x hx => htest x (h x hx)

/-- No digit follows a value. -/
theorem Delimited.stops_isDigit {c : Cursor} (h : Delimited c) : Stops isDigit c := by
  refine h.stops fun x hx => ?_
  rw [isBlank_iff] at hx
  rcases hx with (rfl | rfl | rfl | rfl) | rfl | rfl | rfl <;> decide

theorem Delimited.head_ne {c : Cursor} (h : Delimited c) {x : Char}
    (hx : (isBlank x || x == ',' || x == ']' || x == '\x7d') = false) :
    c.rest.head? ≠ some x := by
  intro hc
  have := h x hc
  simp_all

/-- What follows a spaced text's value piece, when another piece that delimits comes next. -/
theorem delimited_of_crosses {c d : Cursor} {x : Char} {piece : List Char}
    {pieces : List (List Char)} (hx : x = ',' ∨ x = ']' ∨ x = '\x7d')
    (h : Crosses c ((x :: piece) :: pieces) d) : Delimited c := by
  obtain ⟨blanks, m, e, hb, hbm, hm, -⟩ := crosses_cons.1 h
  intro y hy
  rw [hbm.rest_eq, hm.rest_eq] at hy
  cases blanks with
  | nil =>
      simp only [List.nil_append, List.cons_append, List.head?_cons, Option.mem_def,
        Option.some.injEq] at hy
      exact .inr (hy ▸ hx)
  | cons b blanks =>
      simp only [List.cons_append, List.head?_cons, Option.mem_def, Option.some.injEq] at hy
      exact .inl (hy ▸ blank_iff.1 hb b List.mem_cons_self)

/-! ## The parts of a literal -/

theorem digits_singleton {c : Char} (h : isDigit c = true) : Digits [c] :=
  digits_iff.2 ⟨List.cons_ne_nil c [], List.forall_mem_singleton.2 h⟩

/-- The digits before the point are taken to the last, and a zero in front has to stand alone. -/
theorem reads_wholeDigits {missing : Cause} {digits : List Char} {c d : Cursor} :
    (wholeDigits missing).Reads c digits d ↔
      WholeText digits ∧ c.Passes digits d ∧ Stops isDigit d := by
  rw [wholeDigits, reads_peek_bind]
  constructor
  · intro h
    split at h
    · simp at h
    · rename_i hc
      rw [reads_advance_bind, reads_peek_bind] at h
      have hp : digits = ['0'] ∧ d = c.next ∧ Stops isDigit d := by
        split at h
        · rename_i y hy
          split at h
          · simp at h
          · rename_i hd
            obtain ⟨hdigits, rfl⟩ := reads_pure.1 h
            refine ⟨hdigits, rfl, fun z hz => ?_⟩
            rw [hy, Option.mem_some_iff] at hz
            simpa [hz] using hd
        · rename_i hy
          obtain ⟨hdigits, rfl⟩ := reads_pure.1 h
          refine ⟨hdigits, rfl, fun z hz => ?_⟩
          simp [hy] at hz
      obtain ⟨rfl, rfl, hs⟩ := hp
      exact ⟨⟨digits_singleton rfl, fun _ => rfl⟩, Cursor.passes_singleton.2 ⟨hc, rfl⟩, hs⟩
    · rename_i y hne hy
      split at h
      · rename_i hd
        obtain ⟨hp, hall, hs⟩ := reads_takeWhile.1 h
        have hhead : digits.head? = some y := by
          cases digits with
          | nil =>
              obtain rfl := Cursor.passes_nil.1 hp
              exact absurd (hs y hy) (by simp [hd])
          | cons z digits =>
              rw [hp.rest_eq] at hy
              exact hy
        refine ⟨⟨digits_iff.2 ⟨?_, hall⟩, fun h0 => ?_⟩, hp, hs⟩
        · rintro rfl
          simp at hhead
        · rw [hhead] at h0
          exact absurd (Option.some.inj h0) (by simpa using hne)
      · simp at h
  · rintro ⟨⟨hdigits, hzero⟩, hp, hs⟩
    obtain ⟨hne, hall⟩ := digits_iff.1 hdigits
    obtain ⟨y, rest, rfl⟩ := List.exists_cons_of_ne_nil hne
    have hy : c.rest.head? = some y := by
      rw [hp.rest_eq]
      rfl
    rw [hy]
    by_cases h0 : y = '0'
    · subst h0
      simp only [List.head?_cons, forall_const, List.cons.injEq, true_and] at hzero
      subst hzero
      obtain ⟨-, rfl⟩ := Cursor.passes_singleton.1 hp
      simp only [reads_advance_bind, reads_peek_bind]
      split
      · rename_i z hz
        simp [hs z hz]
      · simp
    · have hd := hall y List.mem_cons_self
      simpa [h0, hd] using reads_takeWhile.2 ⟨hp, hall, hs⟩

/-- What is read as a fraction is a point with digits, or nothing. -/
theorem fractionDigits_sound {missing : Cause} {digits : List Char} {c d : Cursor}
    (h : (fractionDigits missing).Reads c digits d) :
    ∃ text, FractionText text digits ∧ c.Passes text d := by
  rw [fractionDigits, reads_peek_bind] at h
  split at h
  · rename_i hc
    rw [reads_advance_bind, reads_bind] at h
    obtain ⟨digits', m, htake, h⟩ := h
    obtain ⟨hp, hall, hs⟩ := reads_takeWhile.1 htake
    split at h
    · rw [reads_peek_bind] at h
      split at h <;> simp at h
    · rename_i hne
      obtain ⟨rfl, rfl⟩ := reads_pure.1 h
      refine ⟨'.' :: digits, .present (digits_iff.2 ⟨by simpa using hne, hall⟩), ?_⟩
      exact Cursor.passes_cons.2 ⟨_, Cursor.passes_singleton.2 ⟨hc, rfl⟩, hp⟩
  · obtain ⟨rfl, rfl⟩ := reads_pure.1 h
    exact ⟨[], .absent, Cursor.passes_nil.2 rfl⟩

/-- A fraction is read whole. That no point follows is needed for the absent one. -/
theorem fractionDigits_complete {missing : Cause} {text digits : List Char} {c d : Cursor}
    (h : FractionText text digits) (hp : c.Passes text d) (hs : Stops isDigit d)
    (hpoint : d.rest.head? ≠ some '.') : (fractionDigits missing).Reads c digits d := by
  rw [fractionDigits, reads_peek_bind]
  cases h with
  | absent =>
      obtain rfl := Cursor.passes_nil.1 hp
      split
      · rename_i hc
        exact absurd hc hpoint
      · simp
  | present hd =>
      obtain ⟨m, hm, hp⟩ := Cursor.passes_cons.1 hp
      obtain ⟨hc, rfl⟩ := Cursor.passes_singleton.1 hm
      simp only [hc, reads_advance_bind]
      rw [reads_bind]
      refine ⟨digits, d, reads_takeWhile.2 ⟨hp, hd.isDigit, hs⟩, ?_⟩
      simp [hd.1]

/-- A sign is read for what it is, and no sign for a plus. -/
theorem exponentSign_sound {negative : Bool} {c d : Cursor} (h : exponentSign.Reads c negative d) :
    ∃ text, SignText text negative ∧ c.Passes text d := by
  rw [exponentSign, reads_peek_bind] at h
  split at h
  · rename_i hc
    rw [reads_advance_bind] at h
    obtain ⟨rfl, rfl⟩ := reads_pure.1 h
    exact ⟨['-'], .minus, Cursor.passes_singleton.2 ⟨hc, rfl⟩⟩
  · rename_i hc
    rw [reads_advance_bind] at h
    obtain ⟨rfl, rfl⟩ := reads_pure.1 h
    exact ⟨['+'], .plus, Cursor.passes_singleton.2 ⟨hc, rfl⟩⟩
  · obtain ⟨rfl, rfl⟩ := reads_pure.1 h
    exact ⟨[], .absent, Cursor.passes_nil.2 rfl⟩

/-- A sign is read before a digit, which also tells where the sign is absent. -/
theorem exponentSign_complete {text : List Char} {negative : Bool} {c d : Cursor} {x : Char}
    (h : SignText text negative) (hp : c.Passes text d) (hx : d.rest.head? = some x)
    (hd : isDigit x = true) : exponentSign.Reads c negative d := by
  rw [exponentSign, reads_peek_bind]
  cases h with
  | absent =>
      obtain rfl := Cursor.passes_nil.1 hp
      rw [hx]
      split
      · simp_all [isDigit]
      · simp_all [isDigit]
      · simp
  | plus =>
      obtain ⟨hc, rfl⟩ := Cursor.passes_singleton.1 hp
      simp [hc]
  | minus =>
      obtain ⟨hc, rfl⟩ := Cursor.passes_singleton.1 hp
      simp [hc]

/-- What is read as an exponent is a mark, a sign and digits, or nothing. -/
theorem exponentPart_sound {missing : Cause} {exponent : Option (Bool × List Char)} {c d : Cursor}
    (h : (exponentPart missing).Reads c exponent d) :
    ∃ text, ExponentText text exponent ∧ c.Passes text d := by
  rw [exponentPart, reads_peek_bind] at h
  split at h
  · rename_i y hy
    split at h
    · rename_i hmark
      rw [reads_advance_bind, reads_bind] at h
      obtain ⟨negative, m, hsign, h⟩ := h
      obtain ⟨sign, hsign, hp⟩ := exponentSign_sound hsign
      rw [reads_peek_bind] at h
      split at h
      · simp at h
      · rename_i z hz
        split at h
        · rename_i hd
          obtain ⟨digits, _, htake, h⟩ := reads_bind.1 h
          obtain ⟨rfl, rfl⟩ := reads_pure.1 h
          obtain ⟨hp', hall, hs⟩ := reads_takeWhile.1 htake
          have hne : digits ≠ [] := by
            rintro rfl
            obtain rfl := Cursor.passes_nil.1 hp'
            exact absurd (hs z hz) (by simp [hd])
          refine ⟨y :: (sign ++ digits), .present hmark hsign (digits_iff.2 ⟨hne, hall⟩), ?_⟩
          exact Cursor.passes_cons.2
            ⟨_, Cursor.passes_singleton.2 ⟨hy, rfl⟩, hp.trans hp'⟩
        · simp at h
    · obtain ⟨rfl, rfl⟩ := reads_pure.1 h
      exact ⟨[], .absent, Cursor.passes_nil.2 rfl⟩
  · obtain ⟨rfl, rfl⟩ := reads_pure.1 h
    exact ⟨[], .absent, Cursor.passes_nil.2 rfl⟩

theorem exponentPart_complete {missing : Cause} {text : List Char}
    {exponent : Option (Bool × List Char)} {c d : Cursor} (h : ExponentText text exponent)
    (hp : c.Passes text d) (hd : Delimited d) : (exponentPart missing).Reads c exponent d := by
  rw [exponentPart, reads_peek_bind]
  cases h with
  | absent =>
      obtain rfl := Cursor.passes_nil.1 hp
      split
      · rename_i y hy
        have hmark : ¬ (y = 'e' ∨ y = 'E') := by
          rintro (rfl | rfl)
          · exact hd.head_ne (by decide) hy
          · exact hd.head_ne (by decide) hy
        simp [hmark]
      · simp
  | @present mark sign digits negative hmark hsign hdigits =>
      obtain ⟨m, hm, hp⟩ := Cursor.passes_cons.1 hp
      obtain ⟨hc, rfl⟩ := Cursor.passes_singleton.1 hm
      obtain ⟨e, hse, hde⟩ := Cursor.passes_append.1 hp
      obtain ⟨z, rest, rfl⟩ := List.exists_cons_of_ne_nil hdigits.1
      have hz : e.rest.head? = some z := by
        rw [hde.rest_eq]
        rfl
      have hdz := hdigits.isDigit z List.mem_cons_self
      simp only [hc, hmark, if_true, reads_advance_bind]
      rw [reads_bind]
      refine ⟨negative, e, exponentSign_complete hsign hse hz hdz, ?_⟩
      rw [reads_peek_bind]
      simp only [hz, hdz, if_true, reads_bind, reads_pure]
      exact ⟨z :: rest, d, reads_takeWhile.2 ⟨hde, hdigits.isDigit, hd.stops_isDigit⟩, rfl, rfl⟩

/-! ## Literals -/

/-- The digits of a literal whose sign has been taken. -/
def digitsOf (missing : Cause) (negative : Bool) : Reader Literal := do
  let whole ← wholeDigits missing
  let fraction ← fractionDigits missing
  let exponent ← exponentPart missing
  pure ⟨negative, whole, fraction, exponent⟩

/-- The reader of a literal looks for the minus sign and goes on with the digits. -/
theorem literal_eq (missing : Cause) :
    literal missing = peek >>= fun
      | some '-' => advance >>= fun _ => digitsOf missing true
      | _ => digitsOf missing false := by
  unfold literal digitsOf
  rfl

theorem reads_digitsOf {missing : Cause} {negative : Bool} {l : Literal} {c d : Cursor} :
    (digitsOf missing negative).Reads c l d ↔
      l.negative = negative ∧ ∃ m m', (wholeDigits missing).Reads c l.whole m ∧
        (fractionDigits missing).Reads m l.fraction m' ∧
          (exponentPart missing).Reads m' l.exponent d := by
  rw [digitsOf, reads_bind]
  constructor
  · rintro ⟨whole, m, hw, h⟩
    obtain ⟨fraction, m', hf, h⟩ := reads_bind.1 h
    obtain ⟨exponent, k, he, h⟩ := reads_bind.1 h
    obtain ⟨rfl, rfl⟩ := reads_pure.1 h
    exact ⟨rfl, m, m', hw, hf, he⟩
  · rintro ⟨rfl, m, m', hw, hf, he⟩
    exact ⟨_, m, hw, reads_bind.2 ⟨_, m', hf, reads_bind.2 ⟨_, d, he, reads_pure.2 ⟨rfl, rfl⟩⟩⟩⟩

/-- A minus is taken for the sign, and anything else stays. -/
theorem reads_literal {missing : Cause} {l : Literal} {c d : Cursor} :
    (literal missing).Reads c l d ↔
      ∃ m, c.Passes (if l.negative then ['-'] else []) m ∧
        (l.negative = false → c.rest.head? ≠ some '-') ∧
          (digitsOf missing l.negative).Reads m l d := by
  rw [literal_eq, reads_peek_bind]
  constructor
  · intro h
    split at h
    · rename_i hc
      rw [reads_advance_bind] at h
      have hn := (reads_digitsOf.1 h).1
      refine ⟨c.next, ?_, by simp [hn], hn ▸ h⟩
      simpa [hn] using Cursor.passes_singleton.2 ⟨hc, rfl⟩
    · rename_i hc
      have hn := (reads_digitsOf.1 h).1
      exact ⟨c, by simp [hn], fun _ => hc, hn ▸ h⟩
  · rintro ⟨m, hs, hne, h⟩
    cases hn : l.negative with
    | true =>
        rw [hn] at hs h
        obtain ⟨hc, rfl⟩ := Cursor.passes_singleton.1 hs
        simp only [hc]
        exact reads_advance_bind.2 h
    | false =>
        rw [hn] at hs h
        obtain rfl := Cursor.passes_nil.1 hs
        split
        · rename_i hc
          exact absurd hc (hne hn)
        · exact h

/-- What is read as a literal is the text of it. -/
theorem literal_sound {missing : Cause} {l : Literal} {c d : Cursor}
    (h : (literal missing).Reads c l d) : ∃ text, LiteralText text l ∧ c.Passes text d := by
  obtain ⟨m, hs, -, h⟩ := reads_literal.1 h
  obtain ⟨-, m₂, m₃, hwhole, hfraction, hexponent⟩ := reads_digitsOf.1 h
  obtain ⟨hw, hwp, -⟩ := reads_wholeDigits.1 hwhole
  obtain ⟨f, hf, hfp⟩ := fractionDigits_sound hfraction
  obtain ⟨e, he, hep⟩ := exponentPart_sound hexponent
  exact ⟨_, ⟨f, e, rfl, hw, hf, he⟩, hs.trans (hwp.trans (hfp.trans hep))⟩

/-- Before an exponent, or where it is absent, neither digits nor a point go on. -/
theorem stops_of_exponent {text : List Char} {exponent : Option (Bool × List Char)} {m d : Cursor}
    (h : ExponentText text exponent) (hp : m.Passes text d) (hd : Delimited d) :
    Stops isDigit m ∧ m.rest.head? ≠ some '.' := by
  cases h with
  | absent =>
      obtain rfl := Cursor.passes_nil.1 hp
      exact ⟨hd.stops_isDigit, hd.head_ne (by decide)⟩
  | present hmark _ _ =>
      have hr := hp.rest_eq
      simp only [Stops, hr, List.cons_append, List.head?_cons, Option.mem_some_iff, forall_eq']
      rcases hmark with rfl | rfl <;> decide

/-- Before a fraction, or where it is absent, the digits do not go on. -/
theorem stops_of_fraction {text digits : List Char} {m d : Cursor} (h : FractionText text digits)
    (hp : m.Passes text d) (hd : Stops isDigit d) : Stops isDigit m := by
  cases h with
  | absent =>
      obtain rfl := Cursor.passes_nil.1 hp
      exact hd
  | present _ =>
      have hr := hp.rest_eq
      simp only [Stops, hr, List.cons_append, List.head?_cons, Option.mem_some_iff, forall_eq']
      decide

/-- The text of a literal is read whole where a value may end. -/
theorem literal_complete {missing : Cause} {text : List Char} {l : Literal} {c d : Cursor}
    (h : LiteralText text l) (hp : c.Passes text d) (hd : Delimited d) :
    (literal missing).Reads c l d := by
  obtain ⟨f, e, rfl, hw, hf, he⟩ := h
  obtain ⟨m₁, hs, hp⟩ := Cursor.passes_append.1 hp
  obtain ⟨m₂, hwp, hp⟩ := Cursor.passes_append.1 hp
  obtain ⟨m₃, hfp, hep⟩ := Cursor.passes_append.1 hp
  obtain ⟨hs₃, hpoint⟩ := stops_of_exponent he hep hd
  have hs₂ := stops_of_fraction hf hfp hs₃
  refine reads_literal.2 ⟨m₁, hs, fun hn => ?_, reads_digitsOf.2 ⟨rfl, m₂, m₃,
    reads_wholeDigits.2 ⟨hw, hwp, hs₂⟩, fractionDigits_complete hf hfp hs₃ hpoint,
    exponentPart_complete he hep hd⟩⟩
  rw [hn] at hs
  obtain rfl := Cursor.passes_nil.1 hs
  obtain ⟨y, rest, hy⟩ := List.exists_cons_of_ne_nil hw.1.1
  have hyd : isDigit y = true := hw.1.isDigit y (by simp [hy])
  rw [hwp.rest_eq, hy, List.cons_append, List.head?_cons]
  rintro ⟨⟩
  simp [isDigit] at hyd

/-- A literal stands for the number that its value is, when it has one. -/
theorem reads_number {n : Number} {c d : Cursor} :
    number.Reads c n d ↔
      ∃ l, (literal (.endOfInput .value)).Reads c l d ∧ l.value = .ok n := by
  rw [number, reads_bind]
  constructor
  · rintro ⟨l, m, hl, h⟩
    split at h
    · rename_i value hv
      obtain ⟨rfl, rfl⟩ := reads_pure.1 h
      exact ⟨l, hl, hv⟩
    · simp at h
  · rintro ⟨l, hl, hv⟩
    exact ⟨l, d, hl, by simp [hv]⟩

theorem literalText_head {text : List Char} {l : Literal} (h : LiteralText text l) :
    ∃ x rest, text = x :: rest ∧ (x = '-' ∨ isDigit x = true) := by
  obtain ⟨f, e, rfl, hw, -, -⟩ := h
  obtain ⟨y, rest, hy⟩ := List.exists_cons_of_ne_nil hw.1.1
  cases l.negative with
  | true => exact ⟨'-', _, rfl, .inl rfl⟩
  | false => exact ⟨y, rest ++ (f ++ e), by simp [hy], .inr (hw.1.isDigit y (by simp [hy]))⟩

/-! ## The value of an integer -/

/-- The number that digits write after a significand. -/
def decimalValueFrom (start : Nat) (digits : List Char) : Nat :=
  digits.foldl (fun n c => n * 10 + digitValue c) start

theorem decimalValueFrom_zero (digits : List Char) :
    decimalValueFrom 0 digits = decimalValue digits := (decimalValue_eq_foldl digits).symm

theorem le_decimalValueFrom (start : Nat) (digits : List Char) :
    start ≤ decimalValueFrom start digits := by
  induction digits generalizing start with
  | nil => exact Nat.le_refl _
  | cons c digits ih =>
      have := ih (start * 10 + digitValue c)
      simp only [decimalValueFrom, List.foldl_cons] at this ⊢
      omega

/-- Digits are all absorbed when the number that they write is below the limit. -/
theorem absorb_eq_of_lt {limit start : Nat} {digits : List Char}
    (h : decimalValueFrom start digits < limit) :
    absorb limit start digits = (decimalValueFrom start digits, 0) := by
  induction digits generalizing start with
  | nil => rfl
  | cons c digits ih =>
      have hstep := le_decimalValueFrom (start * 10 + digitValue c) digits
      have hrest : decimalValueFrom (start * 10 + digitValue c) digits < limit := h
      have hlt : start * 10 + digitValue c < limit := by omega
      simp only [absorb, hlt, if_true]
      exact ih hrest

/-- Digits that are all absorbed keep the number below the limit. -/
theorem decimalValueFrom_lt_of_absorb {limit start : Nat} {digits : List Char}
    (hs : start < limit) (h : (absorb limit start digits).2 = 0) :
    decimalValueFrom start digits < limit := by
  induction digits generalizing start with
  | nil => exact hs
  | cons c digits ih =>
      simp only [absorb] at h
      split at h
      · rename_i hlt
        exact ih hlt h
      · simp at h

theorem Literal.value_eq_natural_iff {l : Literal} {n : Nat} :
    l.value = .ok (.natural n) ↔
      l.negative = false ∧ l.fraction = [] ∧ l.exponent = none ∧ decimalValue l.whole = n ∧
        n < Nat.pow 2 64 := by
  have hlimit : (0 : Nat) < Literal.significandLimit := by decide
  constructor
  · intro h
    unfold Literal.value at h
    split at h
    · rename_i hint
      simp only [Literal.isInteger, Bool.and_eq_true, List.isEmpty_iff, Option.isNone_iff_eq_none,
        beq_iff_eq] at hint
      obtain ⟨⟨hf, he⟩, hz⟩ := hint
      have hlt := decimalValueFrom_lt_of_absorb hlimit hz
      have hall := absorb_eq_of_lt hlt
      split at h
      · rename_i hneg
        simp only [Except.ok.injEq, Number.natural.injEq] at h
        simp only [Literal.significand, hf, hall, absorb] at h
        rw [decimalValueFrom_zero] at h hlt
        exact ⟨by simpa using hneg, hf, he, h, h ▸ hlt⟩
      · dsimp only at h
        split at h <;> simp at h
    · cases hb : l.toBinary64 with
      | error e => simp [hb, Except.map] at h
      | ok x => simp [hb, Except.map] at h
  · rintro ⟨hneg, hf, he, rfl, hlt⟩
    have hall : absorb Literal.significandLimit 0 l.whole = (decimalValue l.whole, 0) := by
      rw [← decimalValueFrom_zero] at hlt ⊢
      exact absorb_eq_of_lt hlt
    simp [Literal.value, Literal.isInteger, Literal.significand, hneg, hf, he, hall, absorb]

end Json

end SyntaxTree
