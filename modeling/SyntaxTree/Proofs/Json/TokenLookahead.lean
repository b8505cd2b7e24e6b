import SyntaxTree.Proofs.Json.Lookahead

/-! # How far signs and numbers look

The readers of signs and of numbers depend on the text up to where they stop, and on the next byte.
-/

namespace SyntaxTree

namespace Json

open Text (Cursor byteLength)
open Text.Cursor (Shares)
open Reader

variable {α β : Type}

/-! ## Signs -/

theorem steady_word (text : List Char) (htext : ∀ c ∈ text, c.toNat < 0x80) :
    Steady (word text) := by
  induction text with
  | nil => exact steady_pure ()
  | cons c rest ih =>
      obtain ⟨hc, hrest⟩ := List.forall_mem_cons.1 htext
      refine .peek_bind ⟨failAhead .expectedWord, fun x hx => if_neg (ne_of_high hx c hc)⟩ ?_
      intro next
      split
      · exact steady_failAhead _
      · split
        · exact steady_advance.bind fun _ => ih hrest
        · exact steady_failAhead _

/-- Whether another element follows is told by a sign and, after a comma, by the next one. -/
theorem steady_nextElement (first : Bool) : Steady (nextElement first) := by
  refine steady_skipBlanks.bind fun _ => .peek_bind ?_ fun next => ?_
  · refine ⟨if first then pure true else failAhead .expectedListSeparator, fun x hx => ?_⟩
    simp [ne_of_high hx]
  · split
    · exact steady_failAhead _
    · exact steady_pure false
    · split
      · exact steady_pure true
      · split
        · refine steady_advance.bind fun _ => steady_skipBlanks.bind fun _ => .peek_bind ?_ ?_
          · exact ⟨pure true, fun x hx => by simp [ne_of_high hx]⟩
          · intro next
            split
            · exact steady_failAhead _
            · exact steady_failAhead _
            · exact steady_pure true
        · exact steady_failAhead _

theorem steady_nextKey (first : Bool) : Steady (nextKey first) := by
  refine steady_skipBlanks.bind fun _ => .peek_bind ?_ fun next => ?_
  · refine ⟨failAhead (if first then .keyNotString else .expectedMapSeparator), fun x hx => ?_⟩
    cases first <;> simp [ne_of_high hx]
  · split
    · exact steady_failAhead _
    · exact steady_pure false
    · split
      · split
        · exact steady_pure true
        · exact steady_failAhead _
      · split
        · refine steady_advance.bind fun _ => steady_skipBlanks.bind fun _ => .peek_bind ?_ ?_
          · exact ⟨failAhead .keyNotString, fun x hx => by simp [ne_of_high hx]⟩
          · intro next
            split
            · exact steady_failAhead _
            · exact steady_pure true
            · exact steady_failAhead _
            · exact steady_failAhead _
        · exact steady_failAhead _

theorem steady_closeVariant : Steady closeVariant := by
  refine steady_skipBlanks.bind fun _ => .peek_bind ?_ fun next => ?_
  · exact ⟨failHere .expectedValue, fun x hx => by simp [ne_of_high hx]⟩
  · split
    · exact steady_advance
    · exact steady_failHere _
    · exact steady_failHere _

theorem steady_colon : Steady colon := by
  refine steady_skipBlanks.bind fun _ => .peek_bind ?_ fun next => ?_
  · exact ⟨failAhead .expectedColon, fun x hx => by simp [ne_of_high hx]⟩
  · split
    · exact steady_failAhead _
    · exact steady_advance
    · exact steady_failAhead _

/-- The close of a list may look at a sign after a comma, and then it fails. -/
theorem ends_closeList : Ends closeList := by
  refine .skipBlanks_bind fun _ => .peek_bind ?_ fun next => ?_
  · exact ⟨failAhead .trailingCharacters, fun x hx => by simp [ne_of_high hx]⟩
  · split
    · exact .failAhead _
    · exact .advance
    · refine .advance_bind fun _ => .skipBlanks_bind fun _ => .peek_bind ?_ fun next => ?_
      · exact ⟨failAhead .trailingCharacters, fun x hx => by simp [ne_of_high hx]⟩
      · split
        · exact .failAhead _
        · exact .failAhead _
    · exact .failAhead _

theorem ends_closeObject : Ends closeObject := by
  refine .skipBlanks_bind fun _ => .peek_bind ?_ fun next => ?_
  · exact ⟨failAhead .trailingCharacters, fun x hx => by simp [ne_of_high hx]⟩
  · split
    · exact .failAhead _
    · exact .advance
    · exact .failAhead _
    · exact .failAhead _

/-! ## Numbers -/

/-- A zero is looked beyond, because no digit may follow it. -/
theorem steady_wholeDigits (missing : Cause) : Steady (wholeDigits missing) := by
  refine .peek_bind ⟨failAhead .invalidNumber, fun x hx => ?_⟩ fun next => ?_
  · simp [ne_of_high hx, isDigit_of_high hx]
  · split
    · exact steady_failAhead _
    · refine steady_advance.bind fun _ => .peek_bind ⟨pure ['0'], fun x hx => ?_⟩ fun next => ?_
      · simp [isDigit_of_high hx]
      · split
        · split
          · exact steady_failAhead _
          · exact steady_pure _
        · exact steady_pure _
    · split
      · exact steady_takeWhile fun _ => isDigit_lt
      · exact steady_failAhead _

/-- Digits end with the first character that is none. -/
theorem steady_fractionDigits (missing : Cause) : Steady (fractionDigits missing) := by
  refine .peek_bind ⟨pure [], fun x hx => by simp [ne_of_high hx]⟩ fun next => ?_
  split
  · refine steady_advance.bind fun _ => (steady_takeWhile fun _ => isDigit_lt).bind fun digits => ?_
    split
    · refine .peek_bind ⟨failAhead .invalidNumber, fun x hx => rfl⟩ fun next => ?_
      split
      · exact steady_failAhead _
      · exact steady_failAhead _
    · exact steady_pure _
  · exact steady_pure _

theorem steady_exponentSign : Steady exponentSign := by
  refine .peek_bind ⟨pure false, fun x hx => by simp [ne_of_high hx]⟩ fun next => ?_
  split
  · exact steady_advance.bind fun _ => steady_pure _
  · exact steady_advance.bind fun _ => steady_pure _
  · exact steady_pure _

theorem failAhead_bind (cause : Cause) (f : α → Reader β) :
    (failAhead cause >>= f) = failAhead cause := rfl

/-- What is made of an exponent may depend on where its digits end in more than one way. -/
theorem steady_exponentPart_bind {missing : Cause} {f : Option (Bool × List Char) → Reader α}
    (hnone : Steady (f none))
    (hsome : ∀ negative, Steady (takeWhile isDigit >>= fun digits => f (some (negative, digits)))) :
    Steady (exponentPart missing >>= f) := by
  rw [exponentPart, bind_assoc]
  refine .peek_bind ⟨f none, fun x hx => ?_⟩ fun next => ?_
  · simp [ne_of_high hx]
  · split
    · split
      · simp only [bind_assoc]
        refine steady_advance.bind fun _ => steady_exponentSign.bind fun negative => ?_
        refine .peek_bind ⟨failAhead .invalidNumber, fun x hx => ?_⟩ fun next => ?_
        · simp [failAhead_bind, isDigit_of_high hx]
        · split
          · exact steady_failAhead _
          · split
            · simpa only [bind_assoc, pure_bind] using hsome negative
            · exact steady_failAhead _
      · rwa [pure_bind]
    · rwa [pure_bind]

/-- The digits of a written exponent are handed on as a run of characters, because a fault of the
value may lie inside them. -/
theorem steady_digitsOf_bind {missing : Cause} {negative : Bool} {f : Literal → Reader α}
    (hnone : ∀ whole fraction, Steady (f ⟨negative, whole, fraction, none⟩))
    (hsome : ∀ whole fraction sign, Steady (takeWhile isDigit >>= fun digits =>
      f ⟨negative, whole, fraction, some (sign, digits)⟩)) :
    Steady (digitsOf missing negative >>= f) := by
  simp only [digitsOf, bind_assoc, pure_bind]
  refine (steady_wholeDigits missing).bind fun whole => ?_
  refine (steady_fractionDigits missing).bind fun fraction => ?_
  exact steady_exponentPart_bind (hnone whole fraction) (hsome whole fraction)

theorem steady_literal_bind {missing : Cause} {f : Literal → Reader α}
    (hnone : ∀ negative whole fraction, Steady (f ⟨negative, whole, fraction, none⟩))
    (hsome : ∀ negative whole fraction sign, Steady (takeWhile isDigit >>= fun digits =>
      f ⟨negative, whole, fraction, some (sign, digits)⟩)) :
    Steady (literal missing >>= f) := by
  rw [literal_eq, bind_assoc]
  refine .peek_bind ⟨digitsOf missing false >>= f, fun x hx => ?_⟩ fun next => ?_
  · simp [ne_of_high hx]
  · split
    · rw [bind_assoc]
      exact steady_advance.bind fun _ => steady_digitsOf_bind (hnone true) (hsome true)
    · exact steady_digitsOf_bind (hnone false) (hsome false)

theorem steady_skipNumber : Steady skipNumber :=
  steady_literal_bind (fun _ _ _ => steady_pure ()) fun _ _ _ _ =>
    (steady_takeWhile fun _ => isDigit_lt).bind fun _ => steady_pure ()

/-- The value of a literal that has been read. -/
def valueOf (l : Literal) : Reader Number :=
  match l.value with
  | .ok value => pure value
  | .error left => Reader.ofStep fun cursor =>
    (.error ⟨.numberOutOfRange, some (cursor.offset - left)⟩, cursor)

theorem number_eq : number = literal (.endOfInput .value) >>= valueOf := rfl

/-- A significand that overflows does so at one digit, whatever follows it. -/
theorem absorb_overflow {limit start left : Nat} {digits : List Char}
    (h : (absorb limit start digits).2 = left + 1) :
    ∃ front rest, digits = front ++ rest ∧ rest.length = left ∧
      ∀ rest', (absorb limit start (front ++ rest')).2 = rest'.length + 1 := by
  induction digits generalizing start with
  | nil => simp [absorb] at h
  | cons c digits ih =>
      by_cases hlt : start * 10 + digitValue c < limit
      · simp only [absorb, if_pos hlt] at h
        obtain ⟨front, rest, rfl, hleft, hfront⟩ := ih h
        refine ⟨c :: front, rest, rfl, hleft, fun rest' => ?_⟩
        simp only [List.cons_append, absorb, if_pos hlt]
        exact hfront rest'
      · simp only [absorb, if_neg hlt] at h
        refine ⟨[c], digits, rfl, Nat.succ.inj h, fun rest' => ?_⟩
        simp only [List.cons_append, List.nil_append, absorb, if_neg hlt]

namespace Literal

/-- Only a literal that is no integer can be out of range. -/
theorem value_error {l : Literal} {left : Nat} (h : l.value = .error left) :
    l.isInteger = false ∧ l.toBinary64 = .error left := by
  unfold value at h
  cases hint : l.isInteger with
  | true =>
      rw [hint, if_pos rfl] at h
      dsimp only at h
      split at h
      · nomatch h
      · split at h
        · nomatch h
        · nomatch h
  | false =>
      rw [hint, if_neg Bool.false_ne_true] at h
      cases hx : l.toBinary64 with
      | error k =>
          rw [hx] at h
          injection h with h
          exact ⟨rfl, by rw [h]⟩
      | ok x =>
          rw [hx] at h
          nomatch h

/-- A product that is too large is found out at the end of the literal. -/
theorem eq_zero_of_scaled {x : Option Binary64} {f : Binary64 → Binary64} {left : Nat}
    (h : (x.elim (.error 0) fun y => .ok (f y)) = Except.error left) : left = 0 := by
  cases x with
  | none =>
      injection h with h
      exact h.symm
  | some y => nomatch h

variable {negative sign : Bool} {whole fraction digits : List Char} {left : Nat}

theorem value_error_plain
    (h : (Literal.mk negative whole fraction none).value = .error left) : left = 0 :=
  eq_zero_of_scaled (value_error h).2

/-- An exponent that is too large is found out at one of its digits. -/
theorem value_error_exponent
    (h : (Literal.mk negative whole fraction (some (sign, digits))).value = .error left) :
    left = 0 ∨ ∃ front rest, digits = front ++ rest ∧ rest.length = left ∧ ∀ rest',
      (Literal.mk negative whole fraction (some (sign, front ++ rest'))).value =
        .error rest'.length := by
  have herror := (value_error h).2
  simp only [toBinary64] at herror
  split at herror
  · exact .inl (eq_zero_of_scaled herror)
  · rename_i hne
    split at herror
    · nomatch herror
    · rename_i hlarge
      obtain ⟨k, hk⟩ := Nat.exists_eq_succ_of_ne_zero hne
      obtain ⟨front, rest, rfl, hlength, hfront⟩ := absorb_overflow hk
      refine .inr ⟨front, rest, rfl, ?_, fun rest' => ?_⟩
      · rw [hk] at herror
        injection herror with herror
        omega
      · have hover := hfront rest'
        have hsame : (Literal.mk negative whole fraction
          (some (sign, front ++ rest'))).significand =
            (Literal.mk negative whole fraction (some (sign, front ++ rest))).significand := rfl
        simp only [value, isInteger, Option.isNone_some, Bool.and_false, Bool.false_and,
          toBinary64, hsame, hover, if_neg hlarge]
        rfl

end Literal

theorem steady_valueOf_plain (negative : Bool) (whole fraction : List Char) :
    Steady (valueOf ⟨negative, whole, fraction, none⟩) := by
  rw [valueOf]
  split
  · exact steady_pure _
  · rename_i left h
    obtain rfl := Literal.value_error_plain h
    exact steady_failHere _

theorem on_takeWhile_bind (test : Char → Bool) (f : List Char → Reader α) (c : Cursor) :
    (takeWhile test >>= f).on c = (f (c.rest.takeWhile test)).on (c.dropWhile test) :=
  on_bind_of_reads rfl

/-- A value that is out of range is a fault some digits back. -/
theorem on_valueOf (l : Literal) (c : Cursor) :
    (valueOf l).on c = match l.value with
      | .ok value => (.ok value, c)
      | .error left => (.error ⟨.numberOutOfRange, some (c.offset - left)⟩, c) := by
  unfold valueOf
  cases l.value <;> rfl

theorem length_le_byteLength (text : List Char) : text.length ≤ byteLength text := by
  induction text with
  | nil => exact Nat.le_refl _
  | cons c text ih =>
      have hsize := c.utf8Size_pos
      rw [List.length_cons, Text.byteLength_cons]
      omega

theorem byteLength_takeWhile_isDigit (text : List Char) :
    byteLength (text.takeWhile isDigit) = (text.takeWhile isDigit).length :=
  Text.byteLength_eq_length fun x hx => by
    have hdigit := List.all_eq_true.1 List.all_takeWhile x hx
    exact Text.utf8Size_of_ascii (isDigit_lt hdigit)

/-- The fault of an exponent lies inside its digits. -/
theorem forward_valueOf_exponent (negative : Bool) (whole fraction : List Char) (sign : Bool) :
    Forward (takeWhile isDigit >>= fun digits =>
      valueOf ⟨negative, whole, fraction, some (sign, digits)⟩) := by
  intro c
  have hpass := c.passes_dropWhile isDigit
  rw [on_takeWhile_bind, on_valueOf]
  split
  · exact .of_passes hpass
  · rename_i left hvalue
    have hleft : left ≤ (c.rest.takeWhile isDigit).length := by
      rcases Literal.value_error_exponent hvalue with rfl | ⟨front, rest, hdigits, rfl, -⟩
      · exact Nat.zero_le _
      · rw [hdigits, List.length_append]
        omega
    have hlength := length_le_byteLength (c.rest.takeWhile isDigit)
    have hoffset := hpass.offset_eq
    have hfinish := hpass.offset_le_finish
    refine ⟨⟨_, hpass⟩, ?_, ?_⟩
    · change c.offset ≤ (c.dropWhile isDigit).offset - left
      omega
    · change (c.dropWhile isDigit).offset - left ≤ c.finish
      omega

/-- Two runs of digits that agree at first may end in different places. -/
theorem shares_digits {e : Nat} {c c' : Cursor} (hs : Shares e c c')
    {front rest : List Char} (hdigits : c.rest.takeWhile isDigit = front ++ rest)
    (hlt : (c.dropWhile isDigit).offset - rest.length < e) :
    ∃ rest', c'.rest.takeWhile isDigit = front ++ rest' ∧
      (c'.dropWhile isDigit).offset - rest'.length =
        (c.dropWhile isDigit).offset - rest.length := by
  have hoffset := (c.passes_dropWhile isDigit).offset_eq
  have hbytes := byteLength_takeWhile_isDigit c.rest
  have hlength := length_le_byteLength front
  have hlength' := length_le_byteLength rest
  rw [hdigits, Text.byteLength_append] at hoffset hbytes
  rw [List.length_append] at hbytes
  have hrest : c.rest = front ++ (rest ++ c.rest.dropWhile isDigit) := by
    rw [← List.append_assoc, ← hdigits, List.takeWhile_append_dropWhile]
  have hagree := hs.agree
  rw [hrest] at hagree
  obtain ⟨tail, htail, -⟩ := hagree.of_append (by omega)
  have hfront : ∀ x ∈ front, isDigit x = true := fun x hx =>
    List.all_eq_true.1 List.all_takeWhile x (hdigits ▸ List.mem_append_left rest hx)
  have hdigits' : c'.rest.takeWhile isDigit = front ++ tail.takeWhile isDigit := by
    rw [htail, List.takeWhile_append_of_pos hfront]
  refine ⟨_, hdigits', ?_⟩
  have hoffset' := (c'.passes_dropWhile isDigit).offset_eq
  have hbytes' := byteLength_takeWhile_isDigit tail
  have hstart := hs.offset_eq
  rw [hdigits', Text.byteLength_append] at hoffset'
  omega

/-- A number that is out of range is reported where that turns out, which may be before its end. -/
theorem steady_valueOf_exponent (negative : Bool) (whole fraction : List Char) (sign : Bool) :
    Steady (takeWhile isDigit >>= fun digits =>
      valueOf ⟨negative, whole, fraction, some (sign, digits)⟩) := fun _ _ => {
  forward := forward_valueOf_exponent negative whole fraction sign
  forward' := forward_valueOf_exponent negative whole fraction sign
  mirrors := by
    intro e c c' hs _ _ he
    rw [on_takeWhile_bind, on_valueOf] at he ⊢
    rw [on_takeWhile_bind, on_valueOf]
    cases hvalue : (Literal.mk negative whole fraction
        (some (sign, c.rest.takeWhile isDigit))).value with
    | ok value =>
        simp only [hvalue] at he ⊢
        obtain ⟨htake, hdrop⟩ := hs.dropWhile (fun _ => isDigit_lt) he
        rw [← htake, hvalue]
        exact .ok hdrop
    | error left =>
        simp only [hvalue] at he ⊢
        rcases Literal.value_error_exponent hvalue with rfl | ⟨front, rest, hdigits, rfl, hfront⟩
        · obtain ⟨htake, hdrop⟩ := hs.dropWhile (fun _ => isDigit_lt) he
          rw [← htake, hvalue, hdrop.offset_eq]
          exact .located
        · obtain ⟨rest', hdigits', hoffset⟩ := shares_digits hs hdigits he
          rw [hdigits', hfront]
          dsimp only
          rw [hoffset]
          exact .located }

/-- A number looks one character beyond its end, or to the digit of the exponent that is one too
many. -/
theorem steady_number : Steady number := by
  rw [number_eq]
  exact steady_literal_bind steady_valueOf_plain steady_valueOf_exponent

theorem consumes_number : Consumes number := by
  intro c n d h hne
  obtain ⟨l, hl, -⟩ := reads_number.1 h
  obtain ⟨text, htext, hpass⟩ := literal_sound hl
  obtain ⟨x, rest, rfl, -⟩ := literalText_head htext
  have hlength := hpass.length_eq
  rw [List.length_cons] at hlength
  omega

end Json

end SyntaxTree
