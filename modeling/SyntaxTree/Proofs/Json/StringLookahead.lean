import SyntaxTree.Proofs.Json.TokenLookahead

/-! # How far strings look

The scans of strings go over the text by themselves. Here they are put together from readers of one
letter each, which look no further than they reach. -/

namespace SyntaxTree

namespace Json

open Text (Cursor byteLength hexNumber? hexNumber?_byteLength)
open Text.Cursor (Shares)
open Reader

variable {α β : Type}

/-! ## The letters of a string -/

/-- The four digits of an escaped code. -/
def hexCode : Reader Nat := ofStep fun cursor =>
  match cursor.rest with
  | a :: b :: c :: d :: rest =>
    match hexNumber? [a, b, c, d] with
    | none => (.error (hexFault cursor.offset cursor.rest), cursor)
    | some n => (.ok n, ⟨rest, cursor.offset + 4⟩)
  | rest => (.error (hexFault cursor.offset rest), cursor)

/-- The second half of a pair of surrogates. -/
def lowHalf (high : Nat) : Reader Char := do
  match ← peek with
  | none => failAhead (.endOfInput .string)
  | some '\\' => do
    advance
    match ← peek with
    | none => failAhead (.endOfInput .string)
    | some 'u' => do
      advance
      let low ← hexCode
      if isLowSurrogate low then pure (joinSurrogates high low) else failHere .loneSurrogate
    | some _ => failAhead .unfinishedSurrogatePair
  | some _ => failAhead .unfinishedSurrogatePair

/-- The character of an escaped code, which may need a second one. -/
def codePoint (code : Nat) : Reader Char :=
  if isLowSurrogate code then failHere .loneSurrogate
  else if isHighSurrogate code then lowHalf code
  else pure (Char.ofNat code)

/-- The next character, which is taken. -/
def character : Reader Char := ofStep fun cursor =>
  match cursor.rest with
  | [] => (.error ⟨.endOfInput .string, some cursor.offset⟩, cursor)
  | c :: _ => (.ok c, cursor.next)

section Letters

variable (code : Nat → Reader β) (plain : Char → β) (control : Reader α) (finish : List β → α)

/-- What follows a backslash. -/
def escape : Reader β := do
  match ← peek with
  | none => failAhead (.endOfInput .string)
  | some 'u' => do
    advance
    code (← hexCode)
  | some e =>
    match shortEscape? e with
    | some c => do
      advance
      pure (plain c)
    | none => failAhead .invalidEscape

/-- The contents of a string up to its closing quote, one character or escape after the other. -/
def letters : Nat → List β → Reader α
  | 0, _ => failAhead (.endOfInput .string)
  | n + 1, seen => do
    match ← peek with
    | none => failAhead (.endOfInput .string)
    | some '"' => do
      advance
      pure (finish seen)
    | some '\\' => do
      advance
      let letter ← escape code plain
      letters n (letter :: seen)
    | some c =>
      if c.toNat < 0x20 then control
      else do
        let c ← character
        letters n (plain c :: seen)

end Letters

/-! ## Escapes -/

/-- Four characters are there, so the code is read or they are no digits. -/
theorem on_hexCode_bind (f : Nat → Reader α) (offset : Nat) (a b c d : Char) (rest : List Char) :
    (hexCode >>= f).on ⟨a :: b :: c :: d :: rest, offset⟩ =
      match hexNumber? [a, b, c, d] with
      | none => (.error (hexFault offset (a :: b :: c :: d :: rest)),
          ⟨a :: b :: c :: d :: rest, offset⟩)
      | some n => (f n).on ⟨rest, offset + 4⟩ := by
  have hrun : hexCode.on ⟨a :: b :: c :: d :: rest, offset⟩ =
      match hexNumber? [a, b, c, d] with
      | none => (.error (hexFault offset (a :: b :: c :: d :: rest)),
          ⟨a :: b :: c :: d :: rest, offset⟩)
      | some n => (.ok n, ⟨rest, offset + 4⟩) := rfl
  rw [on_bind, hrun]
  cases hexNumber? [a, b, c, d] <;> rfl

section Escape

variable {code : Nat → Reader β} {plain : Char → β} {e : Char} {rest : List Char} {offset : Nat}

/-- The letter of a code is passed with its backslash. -/
theorem on_escape_code {a b c d : Char} :
    (escape code plain).on ⟨'u' :: a :: b :: c :: d :: rest, offset⟩ =
      (hexCode >>= code).on ⟨a :: b :: c :: d :: rest, offset + 1⟩ := rfl

theorem on_escape_short {c : Char} (hc : shortEscape? e = some c) :
    (escape code plain).on ⟨e :: rest, offset⟩ = (.ok (plain c), ⟨rest, offset + 1⟩) := by
  have hu := shortEscape?_ne hc
  have hsize := shortEscape?_utf8Size hc
  rw [escape, on_peek_bind, List.head?_cons]
  simp only [hc, on_advance_bind, on_pure, Cursor.next, hsize]

theorem on_escape_other (hu : e ≠ 'u') (he : shortEscape? e = none) :
    (escape code plain).on ⟨e :: rest, offset⟩ =
      (.error ⟨.invalidEscape, some (offset + 1)⟩, ⟨e :: rest, offset⟩) := by
  rw [escape, on_peek_bind, List.head?_cons]
  simp only [he]
  rfl

end Escape

/-- How a scan goes on after a letter that has been read. -/
def goOn (scan : List β → Nat → List Char → Except Fault α × Cursor) (seen : List β) :
    Except Fault β × Cursor → Except Fault α × Cursor
  | (.ok letter, m) => scan (letter :: seen) m.offset m.rest
  | (.error fault, m) => (.error fault, m)

/-- After the first half of a pair the scan goes on as the reader of the second half does. -/
theorem scanString_pair {a b c d : Char} {n : Nat} (hcode : hexNumber? [a, b, c, d] = some n)
    (hhigh : isHighSurrogate n = true) (seen : List Char) (offset : Nat) (rest : List Char) :
    scanString seen offset ('\\' :: 'u' :: a :: b :: c :: d :: rest) =
      goOn scanString seen ((lowHalf n).on ⟨rest, offset + 6⟩) := by
  have hlow := not_isLowSurrogate hhigh
  rcases rest with _ | ⟨x, rest⟩
  · simp [scanString, hcode, hlow, hhigh]
    rfl
  by_cases hx : x = '\\'
  · subst hx
    rcases rest with _ | ⟨y, rest⟩
    · simp [scanString, hcode, hlow, hhigh]
      rfl
    by_cases hy : y = 'u'
    · subst hy
      rcases rest with _ | ⟨a, _ | ⟨b, _ | ⟨c, _ | ⟨d, rest⟩⟩⟩⟩
      · simp [scanString, hcode, hlow, hhigh]; rfl
      · simp [scanString, hcode, hlow, hhigh]; rfl
      · simp [scanString, hcode, hlow, hhigh]; rfl
      · simp [scanString, hcode, hlow, hhigh]; rfl
      · simp [scanString, hcode, hlow, hhigh, lowHalf, on_peek_bind, on_advance_bind,
          Cursor.next, on_hexCode_bind]
        cases hexNumber? [a, b, c, d] with
        | none => rfl
        | some m =>
            dsimp only
            cases isLowSurrogate m with
            | true => rfl
            | false => rfl
    · simp [scanString, hcode, hlow, hhigh, hy, lowHalf, on_peek_bind, on_advance_bind,
        Cursor.next]
      rfl
  · simp [scanString, hcode, hlow, hhigh, hx, lowHalf, on_peek_bind]
    rfl

/-- An escape stands for one character. -/
theorem scanString_escape (seen : List Char) (offset : Nat) (rest : List Char) :
    scanString seen offset ('\\' :: rest) =
      goOn scanString seen ((escape codePoint id).on ⟨rest, offset + 1⟩) := by
  rcases rest with _ | ⟨e, rest⟩
  · rfl
  by_cases he : e = 'u'
  · subst he
    match rest with
    | [] => rfl
    | [_] => rfl
    | [_, _] => rfl
    | [_, _, _] => rfl
    | a :: b :: c :: d :: rest =>
        have hrun : (escape codePoint id).on ⟨'u' :: a :: b :: c :: d :: rest, offset + 1⟩ =
            (hexCode >>= codePoint).on ⟨a :: b :: c :: d :: rest, offset + 2⟩ := rfl
        rw [hrun, on_hexCode_bind]
        cases hcode : hexNumber? [a, b, c, d] with
        | none => simp [scanString, hcode, goOn]
        | some n =>
            dsimp only
            cases hhigh : isHighSurrogate n with
            | true =>
                rw [scanString_pair hcode hhigh, codePoint, not_isLowSurrogate hhigh, hhigh]
                rfl
            | false =>
                cases hlow : isLowSurrogate n with
                | true => simp [scanString, hcode, codePoint, hlow]; rfl
                | false => simp [scanString, hcode, codePoint, hhigh, hlow]; rfl
  · cases hshort : shortEscape? e with
    | none =>
        rw [on_escape_other he hshort]
        simp [scanString, hshort, goOn]
    | some c =>
        rw [on_escape_short hshort]
        simp [scanString, hshort, goOn]

/-- A scan that passes over a string goes on after an escape of any code. -/
theorem scanSkipped_escape (seen : List Unit) (offset : Nat) (rest : List Char) :
    scanSkipped offset ('\\' :: rest) =
      goOn (fun _ => scanSkipped) seen
        ((escape (fun _ => pure ()) fun _ => ()).on ⟨rest, offset + 1⟩) := by
  rcases rest with _ | ⟨e, rest⟩
  · rfl
  by_cases he : e = 'u'
  · subst he
    match rest with
    | [] => rfl
    | [_] => rfl
    | [_, _] => rfl
    | [_, _, _] => rfl
    | a :: b :: c :: d :: rest =>
        rw [on_escape_code, on_hexCode_bind]
        cases hcode : hexNumber? [a, b, c, d] with
        | none => simp [scanSkipped, hcode, goOn]
        | some n => simp [scanSkipped, hcode, on_pure, goOn]
  · cases hshort : shortEscape? e with
    | none =>
        rw [on_escape_other he hshort]
        simp [scanSkipped, hshort, goOn]
    | some c =>
        rw [on_escape_short hshort]
        simp [scanSkipped, hshort, goOn]

/-! ## Codes -/

/-- A front of `n` characters has fewer than `n` bytes only if the whole text has. -/
theorem byteLength_take_lt {n : Nat} {text : List Char} :
    byteLength (text.take n) < n ↔ byteLength text < n := by
  by_cases hn : n ≤ text.length
  · have htake := length_le_byteLength (text.take n)
    have htext := length_le_byteLength text
    rw [List.length_take, Nat.min_eq_left hn] at htake
    omega
  · rw [List.take_of_length_le (by omega)]

theorem hexFault_of_lt {offset : Nat} {rest : List Char} (h : byteLength rest < 4) :
    hexFault offset rest = ⟨.endOfInput .string, some (offset + byteLength rest)⟩ :=
  if_pos (byteLength_take_lt.2 h)

/-- The code is complete, and some of it is no digit. -/
theorem hexFault_of_le {offset : Nat} {rest : List Char} (h : 4 ≤ byteLength rest) :
    hexFault offset rest = ⟨.invalidEscape, some (offset + 4)⟩ :=
  if_neg fun hlt => Nat.not_lt.2 h (byteLength_take_lt.1 hlt)

/-- The code `n` comes next, and after it `m`. -/
def Coded (c : Cursor) (n : Nat) (m : Cursor) : Prop :=
  ∃ digits, digits.length = 4 ∧ hexNumber? digits = some n ∧ c.Passes digits m

theorem on_hexCode_of_coded {c m : Cursor} {n : Nat} (h : Coded c n m) :
    hexCode.on c = (.ok n, m) := by
  obtain ⟨digits, hlength, hcode, hpass⟩ := h
  match digits, hlength with
  | [a, b, c', d], _ =>
      obtain ⟨rest, offset⟩ := c
      obtain ⟨rest', offset'⟩ := m
      obtain rfl : rest = [a, b, c', d] ++ rest' := hpass.rest_eq
      obtain rfl : offset' = offset + 4 := hexNumber?_byteLength hcode ▸ hpass.offset_eq
      change (match hexNumber? [a, b, c', d] with
        | none => (Except.error _, _)
        | some n => (Except.ok n, _)) = _
      rw [hcode]
      rfl

theorem on_hexCode_of_not {c : Cursor} (h : ∀ n m, ¬ Coded c n m) :
    hexCode.on c = (.error (hexFault c.offset c.rest), c) := by
  obtain ⟨rest, offset⟩ := c
  match rest with
  | [] => rfl
  | [_] => rfl
  | [_, _] => rfl
  | [_, _, _] => rfl
  | a :: b :: c :: d :: rest =>
      have hnone : hexNumber? [a, b, c, d] = none := by
        cases hcode : hexNumber? [a, b, c, d] with
        | none => rfl
        | some n =>
            have hpass : Cursor.Passes ⟨[a, b, c, d] ++ rest, offset⟩ [a, b, c, d] ⟨rest, _⟩ :=
              ⟨rfl, rfl⟩
            exact absurd ⟨_, rfl, hcode, hpass⟩ (h n _)
      change (match hexNumber? [a, b, c, d] with
        | none => (Except.error _, _)
        | some n => (Except.ok n, _)) = _
      rw [hnone]

/-- A code within the common text stands in both texts. -/
theorem Coded.shares {e n : Nat} {c c' m : Cursor} (h : Coded c n m) (hs : Shares e c c')
    (hle : c.offset + 4 ≤ e) : ∃ m', Coded c' n m' ∧ Shares e m m' := by
  obtain ⟨digits, hlength, hcode, hpass⟩ := h
  have hbytes : byteLength digits = 4 := by
    rw [Text.byteLength_eq_length (Text.hexNumber?_utf8Size hcode), hlength]
  have hagree := hs.agree
  rw [hpass.rest_eq] at hagree
  obtain ⟨rest', hrest', htail⟩ := hagree.of_append (by omega)
  obtain ⟨m', hpass', rfl⟩ := Cursor.exists_passes hrest'
  refine ⟨m', ⟨digits, hlength, hcode, hpass'⟩, ?_, ?_⟩
  · rw [hpass.offset_eq, hpass'.offset_eq, hs.offset_eq]
  · rwa [hpass.offset_eq, Nat.sub_add_eq]

/-- A code takes four bytes. -/
theorem Coded.offset_eq {c m : Cursor} {n : Nat} (h : Coded c n m) : m.offset = c.offset + 4 := by
  obtain ⟨digits, hlength, hcode, hpass⟩ := h
  rw [hpass.offset_eq, Text.byteLength_eq_length (Text.hexNumber?_utf8Size hcode), hlength]

theorem forward_hexCode : Forward hexCode := by
  intro c
  by_cases h : ∃ n m, Coded c n m
  · obtain ⟨n, m, hcoded⟩ := h
    rw [on_hexCode_of_coded hcoded]
    obtain ⟨digits, -, -, hpass⟩ := hcoded
    exact .of_passes hpass
  · simp only [not_exists] at h
    rw [on_hexCode_of_not h]
    rcases Nat.lt_or_ge (byteLength c.rest) 4 with hshort | hlong
    · rw [hexFault_of_lt hshort]
      exact ⟨⟨[], Cursor.passes_nil.2 rfl⟩, Nat.le_add_right _ _, Nat.le_refl _⟩
    · rw [hexFault_of_le hlong]
      exact ⟨⟨[], Cursor.passes_nil.2 rfl⟩, Nat.le_add_right _ _, Nat.add_le_add_left hlong _⟩

/-- A code is told by its own four bytes. One that is cut is told by the end of the text, which the
other text may not have; but then the fault lies at that end. -/
theorem steady_hexCode : Steady hexCode := fun _ _ => {
  forward := forward_hexCode
  forward' := forward_hexCode
  mirrors := by
    intro e c c' hs _ _ he
    by_cases h : ∃ n m, Coded c n m
    · obtain ⟨n, m, hcoded⟩ := h
      rw [on_hexCode_of_coded hcoded] at he ⊢
      have hle : c.offset + 4 ≤ e := hcoded.offset_eq ▸ Nat.le_of_lt he
      obtain ⟨m', hcoded', hm⟩ := hcoded.shares hs hle
      rw [on_hexCode_of_coded hcoded']
      exact .ok hm
    · simp only [not_exists] at h
      rw [on_hexCode_of_not h] at he ⊢
      rcases Nat.lt_or_ge (byteLength c.rest) 4 with hshort | hlong
      · -- the text does not go on for as long as the two agree
        rw [hexFault_of_lt hshort] at he
        have hlt : c.offset + byteLength c.rest < e := he
        have hleft := hs.agree.le_left
        omega
      · rw [hexFault_of_le hlong] at he ⊢
        have hlt : c.offset + 4 < e := he
        have hright := hs.agree.le_right
        have hnot : ∀ n m, ¬ Coded c' n m := by
          intro n m hcoded
          have hle : c'.offset + 4 ≤ e := hs.offset_eq ▸ Nat.le_of_lt hlt
          obtain ⟨m', hcoded', -⟩ := hcoded.shares hs.symm hle
          exact h n m' hcoded'
        rw [on_hexCode_of_not hnot, hexFault_of_le (by omega), hs.offset_eq]
        exact .located }

theorem on_character_nil {c : Cursor} (hc : c.rest = []) :
    character.on c = (.error ⟨.endOfInput .string, some c.offset⟩, c) := by
  change (match c.rest with
    | [] => (Except.error _, _)
    | x :: _ => (Except.ok x, c.next)) = _
  rw [hc]

theorem on_character_cons {c : Cursor} {x : Char} {rest : List Char} (hc : c.rest = x :: rest) :
    character.on c = (.ok x, c.next) := by
  change (match c.rest with
    | [] => (Except.error _, _)
    | x :: _ => (Except.ok x, c.next)) = _
  rw [hc]

theorem forward_character : Forward character := by
  intro c
  cases hc : c.rest with
  | nil =>
      rw [on_character_nil hc]
      exact ⟨⟨[], Cursor.passes_nil.2 rfl⟩, Nat.le_refl _, Nat.le_add_right _ _⟩
  | cons x rest =>
      rw [on_character_cons hc]
      exact .of_passes c.passes_next.choose_spec

/-- A character is known once all its bytes are. -/
theorem steady_character : Steady character := fun _ _ => {
  forward := forward_character
  forward' := forward_character
  mirrors := by
    intro e c c' hs _ _ he
    have hlt := Nat.lt_of_le_of_lt (forward_character c).le_reach he
    obtain ⟨x, rest, hc⟩ := hs.exists_cons hlt
    rw [on_character_cons hc] at he ⊢
    have hle : c.next.offset ≤ e := Nat.le_of_lt he
    have hhead : c'.rest.head? = some x := by
      rw [hs.head?_eq hlt hle, hc, List.head?_cons]
    obtain ⟨rest', hc'⟩ := List.head?_eq_some_iff.1 hhead
    rw [on_character_cons hc']
    exact .ok (hs.next hlt hle) }

theorem consumes_character : Consumes character := by
  intro c x m h hne
  obtain ⟨y, rest, hc⟩ := List.exists_cons_of_ne_nil hne
  rw [Reads, on_character_cons hc] at h
  obtain rfl : c.next = m := congrArg Prod.snd h
  exact Cursor.length_next_lt hne

theorem shortEscape?_of_high {x : Char} (hx : 0x80 ≤ x.toNat) : shortEscape? x = none := by
  simp [shortEscape?, ne_of_high hx]

/-- The second half of a pair is a backslash, its letter and a code. -/
theorem steady_lowHalf (high : Nat) : Steady (lowHalf high) := by
  refine .peek_bind ⟨failAhead .unfinishedSurrogatePair, fun x hx => ?_⟩ fun next => ?_
  · simp [ne_of_high hx]
  · split
    · exact steady_failAhead _
    · refine steady_advance.bind fun _ => ?_
      refine .peek_bind ⟨failAhead .unfinishedSurrogatePair, fun x hx => ?_⟩ fun next => ?_
      · simp [ne_of_high hx]
      · split
        · exact steady_failAhead _
        · refine steady_advance.bind fun _ => steady_hexCode.bind fun low => ?_
          split
          · exact steady_pure _
          · exact steady_failHere _
        · exact steady_failAhead _
    · exact steady_failAhead _

/-- A code may be the first half of a pair, which looks on. -/
theorem steady_codePoint (code : Nat) : Steady (codePoint code) := by
  rw [codePoint]
  split
  · exact steady_failHere _
  · split
    · exact steady_lowHalf code
    · exact steady_pure _

section Letters

variable {code : Nat → Reader β} {plain : Char → β} {control : Reader α} {finish : List β → α}
  (hcode : ∀ n, Steady (code n)) (hcontrol : Steady control)

include hcode

/-- An escape is told by its letter, and a code by its digits. -/
theorem steady_escape : Steady (escape code plain) := by
  refine .peek_bind ⟨failAhead .invalidEscape, fun x hx => ?_⟩ fun next => ?_
  · simp [ne_of_high hx, shortEscape?_of_high hx]
  · split
    · exact steady_failAhead _
    · exact steady_advance.bind fun _ => steady_hexCode.bind fun n => hcode n
    · split
      · exact steady_advance.bind fun _ => steady_pure _
      · exact steady_failAhead _

include hcontrol

/-- The letters of a string end at a quote, an escape or a control character, all of them ASCII. The
induction is on the bound, of which every letter takes at least one. -/
theorem local_letters (n n' : Nat) (seen : List β) :
    Local n n' (letters code plain control finish n seen)
      (letters code plain control finish n' seen) := by
  refine local_of_step (fun _ => rfl) (fun n n' ih seen => ?_) n n' seen
  refine .peek_bind ⟨character >>= fun c =>
    letters code plain control finish n' (plain c :: seen), fun x hx => ?_⟩ fun next => ?_
  · have hx' : ¬ x.toNat < 0x20 := by omega
    simp [ne_of_high hx, hx']
  · split
    · exact steady_failAhead _ _ _
    · exact (steady_advance.bind fun _ => steady_pure _) _ _
    · refine (steady_advance _ _).bind_consumes consumes_advance consumes_advance fun _ => ?_
      exact (steady_escape hcode _ _).bind fun letter => ih _
    · split
      · exact hcontrol _ _
      · exact (steady_character _ _).bind_consumes consumes_character consumes_character
          fun c => ih _

end Letters

/-! ## Scans -/

section Scans

variable (code : Nat → Reader β) (plain : Char → β) (control : Reader α) (finish : List β → α)

/-- The scan goes as the letters go, one after the other. -/
structure Scans (scan : List β → Nat → List Char → Except Fault α × Cursor) : Prop where
  nil : ∀ seen offset,
    scan seen offset [] = (.error ⟨.endOfInput .string, some offset⟩, ⟨[], offset⟩)
  quote : ∀ seen offset rest,
    scan seen offset ('"' :: rest) = (.ok (finish seen), ⟨rest, offset + 1⟩)
  escaped : ∀ seen offset rest, scan seen offset ('\\' :: rest) =
    goOn scan seen ((escape code plain).on ⟨rest, offset + 1⟩)
  controlled : ∀ seen offset {x : Char} rest, x ≠ '"' → x ≠ '\\' → x.toNat < 0x20 →
    scan seen offset (x :: rest) = control.on ⟨x :: rest, offset⟩
  character : ∀ seen offset {x : Char} rest, x ≠ '"' → x ≠ '\\' → ¬ x.toNat < 0x20 →
    scan seen offset (x :: rest) = scan (plain x :: seen) (offset + x.utf8Size) rest

variable {code plain control finish}

/-- Reading letter by letter is the scan, as long as the bound is not used up. -/
theorem Scans.on_letters {scan : List β → Nat → List Char → Except Fault α × Cursor}
    (hscan : Scans code plain control finish scan) (hcode : ∀ n, Steady (code n))
    {n : Nat} {c : Cursor} (hc : c.rest.length ≤ n) (seen : List β) :
    (letters code plain control finish n seen).on c = scan seen c.offset c.rest := by
  induction n generalizing c seen with
  | zero =>
      obtain ⟨rest, offset⟩ := c
      obtain rfl : rest = [] := List.length_eq_zero_iff.1 (Nat.le_zero.1 hc)
      exact (hscan.nil seen offset).symm
  | succ n ih =>
      obtain ⟨rest, offset⟩ := c
      rcases rest with _ | ⟨x, rest⟩
      · exact (hscan.nil seen offset).symm
      have hrest : rest.length ≤ n := Nat.le_of_succ_le_succ hc
      rw [letters, on_peek_bind, List.head?_cons]
      split
      · contradiction
      · rename_i heq
        obtain rfl := Option.some.inj heq
        exact (hscan.quote seen offset rest).symm
      · rename_i heq
        obtain rfl := Option.some.inj heq
        have hnext : Cursor.next ⟨'\\' :: rest, offset⟩ = ⟨rest, offset + 1⟩ := rfl
        rw [on_advance_bind, on_bind, hscan.escaped, hnext]
        rcases hrun : (escape code plain).on ⟨rest, offset + 1⟩ with ⟨fault | letter, m⟩
        · rfl
        · have hm := (steady_escape hcode).forward.length_le hrun
          exact ih (Nat.le_trans hm hrest) (letter :: seen)
      · rename_i y hquote hbackslash heq
        obtain rfl := Option.some.inj heq
        split
        · rename_i hx
          exact (hscan.controlled seen offset rest hquote hbackslash hx).symm
        · rename_i hx
          rw [hscan.character seen offset rest hquote hbackslash hx]
          exact ih hrest (plain x :: seen)

end Scans

theorem scans_scanString : Scans codePoint id (advance >>= fun _ => failHere .controlCharacter)
    (fun seen => String.ofList seen.reverse) scanString where
  nil _ _ := rfl
  quote _ _ _ := rfl
  escaped := scanString_escape
  controlled := by
    intro seen offset x rest hquote hbackslash hx
    have hsize : x.utf8Size = 1 := Text.utf8Size_of_ascii (by omega)
    rw [scanString, if_pos hx, on_advance_bind]
    · simp only [Cursor.next, hsize]
      rfl
    · exact hquote
    · exact hbackslash
  character := by
    intro seen offset x rest hquote hbackslash hx
    rw [scanString, if_neg hx]
    · rfl
    · exact hquote
    · exact hbackslash

theorem scans_scanSkipped : Scans (fun _ => pure ()) (fun _ => ()) (failHere .controlCharacter)
    (fun _ => ()) fun _ => scanSkipped where
  nil _ _ := rfl
  quote _ _ _ := rfl
  escaped := scanSkipped_escape
  controlled := by
    intro seen offset x rest hquote hbackslash hx
    rw [scanSkipped, if_pos hx]
    · rfl
    · exact hquote
    · exact hbackslash
  character := by
    intro seen offset x rest hquote hbackslash hx
    rw [scanSkipped, if_neg hx]
    · exact hquote
    · exact hbackslash

/-- A scan looks no further than its letters do. -/
theorem Scans.steady {code : Nat → Reader β} {plain : Char → β} {control : Reader α}
    {finish : List β → α} {scan : List β → Nat → List Char → Except Fault α × Cursor}
    (hscan : Scans code plain control finish scan) (hcode : ∀ n, Steady (code n))
    (hcontrol : Steady control) :
    Steady (ofStep fun cursor => scan [] cursor.offset cursor.rest) := by
  have heq : (ofStep fun cursor => scan [] cursor.offset cursor.rest) =
      remaining >>= fun n => letters code plain control finish n [] := by
    funext c
    have hrun := on_remaining_bind (fun n => letters code plain control finish n []) c
    rw [hscan.on_letters hcode (Nat.le_refl _)] at hrun
    exact hrun.symm
  rw [heq]
  exact steady_of_within fun n n' => local_letters hcode hcontrol n n' []

theorem steady_scanString :
    Steady (ofStep fun cursor => scanString [] cursor.offset cursor.rest) :=
  scans_scanString.steady steady_codePoint (steady_advance.bind fun _ => steady_failHere _)

theorem steady_string : Steady string := steady_advance.bind fun _ => steady_scanString

theorem consumes_string : Consumes string :=
  consumes_advance.bind fun _ => steady_scanString.forward

theorem steady_skipString : Steady skipString :=
  steady_advance.bind fun _ =>
    scans_scanSkipped.steady (fun _ => steady_pure ()) (steady_failHere _)

end Json

end SyntaxTree
