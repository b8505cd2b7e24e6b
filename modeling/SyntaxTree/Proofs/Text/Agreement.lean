import SyntaxTree.Proofs.Text.Utf8

/-! # Texts that agree at first

Two texts whose first bytes are the same have the same first characters. The character in which the
agreement ends need not be the same, but it is ASCII in both texts or in neither. -/

namespace SyntaxTree

namespace Text

/-- The first byte of the two characters is the same, as far as readers of ASCII signs can tell. -/
inductive Alike : Char → Char → Prop
  | same (x : Char) : Alike x x
  | high {x y : Char} : 0x80 ≤ x.toNat → 0x80 ≤ y.toNat → Alike x y

/-- The first `n` bytes of the two texts are there and the same. -/
structure Agree (n : Nat) (a b : List Char) : Prop where
  take_eq : (encode a).take n = (encode b).take n
  le_left : n ≤ byteLength a
  le_right : n ≤ byteLength b

namespace Agree

variable {n : Nat} {a b : List Char}

theorem symm (h : Agree n a b) : Agree n b a := ⟨h.take_eq.symm, h.le_right, h.le_left⟩

/-- Texts that agree on at least one byte are not empty. -/
theorem exists_cons (h : Agree n a b) (hn : 0 < n) : ∃ x rest, a = x :: rest := by
  cases a with
  | nil => exact absurd h.le_left (Nat.not_le_of_lt hn)
  | cons x rest => exact ⟨x, rest, rfl⟩

/-- The first characters are alike, and they are the same where the agreement goes past them. -/
theorem of_cons {x y : Char} {xs ys : List Char} (h : Agree n (x :: xs) (y :: ys)) (hn : 0 < n) :
    Alike x y ∧ (x.utf8Size ≤ n → x = y ∧ Agree (n - x.utf8Size) xs ys) := by
  obtain ⟨lead, rest, hx, hsize, hlead, -⟩ := utf8EncodeChar_lead x
  obtain ⟨lead', rest', hy, hsize', hlead', -⟩ := utf8EncodeChar_lead y
  obtain ⟨k, rfl⟩ : ∃ k, n = k + 1 := Nat.exists_eq_add_one.2 hn
  have htake := h.take_eq
  rw [encode_cons, encode_cons] at htake
  obtain rfl : lead = lead' := by
    rw [hx, hy, List.cons_append, List.cons_append, List.take_succ_cons, List.take_succ_cons]
      at htake
    exact (List.cons.inj htake).1
  constructor
  · rcases hlead with ⟨hlow, heq⟩ | ⟨hhigh, hbyte⟩
    · rcases hlead' with ⟨-, heq'⟩ | ⟨-, hbyte'⟩
      · obtain rfl : x = y := Char.toNat_inj.1 (heq.symm.trans heq')
        exact .same x
      · omega
    · rcases hlead' with ⟨hlow, heq'⟩ | ⟨hhigh', -⟩
      · omega
      · exact .high hhigh hhigh'
  · intro hle
    have hx' : (String.utf8EncodeChar x).length = x.utf8Size := String.length_utf8EncodeChar x
    have hy' : (String.utf8EncodeChar y).length = x.utf8Size := by
      rw [String.length_utf8EncodeChar, hsize, hsize']
    have hxt : (String.utf8EncodeChar x).take (k + 1) = String.utf8EncodeChar x :=
      List.take_of_length_le (by omega)
    have hyt : (String.utf8EncodeChar y).take (k + 1) = String.utf8EncodeChar y :=
      List.take_of_length_le (by omega)
    rw [List.take_append, List.take_append, hx', hy', hxt, hyt] at htake
    obtain ⟨hchar, hrest⟩ := List.append_inj htake (hx'.trans hy'.symm)
    obtain rfl := utf8EncodeChar_injective hchar
    have hleft := h.le_left
    have hright := h.le_right
    rw [byteLength_cons] at hleft hright
    exact ⟨rfl, hrest, by omega, by omega⟩

/-- A front that lies within the agreed bytes is the front of the other text too. -/
theorem of_append {front rest : List Char} (h : Agree n (front ++ rest) b)
    (hn : byteLength front ≤ n) :
    ∃ rest', b = front ++ rest' ∧ Agree (n - byteLength front) rest rest' := by
  induction front generalizing n b with
  | nil => exact ⟨b, rfl, h⟩
  | cons x front ih =>
      rw [byteLength_cons] at hn ⊢
      have hsize := x.utf8Size_pos
      have hpos : 0 < n := by omega
      obtain ⟨y, ys, rfl⟩ := h.symm.exists_cons hpos
      obtain ⟨rfl, hrest⟩ := (h.of_cons hpos).2 (by omega)
      obtain ⟨rest', rfl, hagree⟩ := ih hrest (by omega)
      rw [Nat.sub_add_eq]
      exact ⟨rest', rfl, hagree⟩

/-- A test that no character outside ASCII passes finds the same front, if it ends within the
agreement. -/
theorem of_takeWhile {test : Char → Bool} (htest : ∀ x, test x = true → x.toNat < 0x80)
    (h : Agree n a b) (hn : byteLength (a.takeWhile test) < n) :
    a.takeWhile test = b.takeWhile test ∧
      Agree (n - byteLength (a.takeWhile test)) (a.dropWhile test) (b.dropWhile test) := by
  induction a generalizing n b with
  | nil => exact absurd h.le_left (Nat.not_le_of_lt hn)
  | cons x xs ih =>
      have hpos : 0 < n := by omega
      obtain ⟨y, ys, rfl⟩ := h.symm.exists_cons hpos
      obtain ⟨halike, hsame⟩ := h.of_cons hpos
      cases hx : test x with
      | true =>
          rw [List.takeWhile_cons_of_pos hx, byteLength_cons] at hn ⊢
          obtain ⟨rfl, hrest⟩ := hsame (by omega)
          obtain ⟨htake, hdrop⟩ := ih hrest (by omega)
          rw [List.takeWhile_cons_of_pos hx, List.dropWhile_cons_of_pos hx,
            List.dropWhile_cons_of_pos hx, ← htake, Nat.sub_add_eq]
          exact ⟨rfl, hdrop⟩
      | false =>
          have hy : test y = false := by
            cases halike with
            | same => exact hx
            | high _ hhigh =>
                refine Bool.eq_false_iff.2 fun hy => ?_
                have := htest y hy
                omega
          rw [List.takeWhile_cons_of_neg (by simp [hx]), List.takeWhile_cons_of_neg (by simp [hy]),
            List.dropWhile_cons_of_neg (by simp [hx]), List.dropWhile_cons_of_neg (by simp [hy])]
          exact ⟨rfl, h⟩

end Agree

namespace Cursor

/-- Two places with the same offset before texts that agree up to the byte `e`. -/
structure Shares (e : Nat) (c c' : Cursor) : Prop where
  offset_eq : c'.offset = c.offset
  agree : Agree (e - c.offset) c.rest c'.rest

namespace Shares

variable {e : Nat} {c c' : Cursor}

theorem symm (h : Shares e c c') : Shares e c' c :=
  ⟨h.offset_eq.symm, h.offset_eq ▸ h.agree.symm⟩

/-- There is a character at a place before the end of the agreement. -/
theorem exists_cons (h : Shares e c c') (hlt : c.offset < e) : ∃ x rest, c.rest = x :: rest :=
  h.agree.exists_cons (by omega)

/-- Before the end of the agreed bytes both texts go on, with characters that are alike. -/
theorem exists_head (h : Shares e c c') (hlt : c.offset < e) :
    ∃ x y, c.rest.head? = some x ∧ c'.rest.head? = some y ∧ Alike x y := by
  obtain ⟨x, xs, hx⟩ := h.exists_cons hlt
  obtain ⟨y, ys, hy⟩ := h.symm.exists_cons (h.offset_eq ▸ hlt)
  have hagree := h.agree
  rw [hx, hy] at hagree
  exact ⟨x, y, by rw [hx]; rfl, by rw [hy]; rfl, (hagree.of_cons (by omega)).1⟩

/-- A character that ends within the agreed bytes is the same in both. -/
theorem head?_eq (h : Shares e c c') (hlt : c.offset < e) (hle : c.next.offset ≤ e) :
    c'.rest.head? = c.rest.head? := by
  obtain ⟨x, xs, hx⟩ := h.exists_cons hlt
  obtain ⟨y, ys, hy⟩ := h.symm.exists_cons (h.offset_eq ▸ hlt)
  have hagree := h.agree
  rw [hx, hy] at hagree
  simp only [Cursor.next, hx] at hle
  obtain ⟨rfl, -⟩ := (hagree.of_cons (by omega)).2 (by omega)
  rw [hx, hy]
  rfl

/-- After such a character the places still share what is left of the agreed bytes. -/
theorem next (h : Shares e c c') (hlt : c.offset < e) (hle : c.next.offset ≤ e) :
    Shares e c.next c'.next := by
  obtain ⟨x, xs, hx⟩ := h.exists_cons hlt
  obtain ⟨y, ys, hy⟩ := h.symm.exists_cons (h.offset_eq ▸ hlt)
  have hagree := h.agree
  rw [hx, hy] at hagree
  have hsame := (hagree.of_cons (by omega)).2
  simp only [Cursor.next, hx, hy] at hle ⊢
  obtain ⟨rfl, hrest⟩ := hsame (by omega)
  exact ⟨by rw [h.offset_eq], by rwa [Nat.sub_add_eq]⟩

/-- A run of ASCII characters that ends before the agreed bytes do is the same in both. ASCII is
needed because two longer characters may begin alike. -/
theorem dropWhile {test : Char → Bool} (htest : ∀ x, test x = true → x.toNat < 0x80)
    (h : Shares e c c') (hlt : (c.dropWhile test).offset < e) :
    c.rest.takeWhile test = c'.rest.takeWhile test ∧
      Shares e (c.dropWhile test) (c'.dropWhile test) := by
  simp only [Cursor.dropWhile] at hlt ⊢
  obtain ⟨htake, hdrop⟩ := h.agree.of_takeWhile htest (by omega)
  refine ⟨htake, ?_, ?_⟩
  · rw [h.offset_eq, htake]
  · rwa [Nat.sub_add_eq]

end Shares

end Cursor

end Text

end SyntaxTree
