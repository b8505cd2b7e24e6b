import Mathlib.Data.List.Basic

/-! # Separated items

A text ends itself when no text of its kind begins with it and goes on: it is told from the others
whatever may follow it. A bracket of such texts with a separator between any two then tells all its
items. -/

namespace SyntaxTree

namespace Text

/-- A run of characters that pass a test ends where the first one fails it. -/
theorem append_inj_of_test {test : Char → Bool} {a b r s : List Char}
    (ha : ∀ c ∈ a, test c = true) (hb : ∀ c ∈ b, test c = true)
    (hr : ∀ c ∈ r.head?, test c = false) (hs : ∀ c ∈ s.head?, test c = false)
    (h : a ++ r = b ++ s) : a = b ∧ r = s := by
  induction a generalizing b with
  | nil =>
      cases b with
      | nil => exact ⟨rfl, h⟩
      | cons c b =>
          have htrue := hb c List.mem_cons_self
          rw [hr c (by rw [List.nil_append] at h; simp [h])] at htrue
          exact absurd htrue (by simp)
  | cons c a ih =>
      cases b with
      | nil =>
          have htrue := ha c List.mem_cons_self
          rw [hs c (by rw [List.nil_append] at h; simp [← h])] at htrue
          exact absurd htrue (by simp)
      | cons d b =>
          obtain ⟨rfl, htail⟩ := List.cons.inj h
          obtain ⟨rfl, hrest⟩ :=
            ih (List.forall_mem_cons.1 ha).2 (List.forall_mem_cons.1 hb).2 htail
          exact ⟨rfl, hrest⟩

/-- The text is over or goes on with a sign that ends an item. -/
def Follows (ends : Char → Prop) (text : List Char) : Prop := ∀ c ∈ text.head?, ends c

theorem follows_cons {ends : Char → Prop} {c : Char} {text : List Char} (h : ends c) :
    Follows ends (c :: text) := by
  intro d hd
  obtain rfl : c = d := by simpa using hd
  exact h

section Items

variable {α : Type} {ends : Char → Prop} {write : α → List Char} {P : α → Prop}
  {separator close : Char}

/-- The text of the item is told from the text of every item with the property. -/
def EndsItself (ends : Char → Prop) (write : α → List Char) (P : α → Prop) (a : α) : Prop :=
  ∀ ⦃a' : α⦄ ⦃rest rest' : List Char⦄, P a' → Follows ends rest → Follows ends rest' →
    write a ++ rest = write a' ++ rest' → a = a' ∧ rest = rest'

theorem follows_separated (hseparator : ends separator) (hclose : ends close) (items : List α)
    (rest : List Char) :
    Follows ends (items.flatMap (fun a => separator :: write a) ++ close :: rest) := by
  cases items with
  | nil => exact follows_cons hclose
  | cons item items => exact follows_cons hseparator

/-- Items that each stand after a separator, by induction on them: a separator tells that there is
one more. -/
theorem flatMap_separator_inj (hseparator : ends separator) (hclose : ends close)
    (hne : separator ≠ close) {items items' : List α} {rest rest' : List Char}
    (h : ∀ a ∈ items, EndsItself ends write P a) (h' : ∀ a ∈ items', P a)
    (heq : items.flatMap (fun a => separator :: write a) ++ close :: rest =
      items'.flatMap (fun a => separator :: write a) ++ close :: rest') :
    items = items' ∧ rest = rest' := by
  induction items generalizing items' with
  | nil =>
      cases items' with
      | nil => exact ⟨rfl, (List.cons.inj heq).2⟩
      | cons item' items' => exact absurd (List.cons.inj heq).1.symm hne
  | cons item items ih =>
      cases items' with
      | nil => exact absurd (List.cons.inj heq).1 hne
      | cons item' items' =>
          obtain ⟨hitem, hitems⟩ := List.forall_mem_cons.1 h
          obtain ⟨hitem', hitems'⟩ := List.forall_mem_cons.1 h'
          simp only [List.flatMap_cons, List.cons_append, List.append_assoc, List.cons.injEq,
            true_and] at heq
          obtain ⟨rfl, htail⟩ := hitem hitem' (follows_separated hseparator hclose items rest)
            (follows_separated hseparator hclose items' rest') heq
          obtain ⟨rfl, hrest⟩ := ih hitems hitems' htail
          exact ⟨rfl, hrest⟩

/-- With a separator in front of the first item, all items are alike. -/
theorem separator_intercalate {items : List α} (h : items ≠ []) :
    separator :: [separator].intercalate (items.map write) =
      items.flatMap fun a => separator :: write a := by
  cases items with
  | nil => exact absurd rfl h
  | cons first rest =>
      rw [List.flatMap_cons, List.cons_append]
      congr 1
      induction rest generalizing first with
      | nil => simp
      | cons second rest ih =>
          rw [List.map_cons, List.map_cons, List.intercalate_cons_cons, ← List.map_cons,
            ih second (List.cons_ne_nil second rest)]
          simp

/-- A bracket tells its items, if no text of an item begins with a sign that ends one. -/
theorem intercalate_inj (hseparator : ends separator) (hclose : ends close)
    (hne : separator ≠ close) (hopens : ∀ a, P a → ∃ c text, write a = c :: text ∧ ¬ ends c)
    {items items' : List α} {rest rest' : List Char}
    (h : ∀ a ∈ items, P a ∧ EndsItself ends write P a) (h' : ∀ a ∈ items', P a)
    (heq : [separator].intercalate (items.map write) ++ close :: rest =
      [separator].intercalate (items'.map write) ++ close :: rest') :
    items = items' ∧ rest = rest' := by
  -- the first character tells whether there is an item at all
  have empty {items : List α} {rest rest' : List Char} (h : ∀ a ∈ items, P a)
      (heq : close :: rest = [separator].intercalate (items.map write) ++ close :: rest') :
      items = [] := by
    by_contra hitems
    have htexts : separator :: [separator].intercalate (items.map write) = _ :=
      separator_intercalate hitems
    obtain ⟨item, items, rfl⟩ := List.exists_cons_of_ne_nil hitems
    obtain ⟨c, text, htext, hc⟩ := hopens item (h item List.mem_cons_self)
    rw [List.flatMap_cons, htext] at htexts
    rw [(List.cons.inj htexts).2] at heq
    exact hc ((List.cons.inj heq).1 ▸ hclose)
  rcases eq_or_ne items [] with rfl | hitems
  · obtain rfl := empty h' heq
    exact ⟨rfl, (List.cons.inj heq).2⟩
  · rcases eq_or_ne items' [] with rfl | hitems'
    · exact absurd (empty (fun a ha => (h a ha).1) heq.symm) hitems
    · refine flatMap_separator_inj hseparator hclose hne (fun a ha => (h a ha).2) h' ?_
      rw [← separator_intercalate hitems, ← separator_intercalate hitems', List.cons_append,
        List.cons_append, heq]

end Items

end Text

end SyntaxTree
