import SyntaxTree.Proofs.Text.Separated

/-! # Symbolic expressions

Words, quoted strings and parenthesized lists with single spaces between the items. If no word
holds a sign of this syntax and no string a quote, a text determines what it was rendered from,
also in front of any text that may follow an item. -/

namespace SyntaxTree

/-- Words, quoted strings and bracketed lists. -/
inductive SExpr where
  | atom (word : List Char)
  | str (value : List Char)
  | list (items : List SExpr)

namespace SExpr

mutual

/-- The text: words as they are, strings between quotes, lists in brackets with one space between
two items. -/
def render : SExpr → List Char
  | .atom word => word
  | .str value => '"' :: (value ++ ['"'])
  | .list items => '(' :: (renderItems items ++ [')'])

def renderItems : List SExpr → List Char
  | [] => []
  | item :: rest => item.render ++ renderRest rest

/-- The items after the first, each after a space. -/
def renderRest : List SExpr → List Char
  | [] => []
  | item :: rest => ' ' :: (item.render ++ renderRest rest)

end

/-- The items of a list have one space between two of them. -/
theorem renderItems_eq_intercalate (items : List SExpr) :
    renderItems items = [' '].intercalate (items.map render) := by
  cases items with
  | nil => rfl
  | cons first rest =>
      rw [renderItems]
      induction rest generalizing first with
      | nil => simp [renderRest]
      | cons second rest ih =>
          simp only [List.map_cons] at ih ⊢
          rw [renderRest, ih second, List.intercalate_cons_cons, List.append_assoc,
            List.singleton_append]

/-! ## Solid expressions -/

/-- A character that may stand in a word. -/
def isSolid (c : Char) : Bool := c != ' ' && c != '(' && c != ')' && c != '"'

/-- The words and strings hold no signs that would end them. -/
inductive Solid : SExpr → Prop
  | atom {word : List Char} : word ≠ [] → (∀ c ∈ word, isSolid c = true) → Solid (.atom word)
  | str {value : List Char} : '"' ∉ value → Solid (.str value)
  | list {items : List SExpr} : (∀ item ∈ items, Solid item) → Solid (.list items)

theorem Solid.atom_of_all {word : List Char} (hne : word ≠ []) (h : word.all isSolid = true) :
    (SExpr.atom word).Solid := .atom hne (List.all_eq_true.1 h)

/-- What may follow an item. -/
def Ends (text : List Char) : Prop := ∀ c ∈ text.head?, c = ' ' ∨ c = ')'

/-- An item begins with no sign that may follow an item. -/
theorem Solid.render_cons {e : SExpr} (h : e.Solid) :
    ∃ c text, e.render = c :: text ∧ c ≠ ' ' ∧ c ≠ ')' := by
  cases h with
  | @atom word hne hsolid =>
      obtain ⟨c, text, rfl⟩ := List.exists_cons_of_ne_nil hne
      have hc := hsolid c List.mem_cons_self
      simp only [isSolid, Bool.and_eq_true, bne_iff_ne] at hc
      exact ⟨c, text, rfl, hc.1.1.1, hc.1.2⟩
  | str => exact ⟨'"', _, rfl, by decide, by decide⟩
  | list => exact ⟨'(', _, rfl, by decide, by decide⟩

/-- The expression can be told from what was rendered, whatever may follow it. -/
def Decodes (e : SExpr) : Prop :=
  ∀ {e' : SExpr} {r r' : List Char}, e'.Solid → Ends r → Ends r' →
    e.render ++ r = e'.render ++ r' → e = e' ∧ r = r'

/-- Two lists with one text and whatever follows are equal, given that of the items of the first. -/
theorem renderItems_inj {items items' : List SExpr} (hi : ∀ item ∈ items, item.Solid ∧ Decodes item)
    (hi' : ∀ item ∈ items', item.Solid) {r r' : List Char}
    (h : renderItems items ++ ')' :: r = renderItems items' ++ ')' :: r') :
    items = items' ∧ r = r' := by
  have hopens (item : SExpr) (hitem : item.Solid) :
      ∃ c text, item.render = c :: text ∧ ¬ (c = ' ' ∨ c = ')') := by
    obtain ⟨c, text, hrender, hspace, hclose⟩ := hitem.render_cons
    exact ⟨c, text, hrender, not_or.2 ⟨hspace, hclose⟩⟩
  rw [renderItems_eq_intercalate, renderItems_eq_intercalate] at h
  exact Text.intercalate_inj (.inl rfl) (.inr rfl) (by decide) hopens
    (fun item hitem => ⟨(hi item hitem).1, fun _ _ _ => (hi item hitem).2⟩) hi' h

/-- What follows an item cannot be taken for a part of it. -/
theorem Ends.not_solid {text : List Char} (h : Ends text) :
    ∀ c ∈ text.head?, isSolid c = false := by
  intro c hc
  rcases h c hc with rfl | rfl <;> decide

/-- Every solid expression can be told from its text, by induction on the expression. -/
theorem Solid.decodes {e : SExpr} (h : e.Solid) : Decodes e := by
  induction h with
  | @atom word hne hsolid =>
      intro e' r r' he' hr hr' heq
      cases he' with
      | @atom word' hne' hsolid' =>
          obtain ⟨rfl, hrest⟩ :=
            Text.append_inj_of_test hsolid hsolid' hr.not_solid hr'.not_solid heq
          exact ⟨rfl, hrest⟩
      | str | list =>
          obtain ⟨c, text, rfl⟩ := List.exists_cons_of_ne_nil hne
          have hc := hsolid c List.mem_cons_self
          rw [(List.cons.inj heq).1] at hc
          exact absurd hc (by decide)
  | @str value hvalue =>
      intro e' r r' he' hr hr' heq
      cases he' with
      | @atom word' hne' hsolid' =>
          obtain ⟨c, text, rfl⟩ := List.exists_cons_of_ne_nil hne'
          have hc := hsolid' c List.mem_cons_self
          rw [← (List.cons.inj heq).1] at hc
          exact absurd hc (by decide)
      | @str value' hvalue' =>
          simp only [render, List.cons_append, List.append_assoc, List.cons.injEq,
            true_and] at heq
          have htest {value : List Char} (h : '"' ∉ value) :
              ∀ c ∈ value, (c != '"') = true := by
            intro c hc
            rw [bne_iff_ne]
            rintro rfl
            exact h hc
          have hquote {r : List Char} : ∀ c ∈ (['"'] ++ r).head?, (c != '"') = false := by
            simp
          obtain ⟨rfl, hrest⟩ :=
            Text.append_inj_of_test (htest hvalue) (htest hvalue') hquote hquote heq
          exact ⟨rfl, (List.cons.inj hrest).2⟩
      | list => exact absurd (List.cons.inj heq).1 (by decide)
  | @list items hitems ih =>
      intro e' r r' he' hr hr' heq
      cases he' with
      | @atom word' hne' hsolid' =>
          obtain ⟨c, text, rfl⟩ := List.exists_cons_of_ne_nil hne'
          have hc := hsolid' c List.mem_cons_self
          rw [← (List.cons.inj heq).1] at hc
          exact absurd hc (by decide)
      | str => exact absurd (List.cons.inj heq).1 (by decide)
      | @list items' hitems' =>
          simp only [render, List.cons_append, List.append_assoc, List.cons.injEq,
            true_and] at heq
          obtain ⟨rfl, hrest⟩ :=
            renderItems_inj (fun e he => ⟨hitems e he, ih e he⟩) hitems' heq
          exact ⟨rfl, hrest⟩

/-- Solid expressions with the same text are the same. -/
theorem render_injective {e e' : SExpr} (h : e.Solid) (h' : e'.Solid)
    (heq : e.render = e'.render) : e = e' := by
  have hnil : Ends [] := fun c hc => absurd hc (by simp)
  exact (h.decodes h' hnil hnil (by rw [heq])).1

end SExpr

end SyntaxTree
