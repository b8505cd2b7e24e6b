import SyntaxTree.Node.Equality
import SyntaxTree.Print.Text
import SyntaxTree.Proofs.Binary64.Bits
import SyntaxTree.Proofs.Node.Floats

/-! # What equality and text say about leaves

Trees are equal exactly if they hold no not-a-number and become the same when the signs of zeros are
dropped. The text of a tree depends on its leaves only through their own texts. -/

namespace SyntaxTree

namespace Node

/-- None of the numbers is a not-a-number. -/
def Numeric (floats : List Binary64) : Prop := ∀ x ∈ floats, x.isNaN = false

theorem numeric_nil : Numeric [] := fun _ h => absurd h List.not_mem_nil

theorem numeric_append {as bs : List Binary64} :
    Numeric (as ++ bs) ↔ Numeric as ∧ Numeric bs := List.forall_mem_append

theorem eqList_iff {α : Type} {eq : α → α → Bool} {eqList : List α → List α → Bool}
    (hnil : eqList [] [] = true) (hleft : ∀ a as, eqList (a :: as) [] = false)
    (hright : ∀ b bs, eqList [] (b :: bs) = false)
    (hcons : ∀ a b as bs, eqList (a :: as) (b :: bs) = (eq a b && eqList as bs))
    {map : α → α} {floats : α → List Binary64} {as bs : List α}
    (h : ∀ a ∈ as, ∀ b, eq a b = true ↔ map a = map b ∧ Numeric (floats a) ∧ Numeric (floats b)) :
    eqList as bs = true ↔
      as.map map = bs.map map ∧ Numeric (as.flatMap floats) ∧ Numeric (bs.flatMap floats) := by
  induction as generalizing bs with
  | nil =>
      cases bs with
      | nil => simp [hnil, Numeric]
      | cons b bs => simp [hright]
  | cons a as ih =>
      cases bs with
      | nil => simp [hleft]
      | cons b bs =>
          obtain ⟨ha, hrest⟩ := List.forall_mem_cons.1 h
          simp only [hcons, Bool.and_eq_true, ha, ih hrest, List.map_cons, List.cons.injEq,
            List.flatMap_cons, numeric_append]
          grind

/-- Trees are equal if they are the same up to the signs of zeros and hold no not-a-number. -/
theorem eq_iff :
    (∀ a b : Expr, a.eq b = true ↔
      a.mapFloats Binary64.unsignedZero = b.mapFloats Binary64.unsignedZero ∧
        Numeric a.floats ∧ Numeric b.floats) ∧
    ∀ t u : TypeSpec, t.eq u = true ↔
      t.mapFloats Binary64.unsignedZero = u.mapFloats Binary64.unsignedZero ∧
        Numeric t.floats ∧ Numeric u.floats := by
  refine Node.induction ?int ?float ?str ?name ?cast ?call ?index ?field ?unary ?binary ?ternary
    ?compound ?typeName ?pointer ?array ?function
  case float =>
    intro x b
    cases b <;> simp [Expr.eq, Expr.mapFloats, Expr.floats, Numeric, Binary64.eq_iff]
  case call =>
    intro callee args hcallee hargs b
    have hlist (bs : List Expr) : Expr.eqList args bs = true ↔ _ :=
      eqList_iff (by rw [Expr.eqList]) (by simp [Expr.eqList]) (by simp [Expr.eqList])
        (by simp [Expr.eqList]) hargs
    cases b <;> grind [Expr.eq, Expr.mapFloats, Expr.floats, Expr.mapFloatsOfList_eq_map,
      Expr.floatsOfList_eq_flatMap, numeric_append]
  case function =>
    intro args ret hargs hret b
    have hlist (bs : List TypeSpec) : TypeSpec.eqList args bs = true ↔ _ :=
      eqList_iff (by rw [TypeSpec.eqList]) (by simp [TypeSpec.eqList]) (by simp [TypeSpec.eqList])
        (by simp [TypeSpec.eqList]) hargs
    cases b <;> grind [TypeSpec.eq, TypeSpec.mapFloats, TypeSpec.floats,
      TypeSpec.mapFloatsOfList_eq_map, TypeSpec.floatsOfList_eq_flatMap, numeric_append]
  -- trees of different kinds differ on both sides
  all_goals
    intros
    rename_i b
    cases b <;> grind [Expr.eq, TypeSpec.eq, Expr.mapFloats, TypeSpec.mapFloats, Expr.floats,
      TypeSpec.floats, numeric_nil, numeric_append]

/-- Equality is reflexive on exactly the trees without a not-a-number. -/
theorem eq_self_iff :
    (∀ e : Expr, e.eq e = true ↔ ∀ x ∈ e.floats, x.isNaN = false) ∧
      ∀ t : TypeSpec, t.eq t = true ↔ ∀ x ∈ t.floats, x.isNaN = false := by
  constructor
  · intro e
    rw [eq_iff.1]
    exact ⟨fun h => h.2.1, fun h => ⟨rfl, h, h⟩⟩
  · intro t
    rw [eq_iff.2]
    exact ⟨fun h => h.2.1, fun h => ⟨rfl, h, h⟩⟩

/-- The text of a tree depends on its float leaves through their texts only. -/
theorem text_mapFloats {config : PrintConfig} {f : Binary64 → Binary64}
    (hf : ∀ x, config.floatText (f x) = config.floatText x) :
    (∀ e : Expr, (e.mapFloats f).text config = e.text config) ∧
      ∀ t : TypeSpec, (t.mapFloats f).text config = t.text config := by
  refine Node.induction ?int ?float ?str ?name ?cast ?call ?index ?field ?unary ?binary ?ternary
    ?compound ?typeName ?pointer ?array ?function
  case call =>
    intro callee args hcallee hargs
    have hlist : args.map (Expr.text config ∘ Expr.mapFloats f) = args.map (Expr.text config) :=
      List.map_congr_left hargs
    simp only [Expr.mapFloats, Expr.text, Expr.mapFloatsOfList_eq_map, Expr.texts_eq_map,
      List.map_map, hcallee, hlist]
  case function =>
    intro args ret hargs hret
    have hlist : args.map (TypeSpec.text config ∘ TypeSpec.mapFloats f) =
        args.map (TypeSpec.text config) := List.map_congr_left hargs
    simp only [TypeSpec.mapFloats, TypeSpec.text, TypeSpec.mapFloatsOfList_eq_map,
      TypeSpec.texts_eq_map, List.map_map, hret, hlist]
  all_goals
    intros
    simp_all only [Expr.mapFloats, TypeSpec.mapFloats, Expr.text, TypeSpec.text]

end Node

end SyntaxTree
