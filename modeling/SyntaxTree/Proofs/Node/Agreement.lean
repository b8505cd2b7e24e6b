import Mathlib.Data.List.Forall2
import SyntaxTree.Proofs.Node.Floats

/-! # Agreement of trees

Two trees agree when they are the same node by node, with float leaves that are related. -/

namespace SyntaxTree

mutual

/-- The same kinds, operators, names, strings, integers and children in order, with related float
leaves. -/
inductive Expr.Agree (R : Binary64 → Binary64 → Prop) : Expr → Expr → Prop
  | int (value : UInt64) : Expr.Agree R (.int value) (.int value)
  | float {value value' : Binary64} : R value value' → Expr.Agree R (.float value) (.float value')
  | str (value : String) : Expr.Agree R (.str value) (.str value)
  | name (name : String) : Expr.Agree R (.name name) (.name name)
  | cast {ty ty' : TypeSpec} {expr expr' : Expr} :
      TypeSpec.Agree R ty ty' → Expr.Agree R expr expr' →
      Expr.Agree R (.cast ty expr) (.cast ty' expr')
  | call {callee callee' : Expr} {args args' : List Expr} :
      Expr.Agree R callee callee' → List.Forall₂ (Expr.Agree R) args args' →
      Expr.Agree R (.call callee args) (.call callee' args')
  | index {expr expr' index index' : Expr} :
      Expr.Agree R expr expr' → Expr.Agree R index index' →
      Expr.Agree R (.index expr index) (.index expr' index')
  | field {expr expr' : Expr} (name : String) :
      Expr.Agree R expr expr' → Expr.Agree R (.field expr name) (.field expr' name)
  | unary {expr expr' : Expr} (op : UnaryOp) :
      Expr.Agree R expr expr' → Expr.Agree R (.unary op expr) (.unary op expr')
  | binary {left left' right right' : Expr} (op : BinaryOp) :
      Expr.Agree R left left' → Expr.Agree R right right' →
      Expr.Agree R (.binary op left right) (.binary op left' right')
  | ternary {cond cond' thenExpr thenExpr' elseExpr elseExpr' : Expr} :
      Expr.Agree R cond cond' → Expr.Agree R thenExpr thenExpr' →
      Expr.Agree R elseExpr elseExpr' →
      Expr.Agree R (.ternary cond thenExpr elseExpr) (.ternary cond' thenExpr' elseExpr')
  | compound : Expr.Agree R .compound .compound

/-- The same kinds, names and parts in order, with related float leaves in the sizes. -/
inductive TypeSpec.Agree (R : Binary64 → Binary64 → Prop) : TypeSpec → TypeSpec → Prop
  | name (name : String) : TypeSpec.Agree R (.name name) (.name name)
  | pointer {elem elem' : TypeSpec} :
      TypeSpec.Agree R elem elem' → TypeSpec.Agree R (.pointer elem) (.pointer elem')
  | array {elem elem' : TypeSpec} {size size' : Expr} :
      TypeSpec.Agree R elem elem' → Expr.Agree R size size' →
      TypeSpec.Agree R (.array elem size) (.array elem' size')
  | function {args args' : List TypeSpec} {ret ret' : TypeSpec} :
      List.Forall₂ (TypeSpec.Agree R) args args' → TypeSpec.Agree R ret ret' →
      TypeSpec.Agree R (.function args ret) (.function args' ret')

end

theorem forall₂_of_map_eq {α β : Type} {f : α → β} {R : α → α → Prop} {as bs : List α}
    (h : ∀ a ∈ as, ∀ b ∈ bs, f a = f b → R a b) (heq : as.map f = bs.map f) :
    List.Forall₂ R as bs := by
  induction as generalizing bs with
  | nil =>
      rw [List.map_nil, eq_comm, List.map_eq_nil_iff] at heq
      subst heq
      exact .nil
  | cons a as ih =>
      cases bs with
      | nil => cases heq
      | cons b bs =>
          obtain ⟨hfirst, hrest⟩ := List.cons.inj heq
          refine .cons (h a List.mem_cons_self b List.mem_cons_self hfirst) (ih ?_ hrest)
          exact fun a' ha b' hb => h a' (List.mem_cons_of_mem _ ha) b' (List.mem_cons_of_mem _ hb)

theorem map_eq_of_forall₂ {α β : Type} {f : α → β} {R : α → α → Prop} {as bs : List α}
    (h : ∀ a ∈ as, ∀ b, R a b → f a = f b) (hR : List.Forall₂ R as bs) : as.map f = bs.map f := by
  induction hR with
  | nil => rfl
  | cons hfirst _ ih =>
      obtain ⟨ha, hrest⟩ := List.forall_mem_cons.1 h
      rw [List.map_cons, List.map_cons, ha _ hfirst, ih hrest]

/-- Trees that agree are the same after a change of the leaves that does not tell related leaves
apart. -/
theorem Node.mapFloats_eq_of_agree {R : Binary64 → Binary64 → Prop} {f : Binary64 → Binary64}
    (hR : ∀ x y, R x y → f x = f y) :
    (∀ e e' : Expr, e.Agree R e' → e.mapFloats f = e'.mapFloats f) ∧
      ∀ t t' : TypeSpec, t.Agree R t' → t.mapFloats f = t'.mapFloats f := by
  refine Node.induction ?int ?float ?str ?name ?cast ?call ?index ?field ?unary ?binary ?ternary
    ?compound ?typeName ?pointer ?array ?function
  case call =>
    intro callee args hcallee hargs e' h
    cases h with
    | call h₁ h₂ =>
        rw [Expr.mapFloats, Expr.mapFloats, Expr.mapFloatsOfList_eq_map,
          Expr.mapFloatsOfList_eq_map, hcallee _ h₁, map_eq_of_forall₂ hargs h₂]
  case function =>
    intro args ret hargs hret t' h
    cases h with
    | function h₁ h₂ =>
        rw [TypeSpec.mapFloats, TypeSpec.mapFloats, TypeSpec.mapFloatsOfList_eq_map,
          TypeSpec.mapFloatsOfList_eq_map, map_eq_of_forall₂ hargs h₁, hret _ h₂]
  all_goals
    intros
    rename_i h
    cases h
    grind [Expr.mapFloats, TypeSpec.mapFloats]

end SyntaxTree
