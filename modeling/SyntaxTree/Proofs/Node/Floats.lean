import SyntaxTree.Node

/-! # Float leaves

The float literals of a tree in the order of its text, and a tree with its float literals changed.
Both recursions go through the two sorts of tree at once, and so does the induction that proofs
about trees follow. -/

namespace SyntaxTree

/-- Induction over both sorts of tree, with one case for each kind of node. -/
theorem Node.induction {P : Expr → Prop} {Q : TypeSpec → Prop}
    (int : ∀ value, P (.int value)) (float : ∀ value, P (.float value))
    (str : ∀ value, P (.str value)) (name : ∀ name, P (.name name))
    (cast : ∀ ty expr, Q ty → P expr → P (.cast ty expr))
    (call : ∀ callee args, P callee → (∀ arg ∈ args, P arg) → P (.call callee args))
    (index : ∀ expr index, P expr → P index → P (.index expr index))
    (field : ∀ expr name, P expr → P (.field expr name))
    (unary : ∀ op expr, P expr → P (.unary op expr))
    (binary : ∀ op left right, P left → P right → P (.binary op left right))
    (ternary : ∀ cond thenExpr elseExpr, P cond → P thenExpr → P elseExpr →
      P (.ternary cond thenExpr elseExpr))
    (compound : P .compound)
    (typeName : ∀ name, Q (.name name)) (pointer : ∀ elem, Q elem → Q (.pointer elem))
    (array : ∀ elem size, Q elem → P size → Q (.array elem size))
    (function : ∀ args ret, (∀ arg ∈ args, Q arg) → Q ret → Q (.function args ret)) :
    (∀ e, P e) ∧ ∀ t, Q t := by
  have nil {α : Type} (R : α → Prop) : ∀ a ∈ ([] : List α), R a :=
    fun a ha => absurd ha List.not_mem_nil
  have cons {α : Type} (R : α → Prop) (a : α) (rest : List α) (ha : R a) (h : ∀ b ∈ rest, R b) :
      ∀ b ∈ a :: rest, R b := List.forall_mem_cons.2 ⟨ha, h⟩
  constructor
  · intro e
    exact @Expr.rec P Q (fun es => ∀ e ∈ es, P e) (fun ts => ∀ t ∈ ts, Q t) int float str name cast
      call index field unary binary ternary compound typeName pointer array function (nil P)
      (cons P) (nil Q) (cons Q) e
  · intro t
    exact @TypeSpec.rec P Q (fun es => ∀ e ∈ es, P e) (fun ts => ∀ t ∈ ts, Q t) int float str name
      cast call index field unary binary ternary compound typeName pointer array function (nil P)
      (cons P) (nil Q) (cons Q) t

/-! ## The leaves -/

mutual

/-- The float literals from left to right. -/
def Expr.floats : Expr → List Binary64
  | .float value => [value]
  | .cast ty expr => ty.floats ++ expr.floats
  | .call callee args => callee.floats ++ Expr.floatsOfList args
  | .index expr index => expr.floats ++ index.floats
  | .field expr _ => expr.floats
  | .unary _ expr => expr.floats
  | .binary _ left right => left.floats ++ right.floats
  | .ternary cond thenExpr elseExpr => cond.floats ++ thenExpr.floats ++ elseExpr.floats
  | .int _ | .str _ | .name _ | .compound => []

/-- The floats of the items in order. -/
def Expr.floatsOfList : List Expr → List Binary64
  | [] => []
  | expr :: rest => expr.floats ++ Expr.floatsOfList rest

/-- The float literals of the sizes in a type. -/
def TypeSpec.floats : TypeSpec → List Binary64
  | .name _ => []
  | .pointer elem => elem.floats
  | .array elem size => elem.floats ++ size.floats
  | .function args ret => TypeSpec.floatsOfList args ++ ret.floats

def TypeSpec.floatsOfList : List TypeSpec → List Binary64
  | [] => []
  | ty :: rest => ty.floats ++ TypeSpec.floatsOfList rest

end

@[simp] theorem Expr.floatsOfList_eq_flatMap (exprs : List Expr) :
    Expr.floatsOfList exprs = exprs.flatMap Expr.floats := by
  induction exprs with
  | nil => rfl
  | cons e rest ih => rw [Expr.floatsOfList, ih, List.flatMap_cons]

@[simp] theorem TypeSpec.floatsOfList_eq_flatMap (types : List TypeSpec) :
    TypeSpec.floatsOfList types = types.flatMap TypeSpec.floats := by
  induction types with
  | nil => rfl
  | cons t rest ih => rw [TypeSpec.floatsOfList, ih, List.flatMap_cons]

/-! ## Changing the leaves -/

section Map

variable (f : Binary64 → Binary64)

mutual

/-- The same tree with every float literal replaced by its image. -/
def Expr.mapFloats : Expr → Expr
  | .int value => .int value
  | .float value => .float (f value)
  | .str value => .str value
  | .name name => .name name
  | .cast ty expr => .cast ty.mapFloats expr.mapFloats
  | .call callee args => .call callee.mapFloats (Expr.mapFloatsOfList args)
  | .index expr index => .index expr.mapFloats index.mapFloats
  | .field expr name => .field expr.mapFloats name
  | .unary op expr => .unary op expr.mapFloats
  | .binary op left right => .binary op left.mapFloats right.mapFloats
  | .ternary cond thenExpr elseExpr =>
    .ternary cond.mapFloats thenExpr.mapFloats elseExpr.mapFloats
  | .compound => .compound

def Expr.mapFloatsOfList : List Expr → List Expr
  | [] => []
  | expr :: rest => expr.mapFloats :: Expr.mapFloatsOfList rest

/-- The same type with every float literal of its sizes replaced by its image. -/
def TypeSpec.mapFloats : TypeSpec → TypeSpec
  | .name name => .name name
  | .pointer elem => .pointer elem.mapFloats
  | .array elem size => .array elem.mapFloats size.mapFloats
  | .function args ret => .function (TypeSpec.mapFloatsOfList args) ret.mapFloats

def TypeSpec.mapFloatsOfList : List TypeSpec → List TypeSpec
  | [] => []
  | ty :: rest => ty.mapFloats :: TypeSpec.mapFloatsOfList rest

end

@[simp] theorem Expr.mapFloatsOfList_eq_map (exprs : List Expr) :
    Expr.mapFloatsOfList f exprs = exprs.map (Expr.mapFloats f) := by
  induction exprs with
  | nil => rfl
  | cons e rest ih => rw [Expr.mapFloatsOfList, ih, List.map_cons]

@[simp] theorem TypeSpec.mapFloatsOfList_eq_map (types : List TypeSpec) :
    TypeSpec.mapFloatsOfList f types = types.map (TypeSpec.mapFloats f) := by
  induction types with
  | nil => rfl
  | cons t rest ih => rw [TypeSpec.mapFloatsOfList, ih, List.map_cons]

variable {f}

/-- A change that fixes every leaf of a tree fixes the tree. -/
theorem mapFloats_eq_self :
    (∀ e : Expr, (∀ x ∈ e.floats, f x = x) → e.mapFloats f = e) ∧
      ∀ t : TypeSpec, (∀ x ∈ t.floats, f x = x) → t.mapFloats f = t := by
  have list {α : Type} {map : α → α} {floats : α → List Binary64} {nodes : List α}
      (h : ∀ a ∈ nodes, (∀ x ∈ floats a, f x = x) → map a = a)
      (hf : ∀ x ∈ nodes.flatMap floats, f x = x) : nodes.map map = nodes := by
    calc nodes.map map = nodes.map id := List.map_congr_left fun a ha =>
          h a ha fun x hx => hf x (List.mem_flatMap.2 ⟨a, ha, hx⟩)
      _ = nodes := List.map_id nodes
  refine Node.induction ?int ?float ?str ?name ?cast ?call ?index ?field ?unary ?binary ?ternary
    ?compound ?typeName ?pointer ?array ?function
  case int => exact fun _ _ => rfl
  case float => exact fun x h => congrArg Expr.float (h x List.mem_cons_self)
  case str => exact fun _ _ => rfl
  case name => exact fun _ _ => rfl
  case cast =>
    intro ty expr hty hexpr h
    obtain ⟨h₁, h₂⟩ := List.forall_mem_append.1 h
    rw [Expr.mapFloats, hty h₁, hexpr h₂]
  case call =>
    intro callee args hcallee hargs h
    rw [Expr.floats, Expr.floatsOfList_eq_flatMap] at h
    obtain ⟨h₁, h₂⟩ := List.forall_mem_append.1 h
    rw [Expr.mapFloats, Expr.mapFloatsOfList_eq_map, hcallee h₁, list hargs h₂]
  case index =>
    intro expr index hexpr hindex h
    obtain ⟨h₁, h₂⟩ := List.forall_mem_append.1 h
    rw [Expr.mapFloats, hexpr h₁, hindex h₂]
  case field =>
    intro expr name hexpr h
    rw [Expr.mapFloats, hexpr h]
  case unary =>
    intro op expr hexpr h
    rw [Expr.mapFloats, hexpr h]
  case binary =>
    intro op left right hleft hright h
    obtain ⟨h₁, h₂⟩ := List.forall_mem_append.1 h
    rw [Expr.mapFloats, hleft h₁, hright h₂]
  case ternary =>
    intro cond thenExpr elseExpr hcond hthen helse h
    obtain ⟨h₁₂, h₃⟩ := List.forall_mem_append.1 h
    obtain ⟨h₁, h₂⟩ := List.forall_mem_append.1 h₁₂
    rw [Expr.mapFloats, hcond h₁, hthen h₂, helse h₃]
  case compound => exact fun _ => rfl
  case typeName => exact fun _ _ => rfl
  case pointer =>
    intro elem helem h
    rw [TypeSpec.mapFloats, helem h]
  case array =>
    intro elem size helem hsize h
    obtain ⟨h₁, h₂⟩ := List.forall_mem_append.1 h
    rw [TypeSpec.mapFloats, helem h₁, hsize h₂]
  case function =>
    intro args ret hargs hret h
    rw [TypeSpec.floats, TypeSpec.floatsOfList_eq_flatMap] at h
    obtain ⟨h₁, h₂⟩ := List.forall_mem_append.1 h
    rw [TypeSpec.mapFloats, TypeSpec.mapFloatsOfList_eq_map, list hargs h₁, hret h₂]

end Map

end SyntaxTree
