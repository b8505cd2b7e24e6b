import SyntaxTree.Sample

/-! # Texts in context

A tree with a hole is a path of nodes from the root to the hole. Whatever fills the hole is printed
between two texts that the path alone determines. -/

namespace SyntaxTree

/-- The trees of a sort. -/
abbrev NodeSort.Tree : NodeSort → Type
  | .expr => Expr
  | .typeSpec => TypeSpec

def NodeSort.node : (sort : NodeSort) → sort.Tree → Node
  | .expr => .expr
  | .typeSpec => .typeSpec

/-! ## Items of a list -/

namespace Print

/-- The texts, each with a space behind it. -/
def spaceAfter (texts : List String) : String := String.join (texts.map (· ++ " "))

/-- The texts, each with a space in front of it. -/
def spaceBefore (texts : List String) : String := String.join (texts.map (" " ++ ·))

theorem intercalate_cons (first : String) (rest : List String) :
    " ".intercalate (first :: rest) = first ++ spaceBefore rest := by
  induction rest generalizing first with
  | nil => simp [spaceBefore]
  | cons second rest ih =>
      rw [String.intercalate_cons_cons, ih second, spaceBefore, spaceBefore, List.map_cons,
        String.join_cons]
      simp only [String.append_assoc]

/-- An item of a list stands between its left neighbours, each with a space behind it, and its right
ones, each with a space in front of it. -/
theorem intercalate_append_cons (before : List String) (text : String) (after : List String) :
    " ".intercalate (before ++ text :: after) = spaceAfter before ++ text ++ spaceBefore after := by
  induction before with
  | nil => simp [spaceAfter, intercalate_cons]
  | cons first before ih =>
      rw [spaceAfter] at ih ⊢
      rw [List.cons_append, String.intercalate_cons_of_ne_nil (by simp), ih, List.map_cons,
        String.join_cons]
      simp only [String.append_assoc]

end Print

open Print

/-! ## One node -/

/-- A node without one of its children. The first sort is that of the child and the second that of
the node. -/
inductive Frame : NodeSort → NodeSort → Type
  | castType (expr : Expr) : Frame .typeSpec .expr
  | castExpr (ty : TypeSpec) : Frame .expr .expr
  | callCallee (args : List Expr) : Frame .expr .expr
  | callArg (callee : Expr) (left right : List Expr) : Frame .expr .expr
  | indexExpr (index : Expr) : Frame .expr .expr
  | indexIndex (expr : Expr) : Frame .expr .expr
  | fieldExpr (name : String) : Frame .expr .expr
  | unaryExpr (op : UnaryOp) : Frame .expr .expr
  | binaryLeft (op : BinaryOp) (right : Expr) : Frame .expr .expr
  | binaryRight (op : BinaryOp) (left : Expr) : Frame .expr .expr
  | ternaryCond (thenExpr elseExpr : Expr) : Frame .expr .expr
  | ternaryThen (cond elseExpr : Expr) : Frame .expr .expr
  | ternaryElse (cond thenExpr : Expr) : Frame .expr .expr
  | pointerElem : Frame .typeSpec .typeSpec
  | arrayElem (size : Expr) : Frame .typeSpec .typeSpec
  | arraySize (elem : TypeSpec) : Frame .expr .typeSpec
  | functionArg (left right : List TypeSpec) (ret : TypeSpec) : Frame .typeSpec .typeSpec
  | functionRet (args : List TypeSpec) : Frame .typeSpec .typeSpec

namespace Frame

variable {inner outer : NodeSort}

/-- The node with the child in its place. -/
def fill (frame : Frame inner outer) (child : inner.Tree) : outer.Tree :=
  match frame, child with
  | .castType expr, ty => Expr.cast ty expr
  | .castExpr ty, expr => Expr.cast ty expr
  | .callCallee args, callee => Expr.call callee args
  | .callArg callee left right, arg => Expr.call callee (left ++ arg :: right)
  | .indexExpr index, expr => Expr.index expr index
  | .indexIndex expr, index => Expr.index expr index
  | .fieldExpr name, expr => Expr.field expr name
  | .unaryExpr op, expr => Expr.unary op expr
  | .binaryLeft op right, left => Expr.binary op left right
  | .binaryRight op left, right => Expr.binary op left right
  | .ternaryCond thenExpr elseExpr, cond => Expr.ternary cond thenExpr elseExpr
  | .ternaryThen cond elseExpr, thenExpr => Expr.ternary cond thenExpr elseExpr
  | .ternaryElse cond thenExpr, elseExpr => Expr.ternary cond thenExpr elseExpr
  | .pointerElem, elem => TypeSpec.pointer elem
  | .arrayElem size, elem => TypeSpec.array elem size
  | .arraySize elem, size => TypeSpec.array elem size
  | .functionArg left right ret, arg => TypeSpec.function (left ++ arg :: right) ret
  | .functionRet args, ret => TypeSpec.function args ret

/-- What is printed in front of the child. -/
def before (config : PrintConfig) (frame : Frame inner outer) : String :=
  match frame with
  | .castType _ => "(cast "
  | .castExpr ty => "(cast " ++ ty.text config ++ " "
  | .callCallee _ => "("
  | .callArg callee left _ => "(" ++ spaceAfter ((callee :: left).map (Expr.text config))
  | .indexExpr _ => "(index "
  | .indexIndex expr => "(index " ++ expr.text config ++ " "
  | .fieldExpr _ => "(field "
  | .unaryExpr op => "(" ++ op.symbol ++ " "
  | .binaryLeft op _ => "(" ++ op.symbol ++ " "
  | .binaryRight op left => "(" ++ op.symbol ++ " " ++ left.text config ++ " "
  | .ternaryCond _ _ => "(if "
  | .ternaryThen cond _ => "(if " ++ cond.text config ++ " "
  | .ternaryElse cond thenExpr =>
    "(if " ++ cond.text config ++ " " ++ thenExpr.text config ++ " "
  | .pointerElem => "(ptr "
  | .arrayElem _ => "(arr "
  | .arraySize elem => "(arr " ++ elem.text config ++ " "
  | .functionArg left _ _ => "(func (" ++ spaceAfter (left.map (TypeSpec.text config))
  | .functionRet args =>
    "(func (" ++ " ".intercalate (args.map (TypeSpec.text config)) ++ ") "

/-- What is printed behind the child. -/
def after (config : PrintConfig) (frame : Frame inner outer) : String :=
  match frame with
  | .castType expr => " " ++ expr.text config ++ ")"
  | .callCallee args => spaceBefore (args.map (Expr.text config)) ++ ")"
  | .callArg _ _ right => spaceBefore (right.map (Expr.text config)) ++ ")"
  | .indexExpr index => " " ++ index.text config ++ ")"
  | .fieldExpr name => " " ++ name ++ ")"
  | .binaryLeft _ right => " " ++ right.text config ++ ")"
  | .ternaryCond thenExpr elseExpr =>
    " " ++ thenExpr.text config ++ " " ++ elseExpr.text config ++ ")"
  | .ternaryThen _ elseExpr => " " ++ elseExpr.text config ++ ")"
  | .arrayElem size => " " ++ size.text config ++ ")"
  | .functionArg _ right ret =>
    spaceBefore (right.map (TypeSpec.text config)) ++ ") " ++ ret.text config ++ ")"
  | .castExpr _ | .indexIndex _ | .unaryExpr _ | .binaryRight _ _ | .ternaryElse _ _
  | .pointerElem | .arraySize _ | .functionRet _ => ")"

/-- A node prints its child between two texts that do not depend on the child. -/
theorem text_fill (config : PrintConfig) (frame : Frame inner outer) (child : inner.Tree) :
    (outer.node (frame.fill child)).text config =
      frame.before config ++ (inner.node child).text config ++ frame.after config := by
  cases frame with
  | callCallee args =>
      simp [fill, before, after, NodeSort.node, Node.text, Expr.text, intercalate_cons,
        String.append_assoc]
  | callArg callee left right =>
      have hargs := intercalate_append_cons ((callee :: left).map (Expr.text config))
        (Expr.text config child) (right.map (Expr.text config))
      rw [List.map_cons, List.cons_append] at hargs
      simp [fill, before, after, NodeSort.node, Node.text, Expr.text, hargs, String.append_assoc]
  | functionArg left right ret =>
      have hargs := intercalate_append_cons (left.map (TypeSpec.text config))
        (TypeSpec.text config child) (right.map (TypeSpec.text config))
      simp [fill, before, after, NodeSort.node, Node.text, TypeSpec.text, hargs,
        String.append_assoc]
  | _ =>
      simp [fill, before, after, NodeSort.node, Node.text, Expr.text, TypeSpec.text,
        String.append_assoc]

end Frame

/-! ## Paths -/

/-- A tree with a hole, as the nodes on the path from its root. The first sort is that of the hole
and the second that of the root. -/
inductive Context : NodeSort → NodeSort → Type
  | hole {sort : NodeSort} : Context sort sort
  | under {inner middle outer : NodeSort} (frame : Frame middle outer)
      (below : Context inner middle) : Context inner outer

namespace Context

variable {inner outer : NodeSort}

/-- The tree with the hole filled. -/
def fill : {inner outer : NodeSort} → Context inner outer → inner.Tree → outer.Tree
  | _, _, .hole, tree => tree
  | _, _, .under frame below, tree => frame.fill (below.fill tree)

/-- What is printed in front of the hole. -/
def before (config : PrintConfig) : {inner outer : NodeSort} → Context inner outer → String
  | _, _, .hole => ""
  | _, _, .under frame below => frame.before config ++ below.before config

/-- What is printed behind the hole. -/
def after (config : PrintConfig) : {inner outer : NodeSort} → Context inner outer → String
  | _, _, .hole => ""
  | _, _, .under frame below => below.after config ++ frame.after config

/-- By induction along the path; each node adds its texts on the outside. -/
theorem text_fill (config : PrintConfig) (context : Context inner outer) (tree : inner.Tree) :
    (outer.node (context.fill tree)).text config =
      context.before config ++ (inner.node tree).text config ++ context.after config := by
  induction context with
  | hole => simp [fill, before, after]
  | under frame below ih =>
      rw [fill, Frame.text_fill, ih, before, after]
      simp only [String.append_assoc]

/-! ## Chains of negations -/

def negations : (depth : Nat) → Context .expr .expr
  | 0 => .hole
  | depth + 1 => .under (.unaryExpr .neg) (negations depth)

theorem fill_negations (depth : Nat) (leaf : Expr) :
    (negations depth).fill leaf = Sample.nestedNegation leaf depth := by
  induction depth with
  | zero => rw [negations, fill, Sample.nestedNegation]
  | succ depth ih => rw [negations, fill, ih, Frame.fill, Sample.nestedNegation]

theorem before_negations (config : PrintConfig) (depth : Nat) :
    (negations depth).before config = String.join (List.replicate depth "(- ") := by
  induction depth with
  | zero => rw [negations, before, List.replicate_zero, String.join_nil]
  | succ depth ih =>
      rw [negations, before, ih, List.replicate_succ, String.join_cons]
      rfl

theorem after_negations (config : PrintConfig) (depth : Nat) :
    (negations depth).after config = String.join (List.replicate depth ")") := by
  induction depth with
  | zero => rw [negations, after, List.replicate_zero, String.join_nil]
  | succ depth ih =>
      rw [negations, after, ih, List.replicate_succ', String.join_append, Frame.after]
      simp

end Context

/-- Printing is compositional: a tree is printed between a text in front of its place and a text
behind it, which the place and the configuration determine. So a chain of negations is the text of
its leaf between as many openings and ends. -/
theorem text_compositional (config : PrintConfig) :
    (∀ {inner outer : NodeSort} (context : Context inner outer), ∃ before after : String,
      ∀ tree : inner.Tree, (outer.node (context.fill tree)).text config =
        before ++ (inner.node tree).text config ++ after) ∧
    ∀ (depth : Nat) (leaf : Expr), (Sample.nestedNegation leaf depth).text config =
      Sample.nestedNegationText (leaf.text config) depth := by
  refine ⟨fun context => ⟨_, _, context.text_fill config⟩, fun depth leaf => ?_⟩
  have hchain := (Context.negations depth).text_fill config leaf
  rw [Context.fill_negations, Context.before_negations, Context.after_negations] at hchain
  exact hchain

end SyntaxTree
