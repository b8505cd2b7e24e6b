import Mathlib.Data.List.Forall2
import SyntaxTree.Proofs.Node.Floats
import SyntaxTree.Proofs.Script.Run

/-! # Building trees by scripts

The postorder script of a tree has a step for each node, after the steps of its children from left
to right. Run from any state it pushes the tree and nothing else. An operator may be given by its
symbol or, if that is a single character, by its code. -/

namespace SyntaxTree

open Script (Step)

/-! ## The script of a tree -/

mutual

/-- The steps that build an expression: those of its parts in order, then the one for its own
constructor. -/
def Expr.postorder : Expr → List Step
  | .int value => [.int value]
  | .float value => [.float value]
  | .str value => [.str value]
  | .name name => [.name name]
  | .cast ty expr => ty.postorder ++ expr.postorder ++ [.cast]
  | .call callee args => callee.postorder ++ Expr.postorders args ++ [.call args.length]
  | .index expr index => expr.postorder ++ index.postorder ++ [.index]
  | .field expr name => expr.postorder ++ [.field name]
  | .unary op expr => expr.postorder ++ [.unary (.symbol op.symbol)]
  | .binary op left right => left.postorder ++ right.postorder ++ [.binary (.symbol op.symbol)]
  | .ternary cond thenExpr elseExpr =>
    cond.postorder ++ thenExpr.postorder ++ elseExpr.postorder ++ [.ternary]
  | .compound => [.compound]

/-- The scripts of the trees in order. -/
def Expr.postorders : List Expr → List Step
  | [] => []
  | expr :: rest => expr.postorder ++ Expr.postorders rest

/-- The steps that build a type expression, in the same order. -/
def TypeSpec.postorder : TypeSpec → List Step
  | .name name => [.typeName name]
  | .pointer elem => elem.postorder ++ [.pointer]
  | .array elem size => elem.postorder ++ size.postorder ++ [.array]
  | .function args ret => TypeSpec.postorders args ++ ret.postorder ++ [.function args.length]

/-- The scripts of the types in order. -/
def TypeSpec.postorders : List TypeSpec → List Step
  | [] => []
  | ty :: rest => ty.postorder ++ TypeSpec.postorders rest

end

/-- The steps that build a tree. -/
def Node.postorder : Node → List Step
  | .expr e => e.postorder
  | .typeSpec t => t.postorder

theorem Expr.postorders_eq_flatMap (exprs : List Expr) :
    Expr.postorders exprs = exprs.flatMap Expr.postorder := by
  induction exprs with
  | nil => rfl
  | cons e rest ih => rw [Expr.postorders, ih, List.flatMap_cons]

theorem TypeSpec.postorders_eq_flatMap (types : List TypeSpec) :
    TypeSpec.postorders types = types.flatMap TypeSpec.postorder := by
  induction types with
  | nil => rfl
  | cons t rest ih => rw [TypeSpec.postorders, ih, List.flatMap_cons]

namespace Script

/-- The same step, where an operator may be given by its code in place of its symbol. -/
inductive Step.Respelled : Step → Step → Prop
  | same (step : Step) : Step.Respelled step step
  | unary {op : UnaryOp} {code : Char} : op.symbol = String.ofList [code] →
      Step.Respelled (.unary (.symbol op.symbol)) (.unary (.code code))
  | binary {op : BinaryOp} {code : Char} : op.symbol = String.ofList [code] →
      Step.Respelled (.binary (.symbol op.symbol)) (.binary (.code code))

/-- Whether the step was not carried out, for whatever reason. -/
def Answer.isRefused : Answer → Bool
  | .refused _ => true
  | _ => false

/-! ## Spellings of operators -/

theorem unary_symbol (op : UnaryOp) : OperatorRef.unary (.symbol op.symbol) = .ok op := by
  rw [OperatorRef.unary, UnaryOp.ofSymbol, UnaryOp.ofSymbol?_symbol]

theorem unary_code {op : UnaryOp} {code : Char} (h : op.symbol = String.ofList [code]) :
    OperatorRef.unary (.code code) = .ok op := by
  rw [OperatorRef.unary, UnaryOp.ofCode, UnaryOp.ofCode?_eq_some_iff.2 h]

theorem binary_symbol (op : BinaryOp) : OperatorRef.binary (.symbol op.symbol) = .ok op := by
  rw [OperatorRef.binary, BinaryOp.ofSymbol, BinaryOp.ofSymbol?_symbol]

theorem binary_code {op : BinaryOp} {code : Char} (h : op.symbol = String.ofList [code]) :
    OperatorRef.binary (.code code) = .ok op := by
  rw [OperatorRef.binary, BinaryOp.ofCode, BinaryOp.ofCode?_eq_some_iff.2 h]

theorem build_unary (op : OperatorRef) : build (.unary op) =
    checked op.unary >>= fun op => popExpr >>= fun expr => pure (.expr (.unary op expr)) := rfl

theorem build_binary (op : OperatorRef) : build (.binary op) =
    checked op.binary >>= fun op => popExpr >>= fun right => popExpr >>= fun left =>
      pure (.expr (.binary op left right)) := rfl

/-- A step cannot tell how its operator was spelled. -/
theorem step_respelled {step step' : Step} (h : step.Respelled step') (state : State) :
    state.step step = state.step step' := by
  cases h with
  | same => rfl
  | unary h =>
      change state.construct _ = state.construct _
      rw [State.construct, State.construct, build_unary, build_unary, unary_symbol, unary_code h]
  | binary h =>
      change state.construct _ = state.construct _
      rw [State.construct, State.construct, build_binary, build_binary, binary_symbol,
        binary_code h]

theorem run_respelled {steps steps' : List Step} (h : List.Forall₂ Step.Respelled steps steps')
    (state : State) : run state steps = run state steps' := by
  induction h generalizing state with
  | nil => rfl
  | cons hstep _ ih => rw [run_cons, run_cons, step_respelled hstep, ih]

/-! ## Scripts that push -/

/-- The state with the nodes on top of the stack, the last one uppermost. -/
def State.above (state : State) (nodes : List Node) : State :=
  { state with stack := nodes.reverse ++ state.stack }

/-- From every state the script pushes the nodes in order, and no step is refused. -/
def Pushes (steps : List Step) (nodes : List Node) : Prop :=
  ∀ state : State, (run state steps).2 = state.above nodes ∧
    ∀ answer ∈ (run state steps).1, answer.isRefused = false

theorem pushes_nil : Pushes [] [] := by
  intro state
  exact ⟨rfl, fun answer h => absurd h List.not_mem_nil⟩

/-- Nodes pushed in two goes are on the stack as if pushed in one. -/
theorem above_append (state : State) (nodes nodes' : List Node) :
    (state.above nodes).above nodes' = state.above (nodes ++ nodes') := by
  simp [State.above]

theorem Pushes.append {steps steps' : List Step} {nodes nodes' : List Node}
    (h : Pushes steps nodes) (h' : Pushes steps' nodes') :
    Pushes (steps ++ steps') (nodes ++ nodes') := by
  intro state
  obtain ⟨hfinal, hanswers⟩ := h state
  obtain ⟨hfinal', hanswers'⟩ := h' (state.above nodes)
  rw [run_append, hfinal]
  constructor
  · rw [hfinal', above_append]
  · intro answer hanswer
    rcases List.mem_append.1 hanswer with hanswer | hanswer
    · exact hanswers answer hanswer
    · exact hanswers' answer hanswer

/-- The scripts of the items of a list, by induction on the list. -/
theorem pushes_flatMap {α : Type} {postorder : α → List Step} {node : α → Node} {items : List α}
    (h : ∀ a ∈ items, Pushes (postorder a) [node a]) :
    Pushes (items.flatMap postorder) (items.map node) := by
  induction items with
  | nil => exact pushes_nil
  | cons a rest ih =>
      obtain ⟨ha, hrest⟩ := List.forall_mem_cons.1 h
      exact ha.append (ih hrest)

/-- The script pushes one node, and the last answer shows it. -/
structure Reaches (steps : List Step) (node : Node) : Prop where
  pushes : Pushes steps [node]
  getLast?_eq (state : State) : (run state steps).1.getLast? =
    some (.pushed node.sort node.kindLabel node.kindTag (node.text state.config))

/-- A step that puts its node in the place of the nodes that were pushed last. -/
structure Builds (step : Step) (nodes : List Node) (node : Node) : Prop where
  step_eq (state : State) : state.step step = state.construct step
  build_eq (below : List Node) : (build step).run.run (nodes.reverse ++ below) = (.ok node, below)

/-- The step answers with the node, and nothing of its parts remains above the stack. -/
theorem Builds.step_above {step : Step} {nodes : List Node} {node : Node}
    (h : Builds step nodes node) (state : State) :
    (state.above nodes).step step =
      (.pushed node.sort node.kindLabel node.kindTag (node.text state.config),
        state.above [node]) := by
  rw [h.step_eq, State.construct, State.above, h.build_eq]
  rfl

/-- A script for the parts and then the step itself ends with the node. -/
theorem Builds.reaches {step : Step} {nodes : List Node} {node : Node} (h : Builds step nodes node)
    {steps : List Step} (hsteps : Pushes steps nodes) : Reaches (steps ++ [step]) node := by
  have hrun (state : State) : run state (steps ++ [step]) = ((run state steps).1 ++
      [.pushed node.sort node.kindLabel node.kindTag (node.text state.config)],
      state.above [node]) := by
    rw [run_append, (hsteps state).1, run_cons, h.step_above]
    rfl
  constructor
  · intro state
    rw [hrun]
    refine ⟨rfl, fun answer hanswer => ?_⟩
    rcases List.mem_append.1 hanswer with hanswer | hanswer
    · exact (hsteps state).2 answer hanswer
    · rw [List.mem_singleton.1 hanswer]
      rfl
  · intro state
    rw [hrun, List.getLast?_concat]

/-! ## Each kind of node -/

/-- A call takes its arguments from the top and then the callee below them. -/
theorem builds_call (callee : Expr) (args : List Expr) :
    Builds (.call args.length) (.expr callee :: args.map .expr) (.expr (.call callee args)) := by
  constructor
  · intro state
    rfl
  · intro below
    have hpop (e : Expr) (below : List Node) :
        popExpr.run.run (.expr e :: below) = (.ok e, below) := rfl
    change (popMany popExpr args.length [] >>= fun args => popExpr >>= fun callee =>
      pure (Node.expr (.call callee args))).run.run _ = _
    rw [run_bind, List.reverse_cons, List.append_assoc, run_popMany hpop, List.append_nil]
    rfl

/-- A function type takes its result first and then the argument types. -/
theorem builds_function (args : List TypeSpec) (ret : TypeSpec) :
    Builds (.function args.length) (args.map .typeSpec ++ [.typeSpec ret])
      (.typeSpec (.function args ret)) := by
  constructor
  · intro state
    rfl
  · intro below
    have hpop (t : TypeSpec) (below : List Node) :
        popType.run.run (.typeSpec t :: below) = (.ok t, below) := rfl
    change (popType >>= fun ret => popMany popType args.length [] >>= fun args =>
      pure (Node.typeSpec (.function args ret))).run.run _ = _
    rw [run_bind, List.reverse_append, List.reverse_singleton, List.singleton_append,
      List.cons_append, hpop]
    dsimp only
    rw [run_bind, run_popMany hpop, List.append_nil]
    rfl

theorem builds_unary (op : UnaryOp) (expr : Expr) :
    Builds (.unary (.symbol op.symbol)) [.expr expr] (.expr (.unary op expr)) := by
  constructor
  · intro state
    rfl
  · intro below
    rw [build_unary, unary_symbol]
    rfl

theorem builds_binary (op : BinaryOp) (left right : Expr) :
    Builds (.binary (.symbol op.symbol)) [.expr left, .expr right]
      (.expr (.binary op left right)) := by
  constructor
  · intro state
    rfl
  · intro below
    rw [build_binary, binary_symbol]
    rfl

/-- Every script reaches its tree: the steps before the last one push the children in order, and the
last one builds the node from them. -/
theorem reaches_postorder :
    (∀ e : Expr, Reaches e.postorder (.expr e)) ∧
      ∀ t : TypeSpec, Reaches t.postorder (.typeSpec t) := by
  have leaf {step : Step} {node : Node} (h : Builds step [] node) : Reaches [step] node :=
    h.reaches pushes_nil
  refine Node.induction ?int ?float ?str ?name ?cast ?call ?index ?field ?unary ?binary ?ternary
    ?compound ?typeName ?pointer ?array ?function
  case int => exact fun value => leaf ⟨fun _ => rfl, fun _ => rfl⟩
  case float => exact fun value => leaf ⟨fun _ => rfl, fun _ => rfl⟩
  case str => exact fun value => leaf ⟨fun _ => rfl, fun _ => rfl⟩
  case name => exact fun name => leaf ⟨fun _ => rfl, fun _ => rfl⟩
  case compound => exact leaf ⟨fun _ => rfl, fun _ => rfl⟩
  case typeName => exact fun name => leaf ⟨fun _ => rfl, fun _ => rfl⟩
  case cast =>
    intro ty expr hty hexpr
    have h : Builds .cast [.typeSpec ty, .expr expr] (.expr (.cast ty expr)) :=
      ⟨fun _ => rfl, fun _ => rfl⟩
    exact h.reaches (hty.pushes.append hexpr.pushes)
  case call =>
    intro callee args hcallee hargs
    rw [Expr.postorder, Expr.postorders_eq_flatMap]
    refine (builds_call callee args).reaches (hcallee.pushes.append ?_)
    exact pushes_flatMap fun arg harg => (hargs arg harg).pushes
  case index =>
    intro expr index hexpr hindex
    have h : Builds .index [.expr expr, .expr index] (.expr (.index expr index)) :=
      ⟨fun _ => rfl, fun _ => rfl⟩
    exact h.reaches (hexpr.pushes.append hindex.pushes)
  case field =>
    intro expr name hexpr
    have h : Builds (.field name) [.expr expr] (.expr (.field expr name)) :=
      ⟨fun _ => rfl, fun _ => rfl⟩
    exact h.reaches hexpr.pushes
  case unary => exact fun op expr hexpr => (builds_unary op expr).reaches hexpr.pushes
  case binary =>
    intro op left right hleft hright
    exact (builds_binary op left right).reaches (hleft.pushes.append hright.pushes)
  case ternary =>
    intro cond thenExpr elseExpr hcond hthen helse
    have h : Builds .ternary [.expr cond, .expr thenExpr, .expr elseExpr]
        (.expr (.ternary cond thenExpr elseExpr)) := ⟨fun _ => rfl, fun _ => rfl⟩
    exact h.reaches ((hcond.pushes.append hthen.pushes).append helse.pushes)
  case pointer =>
    intro elem helem
    have h : Builds .pointer [.typeSpec elem] (.typeSpec (.pointer elem)) :=
      ⟨fun _ => rfl, fun _ => rfl⟩
    exact h.reaches helem.pushes
  case array =>
    intro elem size helem hsize
    have h : Builds .array [.typeSpec elem, .expr size] (.typeSpec (.array elem size)) :=
      ⟨fun _ => rfl, fun _ => rfl⟩
    exact h.reaches (helem.pushes.append hsize.pushes)
  case function =>
    intro args ret hargs hret
    rw [TypeSpec.postorder, TypeSpec.postorders_eq_flatMap]
    refine (builds_function args ret).reaches (Pushes.append ?_ hret.pushes)
    exact pushes_flatMap fun arg harg => (hargs arg harg).pushes

/-- Run from any state the script of a tree, with its operators given either way, has no step
refused, puts the tree on top of the stack and changes nothing else, and the last answer carries the
kind and the text of the tree. -/
theorem run_postorder (node : Node) {steps : List Step}
    (h : List.Forall₂ Step.Respelled node.postorder steps) (state : State) :
    (∀ answer ∈ (run state steps).1, answer.isRefused = false) ∧
    (run state steps).2 = { state with stack := node :: state.stack } ∧
    (run state steps).1.getLast? =
      some (.pushed node.sort node.kindLabel node.kindTag (node.text state.config)) := by
  have hreaches : Reaches node.postorder node := by
    cases node with
    | expr e => exact reaches_postorder.1 e
    | typeSpec t => exact reaches_postorder.2 t
  rw [← run_respelled h]
  obtain ⟨hfinal, hanswers⟩ := hreaches.pushes state
  exact ⟨hanswers, hfinal, hreaches.getLast?_eq state⟩

/-- A call of two arguments, one of them with its operator given by its code, above a type. -/
theorem run_postorder_call :
    (run ⟨[.typeSpec (.name "int")], ⟨2⟩, "x"⟩
      [.name "f", .int 1, .float ⟨0xbff8000000000000⟩, .unary (.code '-'), .call 2]).2 =
      ⟨[.expr (.call (.name "f") [.int 1, .unary .neg (.float ⟨0xbff8000000000000⟩)]),
        .typeSpec (.name "int")], ⟨2⟩, "x"⟩ := by
  have hcode : UnaryOp.neg.symbol = String.ofList ['-'] := rfl
  have h : List.Forall₂ Step.Respelled
      (Node.expr (.call (.name "f") [.int 1, .unary .neg (.float ⟨0xbff8000000000000⟩)])).postorder
      [.name "f", .int 1, .float ⟨0xbff8000000000000⟩, .unary (.code '-'), .call 2] :=
    .cons (.same _) (.cons (.same _) (.cons (.same _) (.cons (.unary hcode)
      (.cons (.same _) .nil))))
  exact (run_postorder _ h _).2.1

end Script

end SyntaxTree
