import SyntaxTree.Print.Stream
import SyntaxTree.Proofs.Node.Floats

/-! # What a sink is handed

Writing a tree hands over a fixed sequence of chunks that add up to its text, whatever the sink, and
breaks off after the first chunk that is refused. -/

namespace SyntaxTree

/-! ## The chunks of a tree -/

section Chunks

variable {config : PrintConfig}

mutual

/-- The chunks of the text, from left to right. -/
def Expr.chunks (numbers : NumberChunks config) : Expr → List String
  | .int value => numbers.natural value
  | .float value => numbers.float value
  | .str value => ["\"", value, "\""]
  | .name name => [name]
  | .cast ty expr => "(cast " :: (ty.chunks numbers ++ " " :: (expr.chunks numbers ++ [")"]))
  | .call callee args => "(" :: (callee.chunks numbers ++ (Expr.argChunks numbers args ++ [")"]))
  | .index expr index =>
    "(index " :: (expr.chunks numbers ++ " " :: (index.chunks numbers ++ [")"]))
  | .field expr name => "(field " :: (expr.chunks numbers ++ [" ", name, ")"])
  | .unary op expr => "(" :: op.symbol :: " " :: (expr.chunks numbers ++ [")"])
  | .binary op left right =>
    "(" :: op.symbol :: " " :: (left.chunks numbers ++ " " :: (right.chunks numbers ++ [")"]))
  | .ternary cond thenExpr elseExpr =>
    "(if " :: (cond.chunks numbers ++
      " " :: (thenExpr.chunks numbers ++ " " :: (elseExpr.chunks numbers ++ [")"])))
  | .compound => ["(compound ...)"]

def Expr.argChunks (numbers : NumberChunks config) : List Expr → List String
  | [] => []
  | arg :: rest => " " :: (arg.chunks numbers ++ Expr.argChunks numbers rest)

/-- The calls that printing a type expression makes if none is refused. -/
def TypeSpec.chunks (numbers : NumberChunks config) : TypeSpec → List String
  | .name name => [name]
  | .pointer elem => "(ptr " :: (elem.chunks numbers ++ [")"])
  | .array elem size => "(arr " :: (elem.chunks numbers ++ " " :: (size.chunks numbers ++ [")"]))
  | .function args ret =>
    "(func (" :: (TypeSpec.paramChunks numbers args ++ ") " :: (ret.chunks numbers ++ [")"]))

def TypeSpec.paramChunks (numbers : NumberChunks config) : List TypeSpec → List String
  | [] => []
  | [param] => param.chunks numbers
  | param :: rest => param.chunks numbers ++ " " :: TypeSpec.paramChunks numbers rest

end

/-- The calls that printing a tree makes if none is refused. -/
def Node.chunks (numbers : NumberChunks config) : Node → List String
  | .expr e => e.chunks numbers
  | .typeSpec t => t.chunks numbers

/-! ## Their sum -/

/-- The chunks of the arguments, each behind a space, are the texts separated by spaces. -/
theorem Expr.join_argChunks {numbers : NumberChunks config} {args : List Expr}
    (h : ∀ arg ∈ args, String.join (arg.chunks numbers) = arg.text config) (callee : String) :
    callee ++ String.join (Expr.argChunks numbers args) =
      " ".intercalate (callee :: args.map (Expr.text config)) := by
  induction args generalizing callee with
  | nil => simp [Expr.argChunks]
  | cons arg rest ih =>
      obtain ⟨harg, hrest⟩ := List.forall_mem_cons.1 h
      rw [Expr.argChunks, String.join_cons, String.join_append, harg, List.map_cons,
        String.intercalate_cons_cons, ← ih hrest]
      simp only [String.append_assoc]

/-- The chunks of the argument types are their texts separated by spaces; the first has none before
it. -/
theorem TypeSpec.join_paramChunks {numbers : NumberChunks config} {params : List TypeSpec}
    (h : ∀ param ∈ params, String.join (param.chunks numbers) = param.text config) :
    String.join (TypeSpec.paramChunks numbers params) =
      " ".intercalate (params.map (TypeSpec.text config)) := by
  induction params with
  | nil => rfl
  | cons param rest ih =>
      obtain ⟨hparam, hrest⟩ := List.forall_mem_cons.1 h
      cases rest with
      | nil => simp [TypeSpec.paramChunks, hparam]
      | cons second rest =>
          rw [TypeSpec.paramChunks, String.join_append, String.join_cons, hparam, ih hrest]
          · simp only [List.map_cons, String.intercalate_cons_cons, String.append_assoc]
          · simp

/-- The chunks add up to the text. -/
theorem Node.join_chunks (numbers : NumberChunks config) (node : Node) :
    String.join (node.chunks numbers) = node.text config := by
  have h : (∀ e : Expr, String.join (e.chunks numbers) = e.text config) ∧
      ∀ t : TypeSpec, String.join (t.chunks numbers) = t.text config := by
    refine Node.induction ?int ?float ?str ?name ?cast ?call ?index ?field ?unary ?binary ?ternary
      ?compound ?typeName ?pointer ?array ?function
    case int => exact numbers.join_natural
    case float => exact numbers.join_float
    case call =>
      intro callee args hcallee hargs
      have hjoin := Expr.join_argChunks hargs (callee.text config)
      simp only [Expr.chunks, Expr.text, String.join_cons, String.join_append, hcallee,
        Expr.texts_eq_map, ← hjoin, String.append_assoc]
      simp
    case function =>
      intro args ret hargs hret
      simp only [TypeSpec.chunks, TypeSpec.text, String.join_cons, String.join_append,
        TypeSpec.join_paramChunks hargs, hret, TypeSpec.texts_eq_map, String.append_assoc]
      simp
    all_goals
      intros
      simp_all [Expr.chunks, TypeSpec.chunks, Expr.text, TypeSpec.text, String.append_assoc]
  cases node with
  | expr e => exact h.1 e
  | typeSpec t => exact h.2 t

/-! ## Writing is feeding -/

variable {σ : Type}

theorem feed_nil (sink : Sink σ) : feed sink [] = pure () := rfl

theorem feed_cons (sink : Sink σ) (chunk : String) (rest : List String) :
    feed sink (chunk :: rest) = (do sink chunk; feed sink rest) := rfl

/-- Chunks may be handed over in two goes. -/
theorem feed_append (sink : Sink σ) (a b : List String) :
    feed sink (a ++ b) = (do feed sink a; feed sink b) := by
  induction a with
  | nil => simp [feed_nil]
  | cons chunk a ih => simp only [List.cons_append, feed_cons, ih, bind_assoc]

/-- Writing a list of arguments is handing over its chunks, if that is so of every argument. -/
theorem Expr.writeArgs_eq_feed {numbers : NumberChunks config} {sink : Sink σ} {args : List Expr}
    (h : ∀ arg ∈ args, arg.write numbers sink = feed sink (arg.chunks numbers)) :
    Expr.writeArgs numbers sink args = feed sink (Expr.argChunks numbers args) := by
  induction args with
  | nil => rw [Expr.writeArgs, Expr.argChunks, feed_nil]
  | cons arg rest ih =>
      obtain ⟨harg, hrest⟩ := List.forall_mem_cons.1 h
      rw [Expr.writeArgs, Expr.argChunks, feed_cons, feed_append, harg, ih hrest]

/-- Writing a list of argument types is handing over its chunks, if that is so of every one. -/
theorem TypeSpec.writeParams_eq_feed {numbers : NumberChunks config} {sink : Sink σ}
    {params : List TypeSpec}
    (h : ∀ param ∈ params, param.write numbers sink = feed sink (param.chunks numbers)) :
    TypeSpec.writeParams numbers sink params = feed sink (TypeSpec.paramChunks numbers params) := by
  induction params with
  | nil => rw [TypeSpec.writeParams, TypeSpec.paramChunks, feed_nil]
  | cons param rest ih =>
      obtain ⟨hparam, hrest⟩ := List.forall_mem_cons.1 h
      cases rest with
      | nil => rw [TypeSpec.writeParams, TypeSpec.paramChunks, hparam]
      | cons second rest =>
          rw [TypeSpec.writeParams, TypeSpec.paramChunks, feed_append, feed_cons, hparam, ih hrest]
          · simp
          · simp

/-- Every point of the traversal that writes hands over the next chunk, and none is visited after a
refusal. -/
theorem Node.write_eq_feed (numbers : NumberChunks config) (sink : Sink σ) (node : Node) :
    node.write numbers sink = feed sink (node.chunks numbers) := by
  have h : (∀ e : Expr, e.write numbers sink = feed sink (e.chunks numbers)) ∧
      ∀ t : TypeSpec, t.write numbers sink = feed sink (t.chunks numbers) := by
    refine Node.induction ?int ?float ?str ?name ?cast ?call ?index ?field ?unary ?binary ?ternary
      ?compound ?typeName ?pointer ?array ?function
    case call =>
      intro callee args hcallee hargs
      simp only [Expr.write, Expr.chunks, feed_nil, feed_cons, feed_append, hcallee,
        Expr.writeArgs_eq_feed hargs, bind_pure_unit]
    case function =>
      intro args ret hargs hret
      simp only [TypeSpec.write, TypeSpec.chunks, feed_nil, feed_cons, feed_append, hret,
        TypeSpec.writeParams_eq_feed hargs, bind_pure_unit]
    all_goals
      intros
      simp_all only [Expr.write, Expr.chunks, TypeSpec.write, TypeSpec.chunks, feed_nil, feed_cons,
        feed_append, bind_pure_unit]
  cases node with
  | expr e => exact h.1 e
  | typeSpec t => exact h.2 t

end Chunks

/-! ## Calls of the sink -/

variable {σ : Type}

/-- A chunk that a sink was handed, and whether it was taken. -/
structure Call where
  chunk : String
  taken : Bool
  deriving DecidableEq, Repr

/-- The sink together with the calls it has had. -/
def Sink.recorded (sink : Sink σ) : Sink (σ × List Call) := fun chunk =>
  OptionT.mk fun (state, calls) =>
    let (outcome, next) := (sink chunk).run.run state
    (outcome, next, calls ++ [⟨chunk, outcome.isSome⟩])

/-- The calls that the chunks lead to: all are taken, or the last one made is refused. -/
inductive Calls : List String → Option Unit → List Call → Prop
  | done : Calls [] (some ()) []
  | refused {chunk : String} {rest : List String} : Calls (chunk :: rest) none [⟨chunk, false⟩]
  | taken {chunk : String} {rest : List String} {outcome : Option Unit} {calls : List Call} :
      Calls rest outcome calls → Calls (chunk :: rest) outcome (⟨chunk, true⟩ :: calls)

/-- The first refusal ends the handing over, in the state that the refusal leaves. -/
theorem run_feed_cons (sink : Sink σ) (chunk : String) (rest : List String) (state : σ) :
    (feed sink (chunk :: rest)).run.run state =
      match (sink chunk).run.run state with
      | (none, next) => (none, next)
      | (some (), next) => (feed sink rest).run.run next := by
  rw [feed_cons, OptionT.run_bind, Option.elimM, StateT.run_bind]
  change (match (sink chunk).run.run state with | (outcome, next) => _) = _
  rcases (sink chunk).run.run state with ⟨_ | _, next⟩
  · rfl
  · rfl

/-- Recording changes nothing, and what it records are the calls that the chunks lead to. -/
theorem feed_recorded (sink : Sink σ) (chunks : List String) (state : σ) (before : List Call) :
    ∃ calls, Calls chunks ((feed sink chunks).run.run state).1 calls ∧
      (feed sink.recorded chunks).run.run (state, before) =
        (((feed sink chunks).run.run state).1, ((feed sink chunks).run.run state).2,
          before ++ calls) := by
  induction chunks generalizing state before with
  | nil => exact ⟨[], .done, by rw [List.append_nil]; rfl⟩
  | cons chunk rest ih =>
      have hcall : (sink.recorded chunk).run.run (state, before) =
          (((sink chunk).run.run state).1, ((sink chunk).run.run state).2,
            before ++ [⟨chunk, ((sink chunk).run.run state).1.isSome⟩]) := rfl
      rw [run_feed_cons, run_feed_cons, hcall]
      rcases (sink chunk).run.run state with ⟨_ | _, next⟩
      · exact ⟨_, .refused, rfl⟩
      · obtain ⟨calls, hcalls, hrun⟩ := ih next (before ++ [⟨chunk, true⟩])
        refine ⟨⟨chunk, true⟩ :: calls, .taken hcalls, ?_⟩
        simp only [Option.isSome_some, hrun, List.append_assoc, List.singleton_append]

namespace Calls

variable {chunks : List String} {outcome : Option Unit} {calls : List Call}

/-- What has been handed over is a prefix of the whole, by induction on the calls. -/
theorem exists_join (h : Calls chunks outcome calls) :
    ∃ rest, String.join chunks = String.join (calls.map Call.chunk) ++ rest := by
  induction h with
  | done => exact ⟨"", rfl⟩
  | @refused chunk rest => exact ⟨String.join rest, by simp⟩
  | @taken chunk _ _ _ _ ih =>
      obtain ⟨rest, hrest⟩ := ih
      exact ⟨rest, by simp [hrest, String.append_assoc]⟩

/-- The outcome is a failure exactly if some call was refused. -/
theorem outcome_eq_none_iff (h : Calls chunks outcome calls) :
    outcome = none ↔ ∃ call ∈ calls, call.taken = false := by
  induction h with
  | done => simp
  | refused => simp
  | taken _ ih => simp [ih]

/-- A call that is refused is the last. -/
theorem last_of_refused (h : Calls chunks outcome calls) {before after : List Call} {call : Call}
    (hsplit : calls = before ++ call :: after) (hcall : call.taken = false) : after = [] := by
  induction h generalizing before with
  | done => exact absurd hsplit (by simp)
  | refused =>
      have hlength := congrArg List.length hsplit
      simp only [List.length_cons, List.length_nil, List.length_append] at hlength
      exact List.length_eq_zero_iff.1 (by omega)
  | taken _ ih =>
      cases before with
      | nil =>
          obtain ⟨rfl, -⟩ := List.cons.inj hsplit
          exact absurd hcall (by simp)
      | cons first before => exact ih (List.cons.inj hsplit).2

/-- If all calls were taken, the whole has been handed over. -/
theorem join_eq (h : Calls chunks outcome calls) (htaken : ∀ call ∈ calls, call.taken = true) :
    String.join (calls.map Call.chunk) = String.join chunks := by
  induction h with
  | done => rfl
  | refused => exact absurd (htaken _ List.mem_cons_self) (by simp)
  | taken _ ih => simp [ih (List.forall_mem_cons.1 htaken).2]

end Calls

/-! ## Bounded sinks -/

namespace Bounded

/-- What the sink comes to when it is handed some text. -/
def handed (state : Bounded) (text : String) : Bounded :=
  ⟨state.room - text.length, state.accepted ++ String.ofList (text.toList.take state.room)⟩

/-- The room left after two texts does not depend on where they were cut. -/
theorem handed_append (state : Bounded) (a b : String) :
    state.handed (a ++ b) = (state.handed a).handed b := by
  simp only [handed, String.length_append, String.toList_append, List.take_append,
    String.length_toList, String.ofList_append, String.append_assoc, Nat.sub_sub]

theorem handed_of_full {state : Bounded} (h : state.room = 0) (text : String) :
    state.handed text = state := by
  obtain ⟨room, accepted⟩ := state
  obtain rfl : room = 0 := h
  simp [handed]

/-- A chunk is refused exactly if it is longer than the room, and what fits of it is kept. -/
theorem run_sink (chunk : String) (state : Bounded) :
    (sink chunk).run.run state =
      (if chunk.length ≤ state.room then some () else none, state.handed chunk) := by
  have hroom : state.room - (chunk.toList.take state.room).length = state.room - chunk.length := by
    rw [List.length_take, String.length_toList]
    omega
  rw [handed, ← hroom]
  change (if chunk.length ≤ state.room then pure () else failure :
    Streaming Bounded Unit).run.run _ = _
  by_cases h : chunk.length ≤ state.room
  · rw [if_pos h, if_pos h]
    rfl
  · rw [if_neg h, if_neg h]
    rfl

/-- Chunks are taken as their sum is: what fits of it goes in, wherever the cut falls. -/
theorem run_feed (chunks : List String) (state : Bounded) :
    (feed sink chunks).run.run state =
      (if (String.join chunks).length ≤ state.room then some () else none,
        state.handed (String.join chunks)) := by
  induction chunks generalizing state with
  | nil =>
      have hjoin : String.join [] = "" := rfl
      simp only [hjoin, handed, String.length_empty, Nat.zero_le, if_true, Nat.sub_zero,
        String.toList_empty, List.take_nil, String.ofList_nil, String.append_empty]
      rfl
  | cons chunk rest ih =>
      rw [run_feed_cons, run_sink, String.join_cons, String.length_append, handed_append]
      by_cases h : chunk.length ≤ state.room
      · have hroom : (state.handed chunk).room = state.room - chunk.length := rfl
        have hfits : (String.join rest).length ≤ state.room - chunk.length ↔
            chunk.length + (String.join rest).length ≤ state.room := by omega
        simp only [if_pos h, ih, hroom, hfits]
      · have hfull : (state.handed chunk).room = 0 := Nat.sub_eq_zero_of_le (by omega)
        rw [if_neg h, if_neg (by omega), handed_of_full hfull]

end Bounded

/-! ## Writing -/

/-- The calls of the sink carry the front of the text. Writing fails exactly if one of them is
refused, which then is the last, and otherwise they carry the whole text. A sink with room for
`limit` characters takes the first `limit` of them. -/
theorem Node.write_streams {config : PrintConfig} (numbers : NumberChunks config) (sink : Sink σ)
    (state : σ) (node : Node) :
    let (outcome, final, calls) := (node.write numbers sink.recorded).run.run (state, [])
    (node.write numbers sink).run.run state = (outcome, final) ∧
    (∃ rest, node.text config = String.join (calls.map Call.chunk) ++ rest) ∧
    (outcome = none ↔ ∃ call ∈ calls, call.taken = false) ∧
    (∀ before call after, calls = before ++ call :: after → call.taken = false → after = []) ∧
    ((∀ call ∈ calls, call.taken = true) →
      String.join (calls.map Call.chunk) = node.text config) ∧
    ∀ limit,
      let (outcome, final) := (node.write numbers Bounded.sink).run.run ⟨limit, ""⟩
      final.accepted = String.ofList ((node.text config).toList.take limit) ∧
        (outcome = some () ↔ (node.text config).length ≤ limit) := by
  obtain ⟨calls, hcalls, hrun⟩ := feed_recorded sink (node.chunks numbers) state []
  rw [write_eq_feed, write_eq_feed, write_eq_feed, hrun, ← node.join_chunks numbers]
  refine ⟨rfl, hcalls.exists_join, hcalls.outcome_eq_none_iff,
    fun before call after => hcalls.last_of_refused, hcalls.join_eq, fun limit => ?_⟩
  rw [Bounded.run_feed]
  refine ⟨String.empty_append, ?_⟩
  split <;> simp_all

end SyntaxTree
