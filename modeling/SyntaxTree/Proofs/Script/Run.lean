import Mathlib.Data.List.Induction
import SyntaxTree.Script

/-! # Runs of scripts

A run of a script followed by another, and what a computation takes from the stack. -/

namespace SyntaxTree

namespace Script

theorem run_cons (state : State) (step : Step) (rest : List Step) :
    run state (step :: rest) = ((state.step step).1 :: (run (state.step step).2 rest).1,
      (run (state.step step).2 rest).2) := rfl

/-- A script may be cut anywhere: the rest runs from the state that the front leaves. -/
theorem run_append (state : State) (steps rest : List Step) :
    run state (steps ++ rest) = ((run state steps).1 ++ (run (run state steps).2 rest).1,
      (run (run state steps).2 rest).2) := by
  induction steps generalizing state with
  | nil => rfl
  | cons step steps ih => rw [List.cons_append, run_cons, run_cons, ih, List.cons_append]

section Pop

variable {α β : Type}

/-- The second computation takes its nodes from what the first has left. -/
theorem run_bind (pop : Pop α) (next : α → Pop β) (stack : List Node) :
    (pop >>= next).run.run stack =
      match pop.run.run stack with
      | (.ok a, rest) => (next a).run.run rest
      | (.error refusal, rest) => (.error refusal, rest) := by
  change (ExceptT.bindCont next (pop.run.run stack).1).run (pop.run.run stack).2 = _
  rcases pop.run.run stack with ⟨_ | _, rest⟩ <;> rfl

/-- Taking as many items as lie on top of the stack gives them in the order they were pushed in. -/
theorem run_popMany {pop : Pop α} {node : α → Node}
    (hpop : ∀ a below, pop.run.run (node a :: below) = (.ok a, below)) (items taken : List α)
    (below : List Node) :
    (popMany pop items.length taken).run.run ((items.map node).reverse ++ below) =
      (.ok (items ++ taken), below) := by
  induction items using List.reverseRecOn generalizing taken with
  | nil => rfl
  | append_singleton items a ih =>
      rw [List.length_append, List.length_singleton, popMany, List.map_append, List.map_singleton,
        List.reverse_append, List.reverse_singleton, List.singleton_append, List.cons_append,
        run_bind, hpop]
      change (popMany pop items.length (a :: taken)).run.run _ = _
      rw [ih, List.append_assoc, List.singleton_append]

end Pop

end Script

end SyntaxTree
