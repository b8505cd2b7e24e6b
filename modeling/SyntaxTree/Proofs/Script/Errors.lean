import SyntaxTree.Proofs.Script.Run

/-! # Errors in scripts

The errors that a script answers are decided by its steps alone: an operator is looked up, and a
tree or a configuration is read, before anything is taken from the stack or put in place. So a step
that answers an error changes nothing, and a script runs as before without its failing steps. No
configuration in force is above the cap. -/

namespace SyntaxTree

namespace PrintConfig

/-- The builder lets no precision through that is above the cap. -/
theorem valid_of_withFloatPrecision {config result : PrintConfig} {precision : Nat}
    (h : config.withFloatPrecision precision = .ok result) : result.Valid := by
  obtain ⟨rfl, hvalid⟩ := validated_eq_ok_iff.1 h
  exact hvalid

theorem valid_of_ofToml {source : String} {result : PrintConfig} (h : ofToml source = .ok result) :
    result.Valid := by
  rw [ofToml_eq] at h
  split at h
  · cases h
  · split at h
    · obtain ⟨rfl, hvalid⟩ := validated_eq_ok_iff.1 h
      exact hvalid
    · cases h

end PrintConfig

namespace Script

/-- The answer is an error of the library. -/
def Answer.isError : Answer → Bool
  | .refused (.error _) => true
  | _ => false

/-- The steps of a script that are not answered by an error. -/
def accepted (steps : List Step) (answers : List Answer) : List Step :=
  ((steps.zip answers).filter fun answered => !answered.2.isError).map Prod.fst

/-- The error of a result, if it is one. -/
def failure? {ε α : Type} : Except ε α → Option ε
  | .ok _ => none
  | .error error => some error

/-- The error that a step answers, in whatever state the machine is. -/
def Step.error? : Step → Option Error
  | .unary op => failure? op.unary
  | .binary op => failure? op.binary
  | .fromJson sort source => failure? ((Node.ofJson sort source).mapError .malformed)
  | .precision value => failure? ((PrintConfig.default.withFloatPrecision value).mapError .config)
  | .toml source => failure? ((PrintConfig.ofToml source).mapError .config)
  | _ => none

/-! ## Taking nodes -/

section Pop

variable {α β : Type}

/-- The computation has no error of its own: it can only miss a node. -/
def Errorless (pop : Pop α) : Prop :=
  ∀ stack error, (pop.run.run stack).1 ≠ .error (.error error)

theorem errorless_pure (a : α) : Errorless (pure a : Pop α) := by
  intro stack error h
  cases h

/-- A computation made of two has no error of its own if neither has. -/
theorem Errorless.bind {pop : Pop α} {next : α → Pop β} (hpop : Errorless pop)
    (hnext : ∀ a, Errorless (next a)) : Errorless (pop >>= next) := by
  intro stack error
  have hfirst := hpop stack error
  rw [run_bind]
  generalize pop.run.run stack = outcome at *
  obtain ⟨refusal | a, rest⟩ := outcome
  · intro h
    exact hfirst (congrArg Except.error (Except.error.inj h))
  · exact hnext a rest error

/-- An expression that is missing is a misuse and no error. -/
theorem errorless_popExpr : Errorless popExpr := by
  intro stack error h
  match stack with
  | .expr _ :: _ => cases h
  | .typeSpec _ :: _ => cases h
  | [] => cases h

theorem errorless_popType : Errorless popType := by
  intro stack error h
  match stack with
  | .expr _ :: _ => cases h
  | .typeSpec _ :: _ => cases h
  | [] => cases h

theorem errorless_popMany {pop : Pop α} (h : Errorless pop) (count : Nat) (taken : List α) :
    Errorless (popMany pop count taken) := by
  induction count generalizing taken with
  | zero => exact errorless_pure taken
  | succ count ih => exact h.bind fun item => ih (item :: taken)

end Pop

/-! ## One step -/

/-- What a step that answers no error does to the configuration. -/
def CarriedOut (state : State) (result : Answer × State) : Prop :=
  result.1.isError = false ∧ (result.2.config = state.config ∨ result.2.config.Valid)

section Step

variable (state : State)

/-- A step that builds a node leaves the configuration alone, whether the stack suffices or not. -/
theorem carriedOut_construct {step : Step} (h : Errorless (build step)) :
    CarriedOut state (state.construct step) := by
  have hbuild := h state.stack
  unfold State.construct
  generalize (build step).run.run state.stack = outcome at *
  obtain ⟨(error | _) | node, below⟩ := outcome
  · exact absurd rfl (hbuild error)
  · exact ⟨rfl, .inl rfl⟩
  · exact ⟨rfl, .inl rfl⟩

/-- A step that checks a result first fails with the error of the result, before it takes a node. -/
theorem construct_checked {α : Type} {step : Step} {result : Except Error α} {next : α → Pop Node}
    (hbuild : build step = checked result >>= next) (hnext : ∀ a, Errorless (next a)) :
    match failure? result with
    | some error => state.construct step = (.refused (.error error), state)
    | none => CarriedOut state (state.construct step) := by
  cases result with
  | error error =>
      change state.construct step = _
      unfold State.construct
      rw [hbuild]
      rfl
  | ok a =>
      refine carriedOut_construct state ?_
      rw [hbuild]
      exact (errorless_pure a).bind hnext

/-- A load either fails and changes nothing, or leaves a configuration within the cap. -/
theorem configure_loaded {loaded : Except PrintConfig.LoadError PrintConfig}
    (hvalid : ∀ config, loaded = .ok config → config.Valid) :
    match failure? (loaded.mapError Error.config) with
    | some error => state.configure loaded = (.refused (.error error), state)
    | none => CarriedOut state (state.configure loaded) := by
  cases loaded with
  | error cause => rfl
  | ok config => exact ⟨rfl, .inr (hvalid config rfl)⟩

/-- The error of a step is its answer in every state, and then the state stays as it is. -/
theorem step_error? (step : Step) :
    match step.error? with
    | some error => state.step step = (.refused (.error error), state)
    | none => CarriedOut state (state.step step) := by
  have leaf (node : Node) : Errorless (pure node) := errorless_pure node
  have expr {α : Type} {next : Expr → Pop α} (h : ∀ e, Errorless (next e)) :
      Errorless (popExpr >>= next) := errorless_popExpr.bind h
  have type {α : Type} {next : TypeSpec → Pop α} (h : ∀ t, Errorless (next t)) :
      Errorless (popType >>= next) := errorless_popType.bind h
  cases step with
  | int | float | str | name | compound | typeName => exact carriedOut_construct state (leaf _)
  | cast => exact carriedOut_construct state (expr fun _ => type fun _ => leaf _)
  | call args =>
      exact carriedOut_construct state
        ((errorless_popMany errorless_popExpr args []).bind fun _ => expr fun _ => leaf _)
  | index => exact carriedOut_construct state (expr fun _ => expr fun _ => leaf _)
  | field => exact carriedOut_construct state (expr fun _ => leaf _)
  | unary op => exact construct_checked state rfl fun _ => expr fun _ => leaf _
  | binary op => exact construct_checked state rfl fun _ => expr fun _ => expr fun _ => leaf _
  | ternary =>
      exact carriedOut_construct state (expr fun _ => expr fun _ => expr fun _ => leaf _)
  | pointer => exact carriedOut_construct state (type fun _ => leaf _)
  | array => exact carriedOut_construct state (expr fun _ => type fun _ => leaf _)
  | function args =>
      exact carriedOut_construct state
        (type fun _ => (errorless_popMany errorless_popType args []).bind fun _ => leaf _)
  | fromJson sort source => exact construct_checked state (bind_pure _).symm leaf
  | precision value =>
      exact configure_loaded state fun _ => PrintConfig.valid_of_withFloatPrecision
  | toml source => exact configure_loaded state fun _ => PrintConfig.valid_of_ofToml
  | dup | drop | display | toJson | emit =>
      obtain ⟨_ | _, config, buffer⟩ := state <;> exact ⟨rfl, .inl rfl⟩
  | swap | eq => obtain ⟨_ | ⟨_, _ | _⟩, config, buffer⟩ := state <;> exact ⟨rfl, .inl rfl⟩

end Step

/-! ## Runs -/

/-- What a step does to the state: nothing if it answers an error. -/
theorem step_of_isError {state : State} {step : Step} (h : (state.step step).1.isError = true) :
    (state.step step).2 = state := by
  have hstep := step_error? state step
  split at hstep
  · rw [hstep]
  · rw [hstep.1] at h
    cases h

/-- One step keeps the precision within the cap. -/
theorem valid_step {state : State} (h : state.config.Valid) (step : Step) :
    (state.step step).2.config.Valid := by
  have hstep := step_error? state step
  split at hstep
  · rw [hstep]
    exact h
  · rcases hstep.2 with heq | hvalid
    · rw [heq]
      exact h
    · exact hvalid

theorem valid_run {state : State} (h : state.config.Valid) (steps : List Step) :
    (run state steps).2.config.Valid := by
  induction steps generalizing state with
  | nil => exact h
  | cons step rest ih => exact ih (valid_step h step)

/-- The first step is kept exactly if its answer is no error. -/
theorem accepted_cons (step : Step) (rest : List Step) (answer : Answer) (answers : List Answer) :
    accepted (step :: rest) (answer :: answers) =
      if answer.isError then accepted rest answers else step :: accepted rest answers := by
  unfold accepted
  rw [List.zip_cons_cons, List.filter_cons]
  cases answer.isError with
  | true => simp
  | false => simp

/-- A script without the steps that are answered by an error, by induction on the script: the first
step either leaves the state as it is or is run in both scripts. -/
theorem run_accepted (state : State) (steps : List Step) :
    run state (accepted steps (run state steps).1) =
      ((run state steps).1.filter fun answer => !answer.isError, (run state steps).2) := by
  induction steps generalizing state with
  | nil => rfl
  | cons step rest ih =>
      rw [run_cons, accepted_cons]
      cases h : (state.step step).1.isError with
      | true =>
          rw [step_of_isError h, if_pos rfl, ih state]
          simp [h]
      | false =>
          rw [if_neg Bool.false_ne_true, run_cons, ih]
          simp [h]

/-- In every state that a script reaches the precision is within the cap and a step that answers an
error changes nothing, and the script without the steps that answered an error gives the other
answers and the same state. -/
theorem errors_leave_no_trace (steps : List Step) :
    (run .initial steps).2.config.floatPrecision ≤ 17 ∧
    (∀ step, ((run .initial steps).2.step step).1.isError = true →
      ((run .initial steps).2.step step).2 = (run .initial steps).2) ∧
    run .initial (accepted steps (run .initial steps).1) =
      ((run .initial steps).1.filter fun answer => !answer.isError, (run .initial steps).2) := by
  refine ⟨?_, ?_, ?_⟩
  · exact valid_run PrintConfig.default_valid steps
  · intro step h
    exact step_of_isError h
  · exact run_accepted .initial steps

/-- An unknown operator is refused while a node is on the stack, and so is a precision of 40. -/
theorem errors_leave_no_trace_refused :
    ((run .initial [.int 7, .unary (.code '@')]).2.step (.precision 40)).1.isError = true ∧
    ((run .initial [.int 7, .unary (.code '@')]).2.step (.precision 40)).2 =
      (run .initial [.int 7, .unary (.code '@')]).2 ∧
    accepted [.int 7, .unary (.code '@')] (run .initial [.int 7, .unary (.code '@')]).1 = [.int 7] ∧
    (run .initial [.int 7]).2 = (run .initial [.int 7, .unary (.code '@')]).2 := by
  have herror : ((run .initial [.int 7, .unary (.code '@')]).2.step (.precision 40)).1.isError =
      true := by
    decide
  have hkept : accepted [.int 7, .unary (.code '@')]
      (run .initial [.int 7, .unary (.code '@')]).1 = [.int 7] := by
    decide
  obtain ⟨-, hstep, hrun⟩ := errors_leave_no_trace [.int 7, .unary (.code '@')]
  rw [hkept] at hrun
  have hfinal := congrArg Prod.snd hrun
  exact ⟨herror, hstep _ herror, hkept, hfinal⟩

end Script

end SyntaxTree
