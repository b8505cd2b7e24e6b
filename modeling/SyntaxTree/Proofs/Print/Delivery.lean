import Mathlib.Algebra.GroupWithZero.Nat
import Mathlib.Logic.Relation
import SyntaxTree.Print.Delivery
import SyntaxTree.Proofs.Text.Utf8

/-! # Deliveries call by call

A delivery goes from one write call to the next and loses, repeats and reorders nothing on the way.
It ends with the whole text, or at the first answer that refuses while something is left. -/

namespace SyntaxTree

namespace Response

/-- The error with which the answer ends a delivery, if it does. -/
def refusal? : Response → Option DeliveryError
  | .accept 0 => some .writeZero
  | .accept (_ + 1) => none
  | .interrupted => none
  | .failure reason => some (.failure reason)

/-- How much the answer takes of an offer that is long enough. -/
def capacity : Response → Nat
  | .accept count => count
  | .interrupted => 0
  | .failure _ => 0

end Response

namespace Delivery

open Relation (ReflTransGen)

/-! ## Write calls -/

/-- A delivery between two write calls. -/
structure Progress where
  accepted : List UInt8
  left : List UInt8
  responses : List Response
  calls : Nat

/-- Nothing has been offered yet. -/
def Progress.start (responses : List Response) (bytes : List UInt8) : Progress :=
  ⟨[], bytes, responses, 0⟩

/-- One write call that the delivery goes on after. -/
inductive Step : Progress → Progress → Prop
  | answered {accepted left : List UInt8} {response : Response} {responses : List Response}
      {calls : Nat} : left ≠ [] → response.refusal? = none →
      Step ⟨accepted, left, response :: responses, calls⟩
        ⟨accepted ++ left.take response.capacity, left.drop response.capacity, responses, calls + 1⟩
  | unscripted {accepted left : List UInt8} {calls : Nat} : left ≠ [] →
      Step ⟨accepted, left, [], calls⟩ ⟨accepted ++ left, [], [], calls + 1⟩

/-- What the delivery leaves behind when it ends here. No call is made when nothing is left, and
the call that is refused is the last. -/
inductive Ends : Progress → Delivery → Prop
  | whole {accepted : List UInt8} {responses : List Response} {calls : Nat} :
      Ends ⟨accepted, [], responses, calls⟩ ⟨.ok (), accepted, calls⟩
  | refused {accepted left : List UInt8} {response : Response} {responses : List Response}
      {calls : Nat} {cause : DeliveryError} : left ≠ [] → response.refusal? = some cause →
      Ends ⟨accepted, left, response :: responses, calls⟩ ⟨.error cause, accepted, calls + 1⟩

variable {responses before after : List Response} {response : Response} {cause : DeliveryError}
  {bytes left : List UInt8}

theorem Ends.accepted_eq {p : Progress} {d : Delivery} (h : Ends p d) :
    d.accepted = p.accepted := by
  cases h <;> rfl

/-- One call moves bytes from what is left to what is accepted and loses none. -/
theorem Step.conserves {p q : Progress} (h : Step p q) :
    q.accepted ++ q.left = p.accepted ++ p.left := by
  cases h with
  | answered => rw [List.append_assoc, List.take_append_drop]
  | unscripted => rw [List.append_nil]

/-- At every moment the bytes that were taken and those that are left are the text. -/
theorem accepted_append_left {p : Progress}
    (h : ReflTransGen Step (.start responses bytes) p) : p.accepted ++ p.left = bytes := by
  induction h with
  | refl => rfl
  | tail _ hstep ih => exact hstep.conserves.trans ih

/-- What a delivery leaves behind that has come to `p` and goes on from there. -/
def Progress.finish (p : Progress) : Delivery :=
  let rest := run p.responses p.left
  ⟨rest.outcome, p.accepted ++ rest.accepted, p.calls + rest.calls⟩

theorem run_nil (responses : List Response) : run responses [] = ⟨.ok (), [], 0⟩ := by
  cases responses <;> rfl

/-- An answer that refuses ends the delivery of what is left. -/
theorem run_refused (hleft : left ≠ []) (h : response.refusal? = some cause) :
    run (response :: responses) left = ⟨.error cause, [], 1⟩ := by
  obtain ⟨byte, left, rfl⟩ := List.exists_cons_of_ne_nil hleft
  cases response with
  | accept count =>
      cases count with
      | zero =>
          obtain rfl := Option.some.inj h
          rfl
      | succ count => exact absurd h (by simp [Response.refusal?])
  | interrupted => exact absurd h (by simp [Response.refusal?])
  | failure reason =>
      obtain rfl := Option.some.inj h
      rfl

/-- An answer that does not refuse takes what it can, and the delivery goes on with the rest. -/
theorem run_answered (hleft : left ≠ []) (h : response.refusal? = none) :
    run (response :: responses) left =
      Delivery.after (left.take response.capacity) (run responses (left.drop response.capacity)) := by
  obtain ⟨byte, left, rfl⟩ := List.exists_cons_of_ne_nil hleft
  cases response with
  | accept count =>
      cases count with
      | zero => exact absurd h (by simp [Response.refusal?])
      | succ count => rfl
  | interrupted => rfl
  | failure reason => exact absurd h (by simp [Response.refusal?])

/-- A sink without further answers takes everything. -/
theorem run_unscripted (hleft : left ≠ []) : run [] left = ⟨.ok (), left, 1⟩ := by
  obtain ⟨byte, left, rfl⟩ := List.exists_cons_of_ne_nil hleft
  rfl

/-- Every delivery comes to an end, and leaves behind what it has come to. -/
theorem exists_ends (responses : List Response) (p : Progress) (hp : p.responses = responses) :
    ∃ last, ReflTransGen Step p last ∧ Ends last p.finish := by
  induction responses generalizing p with
  | nil =>
      obtain ⟨accepted, left, responses, calls⟩ := p
      obtain rfl : responses = [] := hp
      rcases eq_or_ne left [] with rfl | hleft
      · exact ⟨_, .refl, by simpa [Progress.finish, run_nil] using Ends.whole⟩
      · refine ⟨_, .single (.unscripted hleft), ?_⟩
        simpa [Progress.finish, run_unscripted hleft] using Ends.whole
  | cons response responses ih =>
      obtain ⟨accepted, left, _, calls⟩ := p
      subst hp
      rcases eq_or_ne left [] with rfl | hleft
      · exact ⟨_, .refl, by simpa [Progress.finish, run_nil] using Ends.whole⟩
      · cases h : response.refusal? with
        | some cause =>
            refine ⟨_, .refl, ?_⟩
            simpa [Progress.finish, run_refused hleft h] using Ends.refused hleft h
        | none =>
            obtain ⟨last, hlast, hends⟩ := ih ⟨accepted ++ left.take response.capacity,
              left.drop response.capacity, responses, calls + 1⟩ rfl
            refine ⟨last, .head (.answered hleft h) hlast, ?_⟩
            simpa [Progress.finish, run_answered hleft h, Delivery.after, Nat.add_assoc,
              Nat.add_comm 1] using hends

/-! ## Refusals -/

/-- What the answers take together of an offer that is long enough. -/
def capacity (responses : List Response) : Nat := (responses.map Response.capacity).sum

/-- The first answer that refuses comes after those of `before`, and before all of `size` bytes are
taken. -/
structure Refused (responses : List Response) (size : Nat) (before : List Response)
    (cause : DeliveryError) : Prop where
  split : ∃ response after, responses = before ++ response :: after ∧
    response.refusal? = some cause
  willing : ∀ response ∈ before, response.refusal? = none
  unfinished : capacity before < size

/-- The answers that do not refuse take the front of the text. -/
theorem run_append (hwilling : ∀ response ∈ before, response.refusal? = none)
    (hsize : capacity before < bytes.length) :
    run (before ++ after) bytes =
      (Progress.mk (bytes.take (capacity before)) (bytes.drop (capacity before)) after
        before.length).finish := by
  induction before generalizing bytes with
  | nil => simp [capacity, Progress.finish]
  | cons response before ih =>
      obtain ⟨hresponse, hwilling⟩ := List.forall_mem_cons.1 hwilling
      have hcapacity : capacity (response :: before) = response.capacity + capacity before := rfl
      have hne : bytes ≠ [] := List.ne_nil_of_length_pos (by omega)
      have hrest : capacity before < (bytes.drop response.capacity).length := by
        rw [List.length_drop]
        omega
      rw [List.cons_append, run_answered hne hresponse, ih hwilling hrest, hcapacity]
      simp only [Progress.finish, Delivery.after, List.take_add, List.drop_drop, List.length_cons,
        List.append_assoc, mk.injEq, true_and]
      omega

/-- At a refusal, what came before it has been accepted, and the refused call is the last. -/
theorem run_of_refused (h : Refused responses bytes.length before cause) :
    run responses bytes =
      ⟨.error cause, bytes.take (capacity before), before.length + 1⟩ := by
  obtain ⟨⟨response, after, rfl, hresponse⟩, hwilling, hsize⟩ := h
  have hleft : bytes.drop (capacity before) ≠ [] :=
    List.ne_nil_of_length_pos (by rw [List.length_drop]; omega)
  rw [run_append hwilling hsize]
  simp [Progress.finish, run_refused hleft hresponse]

/-- Without such an answer the whole text is taken. -/
theorem run_of_not_refused (h : ∀ before cause, ¬ Refused responses bytes.length before cause) :
    (run responses bytes).outcome = .ok () ∧ (run responses bytes).accepted = bytes := by
  induction responses generalizing bytes with
  | nil =>
      rcases eq_or_ne bytes [] with rfl | hne
      · exact ⟨rfl, rfl⟩
      · rw [run_unscripted hne]
        exact ⟨rfl, rfl⟩
  | cons response responses ih =>
      rcases eq_or_ne bytes [] with rfl | hne
      · rw [run_nil]
        exact ⟨rfl, rfl⟩
      · have hpos := List.length_pos_of_ne_nil hne
        have hresponse : response.refusal? = none := by
          cases hr : response.refusal? with
          | none => rfl
          | some cause =>
              have hnone : ∀ r ∈ ([] : List Response), r.refusal? = none := by simp
              exact absurd ⟨⟨response, responses, rfl, hr⟩, hnone, hpos⟩ (h [] cause)
        -- What refuses later refuses already here, after one more answer.
        have hlater : ∀ before cause,
            ¬ Refused responses (bytes.drop response.capacity).length before cause := by
          rintro before cause ⟨⟨r, after, rfl, hr⟩, hwilling, hsize⟩
          refine h (response :: before) cause ⟨⟨r, after, rfl, hr⟩, ?_, ?_⟩
          · exact List.forall_mem_cons.2 ⟨hresponse, hwilling⟩
          · have hcapacity : capacity (response :: before) = response.capacity + capacity before := rfl
            rw [List.length_drop] at hsize
            omega
        obtain ⟨hok, hall⟩ := ih hlater
        rw [run_answered hne hresponse]
        exact ⟨hok, by rw [Delivery.after, hall, List.take_append_drop]⟩

theorem Refused.accepted_ne (h : Refused responses bytes.length before cause) :
    (run responses bytes).accepted ≠ bytes := by
  intro hall
  have hlength := congrArg List.length hall
  rw [run_of_refused h, List.length_take] at hlength
  have := h.unfinished
  omega

/-- Success means that everything has been accepted, and nothing else. -/
theorem outcome_eq_ok_iff :
    (run responses bytes).outcome = .ok () ↔ (run responses bytes).accepted = bytes := by
  by_cases h : ∃ before cause, Refused responses bytes.length before cause
  · obtain ⟨before, cause, h⟩ := h
    have hne := h.accepted_ne
    simp [run_of_refused h] at hne ⊢
    exact hne
  · simp only [not_exists] at h
    obtain ⟨hok, hall⟩ := run_of_not_refused h
    exact iff_of_true hok hall

/-- Failure means that a refusal came before everything was accepted. -/
theorem outcome_eq_error_iff :
    (run responses bytes).outcome = .error cause ↔
      ∃ before, Refused responses bytes.length before cause := by
  constructor
  · intro herror
    by_contra h
    have hnone : ∀ before cause, ¬ Refused responses bytes.length before cause := by
      intro before cause' h'
      have heq : cause' = cause := by simpa [run_of_refused h'] using herror
      exact h ⟨before, heq ▸ h'⟩
    rw [(run_of_not_refused hnone).1] at herror
    exact absurd herror (by simp)
  · rintro ⟨before, h⟩
    rw [run_of_refused h]

end Delivery

/-! ## Printing -/

/-- Printing to a sink delivers the bytes of the text. -/
theorem Node.delivery_print (config : PrintConfig) (responses : List Response) (node : Node) :
    (node.print config responses).delivery =
      Delivery.run responses (node.text config).toUTF8.toList := by
  simp only [Node.print]
  split <;> rfl

/-- The log opens with the kind of the node, and closes with the size of its text exactly if the
text was delivered. -/
theorem Node.log_print (config : PrintConfig) (responses : List Response) (node : Node) :
    (node.print config responses).log =
      .printing node.sort node.kindLabel ::
        match (node.print config responses).delivery.outcome with
        | .ok () => [.printed node.sort (node.text config).utf8ByteSize]
        | .error _ => [] := by
  simp only [Node.print, Text.length_toUTF8]
  split
  · next h => rw [h]
  · next h => rw [h]

open Delivery Relation in
/-- A node is delivered to the byte sink without loss, repetition or change of order. The delivery
fails with the cause of the first refusal that comes before the whole text is taken, after which no
call is made, and otherwise delivers all of it and logs its size. -/
theorem Node.print_delivers (config : PrintConfig) (responses : List Response) (node : Node) :
    let bytes := (node.text config).toUTF8.toList
    let printing := node.print config responses
    let delivery := printing.delivery
    let opening := LogRecord.printing node.sort node.kindLabel
    (∀ p, ReflTransGen Step (.start responses bytes) p → p.accepted ++ p.left = bytes) ∧
    (∃ last, ReflTransGen Step (.start responses bytes) last ∧ Ends last delivery) ∧
    delivery.accepted <+: bytes ∧
    (delivery.outcome = .ok () ↔ delivery.accepted = bytes) ∧
    (∀ cause, delivery.outcome = .error cause ↔
      ∃ before, Refused responses bytes.length before cause) ∧
    (∀ before cause, Refused responses bytes.length before cause →
      delivery.accepted = bytes.take (capacity before) ∧ delivery.calls = before.length + 1) ∧
    (node.text config = "" → delivery.calls = 0) ∧
    (delivery.outcome = .ok () →
      printing.log = [opening, .printed node.sort (node.text config).utf8ByteSize]) ∧
    (delivery.outcome ≠ .ok () → printing.log = [opening]) := by
  intro bytes printing delivery opening
  have hdelivery : delivery = run responses bytes := node.delivery_print config responses
  have hlog := node.log_print config responses
  obtain ⟨last, hlast, hends⟩ := exists_ends responses (.start responses bytes) rfl
  have hfinish : (Progress.start responses bytes).finish = delivery := by
    simp [hdelivery, Progress.finish, Progress.start]
  rw [hfinish] at hends
  refine ⟨fun p => accepted_append_left, ⟨last, hlast, hends⟩, ?_, ?_, ?_, ?_, ?_, ?_, ?_⟩
  · rw [hends.accepted_eq, ← accepted_append_left hlast]
    exact List.prefix_append _ _
  · rw [hdelivery]
    exact outcome_eq_ok_iff
  · rw [hdelivery]
    exact fun cause => outcome_eq_error_iff
  · intro before cause h
    rw [hdelivery, run_of_refused h]
    exact ⟨rfl, rfl⟩
  · intro h
    have hempty : bytes = [] := by simp [bytes, h, Text.toList_toUTF8]
    rw [hdelivery, hempty, run_nil]
  · intro h
    rw [hlog, h]
  · intro h
    rw [hlog]
    cases hresult : delivery.outcome with
    | ok => exact absurd hresult h
    | error cause => rfl

end SyntaxTree
