import SyntaxTree.Json.Record

/-! # Successful runs

A run that succeeds goes from one cursor to a later one and gives a value. Each operation of the
readers is described here by the runs it has, so that a reader is taken apart without unfolding
the state and the faults under it. -/

namespace SyntaxTree

namespace Text.Cursor

/-- `text` is what lies between the two places. -/
structure Passes (c : Cursor) (text : List Char) (d : Cursor) : Prop where
  rest_eq : c.rest = text ++ d.rest
  offset_eq : d.offset = c.offset + byteLength text

@[simp] theorem passes_nil {c d : Cursor} : c.Passes [] d ↔ c = d := by
  constructor
  · rintro ⟨hr, ho⟩
    cases c
    cases d
    simp_all
  · rintro rfl
    exact ⟨rfl, rfl⟩

/-- A text in two parts is passed by way of a place between them. -/
theorem passes_append {c d : Cursor} {a b : List Char} :
    c.Passes (a ++ b) d ↔ ∃ m, c.Passes a m ∧ m.Passes b d := by
  constructor
  · rintro ⟨hr, ho⟩
    refine ⟨⟨b ++ d.rest, c.offset + byteLength a⟩, ⟨?_, rfl⟩, ⟨rfl, ?_⟩⟩
    · rw [hr, List.append_assoc]
    · rw [ho, byteLength_append, Nat.add_assoc]
  · rintro ⟨m, ⟨hr, ho⟩, ⟨hr', ho'⟩⟩
    refine ⟨?_, ?_⟩
    · rw [hr, hr', List.append_assoc]
    · rw [ho', ho, byteLength_append, Nat.add_assoc]

theorem Passes.trans {c m d : Cursor} {a b : List Char} (h : c.Passes a m) (h' : m.Passes b d) :
    c.Passes (a ++ b) d := passes_append.2 ⟨m, h, h'⟩

theorem passes_cons {c d : Cursor} {x : Char} {text : List Char} :
    c.Passes (x :: text) d ↔ ∃ m, c.Passes [x] m ∧ m.Passes text d :=
  passes_append (a := [x])

/-- One character is passed by moving on, if it comes next. -/
theorem passes_singleton {c d : Cursor} {x : Char} :
    c.Passes [x] d ↔ c.rest.head? = some x ∧ d = c.next := by
  obtain ⟨rest, offset⟩ := c
  obtain ⟨rest', offset'⟩ := d
  cases rest with
  | nil =>
      constructor
      · rintro ⟨hr, -⟩
        simp at hr
      · rintro ⟨hr, -⟩
        simp at hr
  | cons y rest =>
      constructor
      · rintro ⟨hr, ho⟩
        simp_all [next]
      · rintro ⟨hr, hd⟩
        simp only [List.head?_cons, Option.some.injEq] at hr
        simp only [next, mk.injEq] at hd
        subst hr
        exact ⟨by simp [hd.1], by simp [hd.2]⟩

/-- What is left before is what is passed and what is left after. -/
theorem Passes.length_eq {c d : Cursor} {text : List Char} (h : c.Passes text d) :
    c.rest.length = text.length + d.rest.length := by
  rw [h.rest_eq, List.length_append]

end Text.Cursor

namespace Json

open Text (Cursor byteLength)

theorem mapError_ok {α ε : Type} (f : Fault → ε) (a : α) :
    (Except.ok a).mapError f = .ok a := rfl

theorem mapError_error {α ε : Type} (f : Fault → ε) (fault : Fault) :
    (Except.error fault : Except Fault α).mapError f = .error (f fault) := rfl

namespace Reader

variable {α β : Type}

/-- The reader succeeds from `c` with the value `a` and stops at `d`. -/
def Reads (r : Reader α) (c : Cursor) (a : α) (d : Cursor) : Prop := r.on c = (.ok a, d)

/-- A run has one outcome. -/
theorem Reads.unique {r : Reader α} {c d e : Cursor} {a b : α} (h : r.Reads c a d)
    (h' : r.Reads c b e) : a = b ∧ d = e := by
  have h := h.symm.trans h'
  simp only [Prod.mk.injEq, Except.ok.injEq] at h
  exact h

@[simp] theorem reads_pure {a b : α} {c d : Cursor} :
    (pure a : Reader α).Reads c b d ↔ b = a ∧ d = c := by
  change ((Except.ok a, c) : Except Fault α × Cursor) = _ ↔ _
  simp only [Prod.mk.injEq, Except.ok.injEq, eq_comm]

/-- A step succeeds as its function says. -/
@[simp] theorem reads_ofStep {step : Cursor → Except Fault α × Cursor} {a : α} {c d : Cursor} :
    (ofStep step).Reads c a d ↔ step c = (.ok a, d) := Iff.rfl

theorem on_ofStep (step : Cursor → Except Fault α × Cursor) (c : Cursor) :
    (ofStep step).on c = step c := rfl

/-- The second reader runs where the first one stopped, unless it failed. -/
theorem on_bind (r : Reader α) (f : α → Reader β) (c : Cursor) :
    (r >>= f).on c =
      match r.on c with
      | (.ok a, m) => (f a).on m
      | (.error fault, m) => (.error fault, m) := by
  change ExceptT.bindCont f (r.on c).1 (r.on c).2 = _
  rcases r.on c with ⟨_ | a, m⟩ <;> rfl

/-- After a run that succeeds the reading goes on where it stopped. -/
theorem on_bind_of_reads {r : Reader α} {f : α → Reader β} {a : α} {c m : Cursor}
    (h : r.Reads c a m) : (r >>= f).on c = (f a).on m := by
  rw [on_bind, h]

/-- After a fault nothing more is read. -/
theorem on_bind_of_fault {r : Reader α} {f : α → Reader β} {fault : Fault} {c m : Cursor}
    (h : r.on c = (.error fault, m)) : (r >>= f).on c = (.error fault, m) := by
  rw [on_bind, h]

/-- A look at the next character hands it on. -/
theorem on_peek_bind (f : Option Char → Reader β) (c : Cursor) :
    (peek >>= f).on c = (f c.rest.head?).on c := on_bind_of_reads rfl

/-- The rest of the text is counted in place. -/
theorem on_remaining_bind (f : Nat → Reader β) (c : Cursor) :
    (remaining >>= f).on c = (f c.rest.length).on c := on_bind_of_reads rfl

/-- One step on, whatever stood there. -/
theorem on_advance_bind (f : Unit → Reader β) (c : Cursor) :
    (advance >>= f).on c = (f ()).on c.next := on_bind_of_reads rfl

theorem on_pure (a : α) (c : Cursor) : (pure a : Reader α).on c = (.ok a, c) := rfl

/-- Two readers in a row succeed by way of a place between them. -/
@[simp] theorem reads_bind {r : Reader α} {f : α → Reader β} {b : β} {c d : Cursor} :
    (r >>= f).Reads c b d ↔ ∃ a m, r.Reads c a m ∧ (f a).Reads m b d := by
  unfold Reads
  rw [on_bind]
  rcases r.on c with ⟨fault | a, m⟩
  · simp
  · simp only [Prod.mk.injEq, Except.ok.injEq]
    constructor
    · intro h
      exact ⟨a, m, ⟨rfl, rfl⟩, h⟩
    · rintro ⟨a', m', ⟨rfl, rfl⟩, h⟩
      exact h

/-- What is made of a value is read where the value is. -/
@[simp] theorem reads_map {r : Reader α} {f : α → β} {b : β} {c d : Cursor} :
    (f <$> r).Reads c b d ↔ ∃ a, r.Reads c a d ∧ b = f a := by
  rw [map_eq_pure_bind, reads_bind]
  constructor
  · rintro ⟨a, m, h, h'⟩
    rw [reads_pure] at h'
    exact ⟨a, h'.2 ▸ h, h'.1⟩
  · rintro ⟨a, h, rfl⟩
    exact ⟨a, d, h, reads_pure.2 ⟨rfl, rfl⟩⟩

/-- Looking at the next character leaves the place as it is. -/
@[simp] theorem reads_peek {a : Option Char} {c d : Cursor} :
    peek.Reads c a d ↔ a = c.rest.head? ∧ d = c := by
  simp only [peek, reads_ofStep, Prod.mk.injEq, Except.ok.injEq, eq_comm]

@[simp] theorem reads_advance {u : Unit} {c d : Cursor} : advance.Reads c u d ↔ d = c.next := by
  simp only [advance, reads_ofStep, Prod.mk.injEq, true_and, eq_comm]

/-- Looking at the next character moves nothing. -/
theorem reads_peek_bind {f : Option Char → Reader β} {b : β} {c d : Cursor} :
    (peek >>= f).Reads c b d ↔ (f c.rest.head?).Reads c b d := by
  rw [Reads, on_peek_bind, Reads]

theorem reads_advance_bind {f : Unit → Reader β} {b : β} {c d : Cursor} :
    (advance >>= f).Reads c b d ↔ (f ()).Reads c.next b d := by
  rw [Reads, on_advance_bind, Reads]

theorem reads_remaining_bind {f : Nat → Reader β} {b : β} {c d : Cursor} :
    (remaining >>= f).Reads c b d ↔ (f c.rest.length).Reads c b d := by
  rw [Reads, on_remaining_bind, Reads]

/-- A reader that fails reads nothing; so for the other two ways to fail. -/
@[simp] theorem not_reads_failHere {cause : Cause} {a : α} {c d : Cursor} :
    ¬ (failHere cause : Reader α).Reads c a d := by
  simp [failHere]

@[simp] theorem not_reads_failAhead {cause : Cause} {a : α} {c d : Cursor} :
    ¬ (failAhead cause : Reader α).Reads c a d := by
  simp [failAhead]

@[simp] theorem not_reads_failShape {mismatch : Shape.Mismatch} {a : α} {c d : Cursor} :
    ¬ (failShape mismatch : Reader α).Reads c a d := by
  simp [failShape]

/-- A fault that is located stays a fault, so success does not change. -/
@[simp] theorem reads_located {r : Reader α} {a : α} {c d : Cursor} :
    (located r).Reads c a d ↔ r.Reads c a d := by
  simp only [located, reads_ofStep]
  unfold Reads
  rcases r.on c with ⟨_ | a, m⟩ <;> simp [mapError_ok, mapError_error]

/-- A bracket succeeds if its contents and then its close do. -/
@[simp] theorem reads_enclosed {r : Reader α} {close : Reader Unit} {a : α} {c d : Cursor} :
    (enclosed r close).Reads c a d ↔ ∃ m, r.Reads c a m ∧ close.Reads m () d := by
  simp only [enclosed, reads_located, reads_ofStep]
  unfold Reads
  rcases r.on c with ⟨fault | x, m⟩
  · simp
  · simp only [Prod.mk.injEq, Except.ok.injEq]
    constructor
    · intro h
      refine ⟨m, ⟨?_, rfl⟩, ?_⟩ <;> rcases hc : close.on m with ⟨_ | _, e⟩ <;> simp_all
    · rintro ⟨m', ⟨rfl, rfl⟩, h⟩
      simp [h]

end Reader

end Json

end SyntaxTree
