import SyntaxTree.Proofs.Json.EndOfInput
import SyntaxTree.Proofs.Text.Agreement

/-! # How far readers look

A run reaches up to the offset of its located fault, or up to where it stopped. What it does depends
only on the bytes up to there and one more: a run over another text that agrees so far does the
same. The rules follow the operations of readers. The two runs may have different bounds on their
loops, as long as each bound is no less than what its text has left. -/

namespace SyntaxTree

namespace Text.Cursor

variable {c d : Cursor} {text : List Char}

theorem Passes.offset_le (h : c.Passes text d) : c.offset ≤ d.offset :=
  h.offset_eq ▸ Nat.le_add_right _ _

theorem Passes.offset_le_finish (h : c.Passes text d) : d.offset ≤ c.finish :=
  h.finish_eq ▸ Nat.le_add_right _ _

theorem Passes.length_le (h : c.Passes text d) : d.rest.length ≤ c.rest.length :=
  h.length_eq ▸ Nat.le_add_left _ _

/-- Moving on passes one character, or none at the end. -/
theorem passes_next (c : Cursor) : ∃ text, c.Passes text c.next := by
  cases hc : c.rest with
  | nil => exact ⟨[], passes_nil.2 (by rw [next, hc])⟩
  | cons x rest => exact ⟨[x], passes_singleton.2 ⟨by rw [hc]; rfl, rfl⟩⟩

theorem passes_dropWhile (test : Char → Bool) (c : Cursor) :
    c.Passes (c.rest.takeWhile test) (c.dropWhile test) :=
  ⟨List.takeWhile_append_dropWhile.symm, rfl⟩

theorem length_next_lt (hc : c.rest ≠ []) : c.next.rest.length < c.rest.length := by
  obtain ⟨x, rest, hx⟩ := List.exists_cons_of_ne_nil hc
  simp [next, hx]

end Text.Cursor

namespace Json

open Text (Cursor Alike)
open Text.Cursor (Shares)
open Reader

variable {α β : Type}

/-! ## Single runs -/

/-- The offset up to which the outcome of a run is known to depend on the text. -/
def reach : Except Fault α × Cursor → Nat
  | (.ok _, stop) => stop.offset
  | (.error fault, stop) => fault.offset.getD stop.offset

/-- The run goes forward, and what it reaches lies within the text that was left. -/
structure Onward (c : Cursor) (outcome : Except Fault α × Cursor) : Prop where
  passes : ∃ text, c.Passes text outcome.2
  le_reach : c.offset ≤ reach outcome
  reach_le : reach outcome ≤ c.finish

/-- Every run of the reader goes forward. -/
def Forward (r : Reader α) : Prop := ∀ c, Onward c (r.on c)

namespace Onward

variable {c m stop : Cursor} {text : List Char} {a : α}

/-- A run that succeeds reaches the place where it stopped. -/
theorem of_passes (h : c.Passes text stop) : Onward c (Except.ok a, stop) :=
  ⟨⟨text, h⟩, h.offset_le, h.offset_le_finish⟩

/-- What runs on from where a run stopped runs on from where that one began. -/
theorem trans {outcome : Except Fault β × Cursor} (h : Onward c (Except.ok a, m))
    (h' : Onward m outcome) : Onward c outcome := by
  obtain ⟨text, hm⟩ := h.passes
  obtain ⟨text', hstop⟩ := h'.passes
  exact ⟨⟨_, hm.trans hstop⟩, Nat.le_trans hm.offset_le h'.le_reach, hm.finish_eq ▸ h'.reach_le⟩

/-- A fault stays where it is reported, and the run may go on after it. -/
theorem after {fault : Fault} (h : Onward c ((.error fault, m) : Except Fault α × Cursor))
    (hm : m.Passes text stop) : Onward c ((.error fault, stop) : Except Fault β × Cursor) := by
  obtain ⟨text', hc⟩ := h.passes
  have hall := hc.trans hm
  refine ⟨⟨_, hall⟩, ?_, ?_⟩
  · cases hfault : fault.offset with
    | none => simpa [reach, hfault] using hall.offset_le
    | some k => simpa [reach, hfault] using h.le_reach
  · cases hfault : fault.offset with
    | none => simpa [reach, hfault] using hall.offset_le_finish
    | some k => simpa [reach, hfault] using h.reach_le

end Onward

/-- What locating a reader makes of its outcome. -/
def locate (outcome : Except Fault α × Cursor) : Except Fault α × Cursor :=
  (outcome.1.mapError (Fault.locate outcome.2.offset), outcome.2)

theorem on_located (r : Reader α) (c : Cursor) : (located r).on c = locate (r.on c) := rfl

/-- Locating a fault does not change how far the run reaches: a fault without a place counts as one
where the run stopped. -/
theorem reach_locate (outcome : Except Fault α × Cursor) :
    reach (locate outcome) = reach outcome := by
  rcases outcome with ⟨⟨cause, _ | k⟩ | a, stop⟩ <;> rfl

theorem Onward.locate {c : Cursor} {outcome : Except Fault α × Cursor} (h : Onward c outcome) :
    Onward c (locate outcome) :=
  ⟨h.passes, reach_locate outcome ▸ h.le_reach, reach_locate outcome ▸ h.reach_le⟩

section Enclosed

variable {r : Reader α} {close : Reader Unit} {c m : Cursor}

/-- After a fault of the contents the end of the bracket only locates it. -/
theorem on_enclosed_error {fault : Fault} (h : r.on c = (.error fault, m)) :
    (enclosed r close).on c = locate (.error fault, (close.on m).2) := by
  rw [enclosed, on_located, on_ofStep, h]

/-- Where the contents of a bracket were read, only its close is left to run. -/
theorem on_enclosed_ok {a : α} (h : r.on c = (.ok a, m)) :
    (enclosed r close).on c = (located (do close; pure a)).on m := by
  rw [enclosed, on_located, on_located, on_ofStep, h, on_bind]
  dsimp only
  rcases close.on m with ⟨fault | ⟨⟩, stop⟩ <;> rfl

end Enclosed

section Forward

theorem forward_pure (a : α) : Forward (pure a) := fun _ =>
  .of_passes (Cursor.passes_nil.2 rfl)

theorem forward_advance : Forward advance := fun c => .of_passes c.passes_next.choose_spec

/-- A run of characters goes to the first one that fails the test. -/
theorem forward_takeWhile (test : Char → Bool) : Forward (takeWhile test) := fun c =>
  .of_passes (c.passes_dropWhile test)

theorem forward_failShape (mismatch : Shape.Mismatch) :
    Forward (failShape mismatch : Reader α) := fun _ =>
  ⟨⟨[], Cursor.passes_nil.2 rfl⟩, Nat.le_refl _, Nat.le_add_right _ _⟩

theorem forward_failHere (cause : Cause) : Forward (failHere cause : Reader α) := fun _ =>
  ⟨⟨[], Cursor.passes_nil.2 rfl⟩, Nat.le_refl _, Nat.le_add_right _ _⟩

/-- The fault lies one byte on, or at the end if nothing is left. -/
theorem forward_failAhead (cause : Cause) : Forward (failAhead cause : Reader α) := by
  intro c
  have hreach : reach ((failAhead cause : Reader α).on c) =
      if c.rest.isEmpty then c.offset else c.offset + 1 := rfl
  refine ⟨⟨[], Cursor.passes_nil.2 rfl⟩, ?_, ?_⟩
  · rw [hreach]
    split <;> omega
  · rw [hreach, Cursor.finish]
    cases c.rest with
    | nil => exact Nat.le_add_right _ _
    | cons x rest =>
        have hsize := x.utf8Size_pos
        rw [Text.byteLength_cons, List.isEmpty_cons, if_neg Bool.false_ne_true]
        omega

variable {r : Reader α}

/-- Of two readers in a row the second runs on from the first. -/
theorem Forward.bind {f : α → Reader β} (hr : Forward r) (hf : ∀ a, Forward (f a)) :
    Forward (r >>= f) := by
  intro c
  have h := hr c
  rw [on_bind]
  rcases hrun : r.on c with ⟨fault | a, m⟩
  · rw [hrun] at h
    exact h.after (Cursor.passes_nil.2 rfl)
  · rw [hrun] at h
    exact h.trans (hf a m)

theorem forward_peek_bind {f : Option Char → Reader β} (hf : ∀ x, Forward (f x)) :
    Forward (peek >>= f) := fun c => on_peek_bind f c ▸ hf c.rest.head? c

theorem forward_remaining_bind {f : Nat → Reader β} (hf : ∀ n, Forward (f n)) :
    Forward (remaining >>= f) := fun c => on_remaining_bind f c ▸ hf c.rest.length c

theorem Forward.located (hr : Forward r) : Forward (located r) := fun c => (hr c).locate

/-- The close runs from where the contents stopped, whether they failed or not. -/
theorem Forward.enclosed {close : Reader Unit} (hr : Forward r) (hclose : Forward close) :
    Forward (enclosed r close) := by
  intro c
  have h := hr c
  rcases hrun : r.on c with ⟨fault | a, m⟩
  · rw [hrun] at h
    obtain ⟨text, hm⟩ := (hclose m).passes
    rw [on_enclosed_error hrun]
    exact (h.after hm).locate
  · rw [hrun] at h
    rw [on_enclosed_ok hrun]
    exact h.trans ((hclose.bind fun _ => forward_pure a).located m)

end Forward

/-! ## Two runs -/

/-- The outcomes of two runs over texts that agree up to `e`: they are the same, and what is left
agrees if the run may go on there. Located faults are the same wherever the runs have stopped. -/
inductive Mirrors (e : Nat) : Except Fault α × Cursor → Except Fault α × Cursor → Prop
  | ok {a : α} {d d' : Cursor} : Shares e d d' → Mirrors e (.ok a, d) (.ok a, d')
  | unlocated {cause : Cause} {d d' : Cursor} :
      Shares e d d' → Mirrors e (.error ⟨cause, none⟩, d) (.error ⟨cause, none⟩, d')
  | located {cause : Cause} {k : Nat} {d d' : Cursor} :
      Mirrors e (.error ⟨cause, some k⟩, d) (.error ⟨cause, some k⟩, d')

/-- What the first reader reaches decides the run of the second. The readers differ in the bounds
of their loops, and `n` and `n'` say how much text the bounds are good for. -/
structure Local (n n' : Nat) (r r' : Reader α) : Prop where
  forward : Forward r
  forward' : Forward r'
  mirrors : ∀ {e c c'}, Shares e c c' → c.rest.length ≤ n → c'.rest.length ≤ n' →
    reach (r.on c) < e → Mirrors e (r.on c) (r'.on c')

/-- A reader without bounds. -/
def Steady (r : Reader α) : Prop := ∀ n n', Local n n' r r

/-- Two runs that mirror each other still do when their faults are located. -/
theorem Mirrors.locate {e : Nat} {o o' : Except Fault α × Cursor} (h : Mirrors e o o') :
    Mirrors e (locate o) (locate o') := by
  cases h with
  | ok h => exact .ok h
  | unlocated h =>
      have heq := h.offset_eq
      simp only [Json.locate, mapError_error, Fault.locate, Option.none_or, heq]
      exact .located
  | located => exact .located

section Rules

variable {n n' k k' : Nat} {r r' : Reader α}

theorem Local.mono (h : Local n n' r r') (hk : k ≤ n) (hk' : k' ≤ n') : Local k k' r r' where
  forward := h.forward
  forward' := h.forward'
  mirrors := fun hs hn hn' => h.mirrors hs (Nat.le_trans hn hk) (Nat.le_trans hn' hk')

/-- No run starts at the end of a text that goes on. -/
theorem local_zero {cause : Cause} (hr' : Forward r') :
    Local 0 n' (failAhead cause : Reader α) r' where
  forward := forward_failAhead cause
  forward' := hr'
  mirrors := by
    intro e c c' hs hn _ he
    obtain ⟨x, rest, hx⟩ :=
      hs.exists_cons (Nat.lt_of_le_of_lt (forward_failAhead cause c).le_reach he)
    simp [hx] at hn

/-- With nothing left on the other side there is no text to agree on. -/
theorem local_zero_right {cause : Cause} (hr : Forward r) :
    Local n 0 r (failAhead cause : Reader α) where
  forward := hr
  forward' := forward_failAhead cause
  mirrors := by
    intro e c c' hs _ hn' he
    obtain ⟨x, rest, hx⟩ := hs.symm.exists_cons
      (hs.offset_eq ▸ Nat.lt_of_le_of_lt (hr c).le_reach he)
    simp [hx] at hn'

/-- The second part of a sequence sees no more text than `k` and `k'`. -/
theorem Local.bind_within {f f' : α → Reader β} (hr : Local n n' r r')
    (hk : ∀ {c a m}, r.Reads c a m → c.rest ≠ [] → c.rest.length ≤ n → m.rest.length ≤ k)
    (hk' : ∀ {c a m}, r'.Reads c a m → c.rest ≠ [] → c.rest.length ≤ n' → m.rest.length ≤ k')
    (hf : ∀ a, Local k k' (f a) (f' a)) : Local n n' (r >>= f) (r' >>= f') where
  forward := hr.forward.bind fun a => (hf a).forward
  forward' := hr.forward'.bind fun a => (hf a).forward'
  mirrors := by
    intro e c c' hs hn hn' he
    have hlt := Nat.lt_of_le_of_lt ((hr.forward.bind fun a => (hf a).forward) c).le_reach he
    rw [on_bind] at he ⊢
    rw [on_bind]
    rcases hrun : r.on c with ⟨fault | a, m⟩
    · rw [hrun] at he
      have h := hr.mirrors hs hn hn' (hrun ▸ he)
      rw [hrun] at h
      generalize r'.on c' = outcome at h
      cases h with
      | unlocated h => exact .unlocated h
      | located => exact .located
    · rw [hrun] at he
      have hm : m.offset < e := Nat.lt_of_le_of_lt ((hf a).forward m).le_reach he
      have h := hr.mirrors hs hn hn' (hrun ▸ hm)
      rw [hrun] at h
      generalize hrun' : r'.on c' = outcome at h
      cases h with
      | ok h =>
          obtain ⟨x, rest, hx⟩ := hs.exists_cons hlt
          obtain ⟨y, rest', hy⟩ := hs.symm.exists_cons (hs.offset_eq ▸ hlt)
          exact (hf a).mirrors h (hk hrun (by simp [hx]) hn) (hk' hrun' (by simp [hy]) hn') he

theorem Forward.length_le {c m : Cursor} {a : α} (hr : Forward r) (h : r.Reads c a m) :
    m.rest.length ≤ c.rest.length := by
  obtain ⟨text, hm⟩ := (hr c).passes
  rw [h] at hm
  exact hm.length_le

/-- The rule for two readers in a row: either the first one fails within the common text, or it
stops there, and the second one begins in texts that agree. -/
theorem Local.bind {f f' : α → Reader β} (hr : Local n n' r r')
    (hf : ∀ a, Local n n' (f a) (f' a)) : Local n n' (r >>= f) (r' >>= f') :=
  hr.bind_within (fun h _ hn => Nat.le_trans (hr.forward.length_le h) hn)
    (fun h _ hn => Nat.le_trans (hr.forward'.length_le h) hn) hf

/-- The reader takes something wherever there is something to take. -/
def Consumes (r : Reader α) : Prop :=
  ∀ {c a m}, r.Reads c a m → c.rest ≠ [] → m.rest.length < c.rest.length

/-- What is read first uses up one step of the bounds. -/
theorem Local.bind_consumes {f f' : α → Reader β} (hr : Local (n + 1) (n' + 1) r r')
    (hc : Consumes r) (hc' : Consumes r') (hf : ∀ a, Local n n' (f a) (f' a)) :
    Local (n + 1) (n' + 1) (r >>= f) (r' >>= f') :=
  hr.bind_within (fun h hne hn => Nat.le_of_lt_succ (Nat.lt_of_lt_of_le (hc h hne) hn))
    (fun h hne hn => Nat.le_of_lt_succ (Nat.lt_of_lt_of_le (hc' h hne) hn)) hf

theorem steady_pure (a : α) : Steady (pure a) := fun _ _ => {
  forward := forward_pure a
  forward' := forward_pure a
  mirrors := fun hs _ _ _ => .ok hs }

theorem Local.map (h : Local n n' r r') (f : α → β) : Local n n' (f <$> r) (f <$> r') := by
  rw [map_eq_pure_bind, map_eq_pure_bind]
  exact h.bind fun a => steady_pure (f a) n n'

theorem steady_failHere (cause : Cause) : Steady (failHere cause : Reader α) := fun _ _ => {
  forward := forward_failHere cause
  forward' := forward_failHere cause
  mirrors := by
    intro e c c' hs _ _ _
    change Mirrors e (.error ⟨cause, some c.offset⟩, c) (.error ⟨cause, some c'.offset⟩, c')
    rw [hs.offset_eq]
    exact .located }

/-- A fault at the next byte is found by that byte alone. -/
theorem steady_failAhead (cause : Cause) : Steady (failAhead cause : Reader α) := fun _ _ => {
  forward := forward_failAhead cause
  forward' := forward_failAhead cause
  mirrors := by
    intro e c c' hs _ _ he
    have hlt := Nat.lt_of_le_of_lt (forward_failAhead cause c).le_reach he
    obtain ⟨x, rest, hx⟩ := hs.exists_cons hlt
    obtain ⟨y, rest', hy⟩ := hs.symm.exists_cons (hs.offset_eq ▸ hlt)
    change Mirrors e (.error ⟨cause, some (if c.rest.isEmpty then c.offset else c.offset + 1)⟩, c)
      (.error ⟨cause, some (if c'.rest.isEmpty then c'.offset else c'.offset + 1)⟩, c')
    rw [hx, hy, hs.offset_eq]
    exact .located }

/-- Readers whose bounds decrease step by step agree, whatever their bounds are. -/
theorem local_of_step {σ : Type} {r : Nat → σ → Reader α} {cause : Cause}
    (hzero : ∀ s, r 0 s = failAhead cause)
    (hstep : ∀ n n', (∀ s, Local n n' (r n s) (r n' s)) →
      ∀ s, Local (n + 1) (n' + 1) (r (n + 1) s) (r (n' + 1) s))
    (n n' : Nat) (s : σ) : Local n n' (r n s) (r n' s) := by
  have hdiagonal : ∀ n s, Local n n (r n s) (r n s) := by
    intro n
    induction n with
    | zero => exact fun s => hzero s ▸ steady_failAhead cause 0 0
    | succ n ih => exact hstep n n ih
  induction n generalizing n' s with
  | zero => exact hzero s ▸ local_zero (hdiagonal n' s).forward
  | succ n ih =>
      cases n' with
      | zero => exact hzero s ▸ local_zero_right (hdiagonal (n + 1) s).forward
      | succ n' => exact hstep n n' (ih n') s

theorem steady_failShape (mismatch : Shape.Mismatch) :
    Steady (failShape mismatch : Reader α) := fun _ _ => {
  forward := forward_failShape mismatch
  forward' := forward_failShape mismatch
  mirrors := fun hs _ _ _ => .unlocated hs }

theorem steady_advance : Steady advance := fun _ _ => {
  forward := forward_advance
  forward' := forward_advance
  mirrors := by
    intro e c c' hs _ _ he
    exact .ok (hs.next (Nat.lt_of_le_of_lt (forward_advance c).le_reach he) (Nat.le_of_lt he)) }

/-- A test that only ASCII passes is decided by one byte, because no part of a longer character
passes it. -/
theorem steady_takeWhile {test : Char → Bool} (htest : ∀ x, test x = true → x.toNat < 0x80) :
    Steady (takeWhile test) := fun _ _ => {
  forward := forward_takeWhile test
  forward' := forward_takeWhile test
  mirrors := by
    intro e c c' hs _ _ he
    obtain ⟨htake, hdrop⟩ := hs.dropWhile htest he
    change Mirrors e (.ok (c.rest.takeWhile test), c.dropWhile test)
      (.ok (c'.rest.takeWhile test), c'.dropWhile test)
    rw [htake]
    exact .ok hdrop }

/-- A fault that is located lies where the run stopped. -/
theorem Local.located (h : Local n n' r r') : Local n n' (located r) (located r') where
  forward := h.forward.located
  forward' := h.forward'.located
  mirrors := by
    intro e c c' hs hn hn' he
    rw [on_located, reach_locate] at he
    rw [on_located, on_located]
    exact (h.mirrors hs hn hn' he).locate

/-- The count of what is left differs between the texts. It serves as a bound only, so it is enough
that the readers agree at all bounds. -/
theorem Local.remaining_bind {f f' : Nat → Reader α}
    (hf : ∀ k, Forward (f k)) (hf' : ∀ k, Forward (f' k))
    (h : ∀ k k', k ≤ n → k' ≤ n' → Local k k' (f k) (f' k')) :
    Local n n' (remaining >>= f) (remaining >>= f') where
  forward := forward_remaining_bind hf
  forward' := forward_remaining_bind hf'
  mirrors := by
    intro e c c' hs hn hn' he
    rw [on_remaining_bind] at he ⊢
    rw [on_remaining_bind]
    exact (h _ _ hn hn').mirrors hs (Nat.le_refl _) (Nat.le_refl _) he

/-! ## Looking at a character -/

/-- The reader does not tell one character outside ASCII from another. -/
def Blind (f : Char → Reader α) : Prop := ∃ r, ∀ x : Char, 0x80 ≤ x.toNat → f x = r

/-- A character that is not ASCII is none of the signs of the format. -/
theorem ne_of_high {x : Char} (hx : 0x80 ≤ x.toNat) (c : Char) (hc : c.toNat < 0x80) : x ≠ c := by
  rintro rfl
  omega

/-- The second run sees the character that the first one sees, as far as it can tell. -/
theorem on_peek_bind_of_shares {f : Option Char → Reader α} (hblind : Blind fun x => f (some x))
    {e : Nat} {c c' : Cursor} (hs : Shares e c c') (hlt : c.offset < e) :
    (peek >>= f).on c' = (f c.rest.head?).on c' := by
  obtain ⟨x, y, hx, hy, halike⟩ := hs.exists_head hlt
  rw [on_peek_bind, hx, hy]
  cases halike with
  | same => rfl
  | high hhigh hhigh' =>
      obtain ⟨r, hr⟩ := hblind
      have hsame : f (some y) = f (some x) := (hr y hhigh').trans (hr x hhigh).symm
      rw [hsame]

/-- A look at the next character sees its first byte. Two characters that begin with the same byte
are the same or both not ASCII, and then the reader must be blind to which they are. -/
theorem Local.peek_bind {f f' : Option Char → Reader α} (hblind : Blind fun x => f' (some x))
    (h : ∀ next, Local n n' (f next) (f' next)) : Local n n' (peek >>= f) (peek >>= f') where
  forward := forward_peek_bind fun next => (h next).forward
  forward' := forward_peek_bind fun next => (h next).forward'
  mirrors := by
    intro e c c' hs hn hn' he
    have hforward : Forward (peek >>= f) := forward_peek_bind fun next => (h next).forward
    rw [on_peek_bind_of_shares hblind hs (Nat.lt_of_le_of_lt (hforward c).le_reach he)]
    rw [on_peek_bind] at he ⊢
    exact (h c.rest.head?).mirrors hs hn hn' he

theorem valueStart_bind (f : Char → Reader α) :
    (valueStart >>= f) = skipBlanks >>= fun _ => peek >>= fun
      | none => failAhead (.endOfInput .value)
      | some c => f c := by
  rw [valueStart, bind_assoc]
  refine congrArg _ (funext fun _ => ?_)
  rw [bind_assoc]
  refine congrArg _ (funext fun next => ?_)
  cases next <;> rfl

/-- What is left bounds the reader. -/
theorem steady_of_within {r : Nat → Reader α} (hr : ∀ n n', Local n n' (r n) (r n')) :
    Steady (remaining >>= r) := fun _ _ =>
  .remaining_bind (fun k => (hr k k).forward) (fun k => (hr k k).forward) fun k k' _ _ => hr k k'

end Rules

namespace Steady

variable {r : Reader α}

theorem forward (h : Steady r) : Forward r := (h 0 0).forward

theorem bind {f : α → Reader β} (hr : Steady r) (hf : ∀ a, Steady (f a)) : Steady (r >>= f) :=
  fun n n' => (hr n n').bind fun a => hf a n n'

theorem map (h : Steady r) (f : α → β) : Steady (f <$> r) := fun n n' => (h n n').map f

theorem located (h : Steady r) : Steady (located r) := fun n n' => (h n n').located

theorem peek_bind {f : Option Char → Reader α} (hblind : Blind fun x => f (some x))
    (h : ∀ next, Steady (f next)) : Steady (peek >>= f) :=
  fun n n' => .peek_bind hblind fun next => h next n n'

end Steady

/-- Blanks are ASCII. -/
theorem isBlank_lt {x : Char} (h : isBlank x = true) : x.toNat < 0x80 := by
  rw [isBlank_iff] at h
  rcases h with rfl | rfl | rfl | rfl <;> decide

theorem isDigit_lt {x : Char} (h : isDigit x = true) : x.toNat < 0x80 := by
  simp only [isDigit, Bool.and_eq_true, decide_eq_true_eq] at h
  exact Nat.lt_of_le_of_lt (show x.toNat ≤ '9'.toNat from h.2) (by decide)

theorem isDigit_of_high {x : Char} (hx : 0x80 ≤ x.toNat) : isDigit x = false :=
  Bool.eq_false_iff.2 fun h => Nat.not_lt.2 hx (isDigit_lt h)

theorem steady_skipBlanks : Steady skipBlanks :=
  (steady_takeWhile fun _ => isBlank_lt).bind fun _ => steady_pure ()

theorem Local.valueStart_bind {n n' : Nat} {f f' : Char → Reader α} (hblind : Blind f')
    (h : ∀ x, Local n n' (f x) (f' x)) : Local n n' (valueStart >>= f) (valueStart >>= f') := by
  rw [Json.valueStart_bind, Json.valueStart_bind]
  refine (steady_skipBlanks n n').bind fun _ => ?_
  refine .peek_bind hblind fun next => ?_
  cases next with
  | none => exact steady_failAhead _ n n'
  | some x => exact h x

theorem Steady.valueStart_bind {f : Char → Reader α} (hblind : Blind f)
    (h : ∀ x, Steady (f x)) : Steady (valueStart >>= f) :=
  fun n n' => .valueStart_bind hblind fun x => h x n n'

/-! ## Progress -/

section Consumes

theorem consumes_advance : Consumes advance := by
  intro c _ m h hne
  obtain rfl := reads_advance.1 h
  exact Cursor.length_next_lt hne

theorem consumes_failAhead (cause : Cause) : Consumes (failAhead cause : Reader α) :=
  fun h _ => absurd h not_reads_failAhead

variable {r : Reader α} {f : α → Reader β}

/-- What follows a reader that takes a character takes no character back. -/
theorem Consumes.bind (hr : Consumes r) (hf : ∀ a, Forward (f a)) : Consumes (r >>= f) := by
  intro c b d h hne
  obtain ⟨a, m, hm, hd⟩ := reads_bind.1 h
  exact Nat.lt_of_le_of_lt ((hf a).length_le hd) (hr hm hne)

theorem Consumes.map (hr : Consumes r) (g : α → β) : Consumes (g <$> r) := by
  rw [map_eq_pure_bind]
  exact hr.bind fun a => forward_pure (g a)

/-- After the blanks there is something to take, or the reader fails. -/
theorem consumes_sign {cause : Cause} {f : Option Char → Reader α}
    (hnone : f none = failAhead cause) (hf : ∀ x, Consumes (f (some x))) :
    Consumes (skipBlanks >>= fun _ => peek >>= f) := by
  intro c a d h hne
  obtain ⟨_, m, hm, h⟩ := reads_bind.1 h
  have hle := steady_skipBlanks.forward.length_le hm
  rw [reads_peek_bind] at h
  cases hrest : m.rest with
  | nil =>
      rw [hrest, List.head?_nil, hnone] at h
      exact absurd h not_reads_failAhead
  | cons x rest =>
      rw [hrest, List.head?_cons] at h
      exact Nat.lt_of_lt_of_le (hf x h (by simp [hrest])) hle

end Consumes

/-! ## Ends of brackets -/

/-- The reader of the end of a bracket: where it stops is decided too, even if it fails there. -/
structure Ends (r : Reader α) : Prop where
  steady : Steady r
  settles : ∀ {e c c'}, Shares e c c' → (r.on c).2.offset < e →
    (r.on c').2.offset = (r.on c).2.offset

namespace Ends

theorem failAhead (cause : Cause) : Ends (failAhead cause : Reader α) :=
  ⟨steady_failAhead cause, fun hs _ => hs.offset_eq⟩

theorem advance : Ends advance where
  steady := steady_advance
  settles := by
    intro e c c' hs he
    have hle := (forward_advance c).le_reach
    exact (hs.next (Nat.lt_of_le_of_lt hle he) (Nat.le_of_lt he)).offset_eq

theorem peek_bind {f : Option Char → Reader α} (hblind : Blind fun x => f (some x))
    (h : ∀ next, Ends (f next)) : Ends (peek >>= f) where
  steady := .peek_bind hblind fun next => (h next).steady
  settles := by
    intro e c c' hs he
    have hforward : Forward (peek >>= f) := forward_peek_bind fun next => (h next).steady.forward
    obtain ⟨text, hpass⟩ := (hforward c).passes
    rw [on_peek_bind_of_shares hblind hs (Nat.lt_of_le_of_lt hpass.offset_le he)]
    rw [on_peek_bind] at he ⊢
    exact (h c.rest.head?).settles hs he

/-- The first part always succeeds. -/
theorem bind {r : Reader β} {f : β → Reader α} (hr : Steady r)
    (hreads : ∀ c, ∃ a m, r.Reads c a m) (h : ∀ a, Ends (f a)) : Ends (r >>= f) where
  steady := hr.bind fun a => (h a).steady
  settles := by
    intro e c c' hs he
    obtain ⟨a, m, hrun⟩ := hreads c
    rw [on_bind_of_reads hrun] at he ⊢
    obtain ⟨text, hpass⟩ := ((h a).steady.forward m).passes
    have hlt : reach (r.on c) < e := hrun ▸ Nat.lt_of_le_of_lt hpass.offset_le he
    have hmirrors := (hr _ _).mirrors hs (Nat.le_refl _) (Nat.le_refl _) hlt
    rw [hrun] at hmirrors
    generalize hrun' : r.on c' = outcome at hmirrors
    cases hmirrors with
    | @ok _ _ m' hm =>
        rw [on_bind_of_reads hrun']
        exact (h a).settles hm he

theorem advance_bind {f : Unit → Reader α} (h : ∀ a, Ends (f a)) : Ends (Json.advance >>= f) :=
  .bind steady_advance (fun _ => ⟨(), _, rfl⟩) h

theorem skipBlanks_bind {f : Unit → Reader α} (h : ∀ a, Ends (f a)) : Ends (skipBlanks >>= f) :=
  .bind steady_skipBlanks (fun _ => ⟨(), _, rfl⟩) h

end Ends

/-- The fault of the contents is located where the end of the bracket stops, if not before. -/
theorem Local.enclosed {n n' : Nat} {r r' : Reader α} {close : Reader Unit}
    (hr : Local n n' r r') (hclose : Ends close) :
    Local n n' (enclosed r close) (enclosed r' close) where
  forward := hr.forward.enclosed (hclose.steady n n').forward
  forward' := hr.forward'.enclosed (hclose.steady n n').forward
  mirrors := by
    intro e c c' hs hn hn' he
    rcases hrun : r.on c with ⟨⟨cause, _ | k⟩ | a, m⟩
    · rw [on_enclosed_error hrun] at he ⊢
      rw [reach_locate] at he
      obtain ⟨text, hm⟩ := ((hclose.steady n n').forward m).passes
      have hlt : reach (r.on c) < e := hrun ▸ Nat.lt_of_le_of_lt hm.offset_le he
      have h := hr.mirrors hs hn hn' hlt
      rw [hrun] at h
      generalize hrun' : r'.on c' = outcome at h
      cases h with
      | @unlocated _ _ m' h =>
          have heq : (close.on m').2.offset = (close.on m).2.offset := hclose.settles h he
          rw [on_enclosed_error hrun']
          simp only [Json.locate, mapError_error, Fault.locate, Option.none_or, heq]
          exact .located
    · rw [on_enclosed_error hrun] at he ⊢
      rw [reach_locate] at he
      have h := hr.mirrors hs hn hn' (hrun ▸ he)
      rw [hrun] at h
      generalize hrun' : r'.on c' = outcome at h
      cases h with
      | located =>
          rw [on_enclosed_error hrun']
          exact .located
    · rw [on_enclosed_ok hrun] at he ⊢
      have hend : Local m.rest.length c'.rest.length (Json.located (do close; pure a))
          (Json.located (do close; pure a)) :=
        ((hclose.steady _ _).bind fun _ => steady_pure a _ _).located
      have hlt : reach (r.on c) < e := hrun ▸ Nat.lt_of_le_of_lt (hend.forward m).le_reach he
      have h := hr.mirrors hs hn hn' hlt
      rw [hrun] at h
      generalize hrun' : r'.on c' = outcome at h
      cases h with
      | ok h =>
          rw [on_enclosed_ok hrun']
          exact hend.mirrors h (Nat.le_refl _) (hr.forward'.length_le hrun') he

end Json

end SyntaxTree
