import SyntaxTree.Proofs.Json.StringLookahead

/-! # How far values look

Scalars, lists, objects and values of any shape look no further than they reach, if their parts do
not. A loop is bounded by what is left of the text, so that the loops of two runs may have different
bounds; each turn takes a character, which keeps the bounds good enough. -/

namespace SyntaxTree

namespace Json

open Reader

variable {α : Type}

/-! ## Scalars -/

/-- The first letter of a bare word is taken with the dispatch, and the word looks no further than
its own letters. -/
theorem steady_wordFrom (text : List Char) (htext : ∀ c ∈ text, c.toNat < 0x80) (r : Reader α)
    (hr : Steady r) : Steady (do advance; word text; r) :=
  steady_advance.bind fun _ => (steady_word text htext).bind fun _ => hr

/-- Finding out what stands in the place of an expected value reads that value as far as it would be
read there. -/
theorem steady_wrongType (expected : String) : Steady (wrongType expected : Reader α) := by
  refine Steady.located (.peek_bind ⟨failAhead .expectedValue, fun x hx => ?_⟩ fun next => ?_)
  · simp [ne_of_high hx, isDigit_of_high hx]
  · split
    · exact steady_wordFrom _ (by simp) _ (steady_failShape _)
    · exact steady_wordFrom _ (by simp) _ (steady_failShape _)
    · exact steady_wordFrom _ (by simp) _ (steady_failShape _)
    · exact steady_string.bind fun _ => steady_failShape _
    · exact steady_failShape _
    · exact steady_failShape _
    · split
      · exact steady_number.bind fun _ => steady_failShape _
      · exact steady_failAhead _
    · exact steady_failAhead _

theorem steady_text : Steady text := by
  refine .valueStart_bind ⟨wrongType "a string", fun x hx => ?_⟩ fun x => ?_
  · simp [ne_of_high hx]
  · split
    · exact steady_string
    · exact steady_wrongType _

theorem steady_null : Steady null := by
  refine .valueStart_bind ⟨wrongType "unit", fun x hx => ?_⟩ fun x => ?_
  · simp [ne_of_high hx]
  · split
    · exact steady_advance.bind fun _ => steady_word _ (by simp)
    · exact steady_wrongType _

/-- A natural number ends with the first character that is no digit, which is the one byte more. -/
theorem steady_natural (expected : String) : Steady (natural expected) := by
  refine .valueStart_bind ⟨wrongType expected, fun x hx => ?_⟩ fun x => ?_
  · simp [ne_of_high hx, isDigit_of_high hx]
  · split
    · refine (steady_number.bind fun n => ?_).located
      split
      · exact steady_pure _
      · exact steady_failShape _
      · exact steady_failShape _
    · exact steady_wrongType _

/-! ## Loops -/

section Loops

variable {n n' : Nat} {item item' : Reader α}

/-- A list that fails does so inside one of its items or at a sign between two of them. -/
theorem forward_elements (hitem : Forward item) (bound : Nat) (first : Bool) :
    Forward (elements item bound first) := by
  induction bound generalizing first with
  | zero => exact forward_failAhead _
  | succ bound ih =>
      refine (steady_nextElement first).forward.bind fun more => ?_
      split
      · exact hitem.bind fun _ => (ih false).bind fun _ => forward_pure _
      · exact forward_pure _

/-- The bounds of the two loops differ, but each exceeds what its text has left, so neither ends a
list. The induction is on the first bound. -/
theorem local_elements (hitem : Local n n' item item') (hc : Consumes item) (hc' : Consumes item')
    {k k' : Nat} (hk : k ≤ n) (hk' : k' ≤ n') (first : Bool) :
    Local k k' (elements item k first) (elements item' k' first) := by
  induction k generalizing k' first with
  | zero => exact local_zero (forward_elements hitem.forward' k' first)
  | succ k ih =>
      cases k' with
      | zero => exact local_zero_right (forward_elements hitem.forward (k + 1) first)
      | succ k' =>
          refine (steady_nextElement first _ _).bind fun more => ?_
          split
          · refine (hitem.mono hk hk').bind_consumes hc hc' fun value => ?_
            refine (ih (Nat.le_of_succ_le hk) (Nat.le_of_succ_le hk') false).bind fun values => ?_
            exact steady_pure _ _ _
          · exact steady_pure _ _ _

theorem Forward.listOf (hitem : Forward item) : Forward (listOf item) :=
  forward_remaining_bind fun k =>
    (forward_elements hitem k true).enclosed ends_closeList.steady.forward

/-- An item takes at least one character, so the bounds of the loops do not show. -/
theorem Local.listOf (hitem : Local n n' item item') (hc : Consumes item) (hc' : Consumes item') :
    Local n n' (listOf item) (listOf item') := by
  refine .remaining_bind (fun k => ?_) (fun k => ?_) fun k k' hk hk' => ?_
  · exact (forward_elements hitem.forward k true).enclosed ends_closeList.steady.forward
  · exact (forward_elements hitem.forward' k true).enclosed ends_closeList.steady.forward
  · exact (local_elements hitem hc hc' hk hk' true).enclosed ends_closeList

/-- A list of the tree is dispatched by its opening bracket. -/
theorem Local.list (hitem : Local n n' item item') (hc : Consumes item) (hc' : Consumes item') :
    Local n n' (list item) (list item') := by
  refine .valueStart_bind ⟨wrongType "a sequence", fun x hx => ?_⟩ fun x => ?_
  · simp [ne_of_high hx]
  · split
    · exact (steady_advance _ _).bind fun _ => hitem.listOf hc hc'
    · exact steady_wrongType _ _ _

end Loops

section Entries

variable {σ : Type} {n n' : Nat} {entry entry' : σ → String → Reader σ}

theorem forward_entries (hentry : ∀ state key, Forward (entry state key)) (bound : Nat)
    (first : Bool) (state : σ) : Forward (entries entry bound first state) := by
  induction bound generalizing first state with
  | zero => exact forward_failAhead _
  | succ bound ih =>
      refine (steady_nextKey first).forward.bind fun more => ?_
      split
      · refine steady_string.forward.bind fun key => (hentry state key).bind fun state => ?_
        exact ih false state
      · exact forward_pure _

/-- As for the elements of a list, with the state that the entries have built so far. -/
theorem local_entries (hentry : ∀ state key, Local n n' (entry state key) (entry' state key))
    {k k' : Nat} (hk : k ≤ n) (hk' : k' ≤ n') (first : Bool) (state : σ) :
    Local k k' (entries entry k first state) (entries entry' k' first state) := by
  induction k generalizing k' first state with
  | zero => exact local_zero (forward_entries (fun s key => (hentry s key).forward') k' first state)
  | succ k ih =>
      cases k' with
      | zero =>
          apply local_zero_right
          exact forward_entries (fun s key => (hentry s key).forward) (k + 1) first state
      | succ k' =>
          refine (steady_nextKey first _ _).bind fun more => ?_
          have hk := Nat.le_of_succ_le hk
          have hk' := Nat.le_of_succ_le hk'
          split
          · refine (steady_string _ _).bind_consumes consumes_string consumes_string fun key => ?_
            exact ((hentry state key).mono hk hk').bind fun state => ih hk hk' false state
          · exact steady_pure _ _ _

/-- What finishes an object runs after its closing brace has been tried. -/
theorem forward_objectOf (hentry : ∀ state key, Forward (entry state key))
    {finish : σ → Reader α} (hfinish : ∀ state, Forward (finish state)) (start : σ) :
    Forward (objectOf entry finish start) :=
  forward_remaining_bind fun k =>
    ((forward_entries hentry k true start).bind hfinish).enclosed ends_closeObject.steady.forward

/-- An object is its entries, its closing brace and what the entries come to. -/
theorem Local.objectOf (hentry : ∀ state key, Local n n' (entry state key) (entry' state key))
    {finish : σ → Reader α} (hfinish : ∀ state, Steady (finish state)) (start : σ) :
    Local n n' (objectOf entry finish start) (objectOf entry' finish start) := by
  have hforward := fun state => (hfinish state).forward
  refine .remaining_bind (fun k => ?_) (fun k => ?_) fun k k' hk hk' => ?_
  · refine Forward.enclosed (.bind ?_ hforward) ends_closeObject.steady.forward
    exact forward_entries (fun s key => (hentry s key).forward) k true start
  · refine Forward.enclosed (.bind ?_ hforward) ends_closeObject.steady.forward
    exact forward_entries (fun s key => (hentry s key).forward') k true start
  · refine .enclosed ?_ ends_closeObject
    exact (local_entries hentry hk hk' true start).bind fun state => hfinish state k k'

end Entries

/-! ## Values of any shape -/

section Loose

variable {n n' : Nat} {inner inner' : Reader Loose}

theorem consumes_word (text : List Char) (htext : ∀ c ∈ text, c.toNat < 0x80) (a : α) :
    Consumes (do advance; word text; pure a) :=
  consumes_advance.bind fun _ => (steady_word text htext).forward.bind fun _ => forward_pure a

/-- Any JSON value takes at least one character. -/
theorem consumes_looseStep (hinner : Forward inner) : Consumes (looseStep inner) := by
  refine consumes_sign rfl fun x => ?_
  split
  · contradiction
  · exact consumes_word _ (by simp) _
  · exact consumes_word _ (by simp) _
  · exact consumes_word _ (by simp) _
  · exact consumes_string.map _
  · exact consumes_advance.bind fun _ => hinner.listOf.bind fun _ => forward_pure _
  · refine consumes_advance.bind fun _ => forward_objectOf (fun _ _ => ?_) (fun _ => ?_) ()
    · exact steady_colon.forward.bind fun _ => hinner.bind fun _ => forward_pure _
    · exact forward_pure _
  · split
    · exact consumes_number.map _
    · exact consumes_failAhead _

/-- One level of a value that is kept, from its parts. -/
theorem Local.looseStep (h : Local n n' inner inner') (hc : Consumes inner)
    (hc' : Consumes inner') : Local (n + 1) (n' + 1) (looseStep inner) (looseStep inner') := by
  refine (steady_skipBlanks _ _).bind fun _ => .peek_bind ?_ fun next => ?_
  · exact ⟨failAhead .expectedValue, fun x hx => by simp [ne_of_high hx, isDigit_of_high hx]⟩
  · split
    · exact steady_failAhead _ _ _
    · exact steady_wordFrom _ (by simp) _ (steady_pure _) _ _
    · exact steady_wordFrom _ (by simp) _ (steady_pure _) _ _
    · exact steady_wordFrom _ (by simp) _ (steady_pure _) _ _
    · exact steady_string.map _ _ _
    · refine (steady_advance _ _).bind_consumes consumes_advance consumes_advance fun _ => ?_
      exact (h.listOf hc hc').bind fun _ => steady_pure _ _ _
    · refine (steady_advance _ _).bind_consumes consumes_advance consumes_advance fun _ => ?_
      refine .objectOf (fun _ _ => ?_) (fun _ => steady_pure _) ()
      exact (steady_colon _ _).bind fun _ => h.bind fun _ => steady_pure _ _ _
    · split
      · exact steady_number.map _ _ _
      · exact steady_failAhead _ _ _

/-- The values of one bound need to be known for those of the next to go forward. -/
theorem looseWithin_onward (n : Nat) :
    Local n n (looseWithin n) (looseWithin n) ∧ Consumes (looseWithin n) := by
  induction n with
  | zero => exact ⟨steady_failAhead _ 0 0, consumes_failAhead _⟩
  | succ n ih =>
      obtain ⟨hlocal, hconsumes⟩ := ih
      exact ⟨hlocal.looseStep hconsumes hconsumes, consumes_looseStep hlocal.forward⟩

/-- Values that are kept look ahead no further, whatever the nesting. The induction is on both
bounds at once, one level in each step. -/
theorem local_looseWithin (n n' : Nat) : Local n n' (looseWithin n) (looseWithin n') := by
  refine local_of_step (r := fun n (_ : Unit) => looseWithin n) (fun _ => rfl) ?_ n n' ()
  intro n n' ih _
  exact (ih ()).looseStep (looseWithin_onward n).2 (looseWithin_onward n').2

/-- The bound on the nesting is the length of the rest, which no value exceeds. -/
theorem steady_loose : Steady loose := steady_of_within local_looseWithin

/-- The payload of a float node is kept first and judged afterwards, at the place where it ended. -/
theorem steady_float : Steady float := by
  refine steady_loose.bind fun value => ?_
  split
  · exact steady_pure _
  · exact steady_pure _
  · exact steady_pure _
  · exact steady_pure _
  · exact steady_failShape _
  · exact steady_failShape _

end Loose

/-! ## Skipped values -/

section Skip

variable {n n' : Nat} {item item' inner inner' : Reader Unit} {close : Char} {separator : Cause}
  {unclosed : Construct}

theorem forward_skipRest (hitem : Forward item) (bound : Nat) :
    Forward (skipRest item close separator unclosed bound) := by
  induction bound with
  | zero => exact forward_failAhead _
  | succ bound ih =>
      refine hitem.bind fun _ => steady_skipBlanks.forward.bind fun _ => forward_peek_bind ?_
      intro next
      split
      · exact forward_failAhead _
      · split
        · exact forward_advance.bind fun _ => ih
        · split
          · exact forward_advance
          · exact forward_failAhead _

/-- The elements of a bracket that is passed over; the closing bracket and the comma are ASCII, so
one byte tells them from anything else. -/
theorem local_skipRest (hclose : close.toNat < 0x80) (hitem : Local n n' item item') {k k' : Nat}
    (hk : k ≤ n) (hk' : k' ≤ n') :
    Local k k' (skipRest item close separator unclosed k)
      (skipRest item' close separator unclosed k') := by
  induction k generalizing k' with
  | zero => exact local_zero (forward_skipRest hitem.forward' k')
  | succ k ih =>
      cases k' with
      | zero => exact local_zero_right (forward_skipRest hitem.forward (k + 1))
      | succ k' =>
          refine (hitem.mono hk hk').bind fun _ => (steady_skipBlanks _ _).bind fun _ => ?_
          refine .peek_bind ⟨failAhead separator, fun x hx => ?_⟩ fun next => ?_
          · simp [ne_of_high hx, ne_of_high hx close hclose]
          · split
            · exact steady_failAhead _ _ _
            · split
              · refine (steady_advance _ _).bind_consumes consumes_advance consumes_advance ?_
                exact fun _ => ih (Nat.le_of_succ_le hk) (Nat.le_of_succ_le hk')
              · split
                · exact steady_advance _ _
                · exact steady_failAhead _ _ _

/-- A bracket that is passed over is its opening, its elements and its end. -/
theorem Local.skipBracket (hclose : close.toNat < 0x80) (hitem : Local n n' item item') :
    Local n n' (skipBracket item close separator unclosed)
      (skipBracket item' close separator unclosed) := by
  refine (steady_skipBlanks _ _).bind fun _ => ?_
  refine .peek_bind ⟨remaining >>= skipRest item' close separator unclosed, fun x hx => ?_⟩ ?_
  · exact if_neg (ne_of_high hx close hclose)
  · intro next
    split
    · exact steady_failAhead _ _ _
    · split
      · exact steady_advance _ _
      · refine .remaining_bind (fun k => ?_) (fun k => ?_) fun k k' hk hk' => ?_
        · exact forward_skipRest hitem.forward k
        · exact forward_skipRest hitem.forward' k
        · exact local_skipRest hclose hitem hk hk'

theorem Local.skipEntry (h : Local n n' inner inner') :
    Local n n' (skipEntry inner) (skipEntry inner') := by
  refine (steady_skipBlanks _ _).bind fun _ => .peek_bind ?_ fun next => ?_
  · exact ⟨failAhead .keyNotString, fun x hx => by simp [ne_of_high hx]⟩
  · split
    · exact steady_failAhead _ _ _
    · exact (steady_skipString _ _).bind fun _ => (steady_colon _ _).bind fun _ => h
    · exact steady_failAhead _ _ _

/-- One level of a value that is passed over, from its parts. -/
theorem Local.skipStep (h : Local n n' inner inner') :
    Local (n + 1) (n' + 1) (skipStep inner) (skipStep inner') := by
  refine (steady_skipBlanks _ _).bind fun _ => .peek_bind ?_ fun next => ?_
  · exact ⟨failAhead .expectedValue, fun x hx => by simp [ne_of_high hx, isDigit_of_high hx]⟩
  · split
    · exact steady_failAhead _ _ _
    · exact (steady_advance.bind fun _ => steady_word _ (by simp)) _ _
    · exact (steady_advance.bind fun _ => steady_word _ (by simp)) _ _
    · exact (steady_advance.bind fun _ => steady_word _ (by simp)) _ _
    · exact steady_skipString _ _
    · refine (steady_advance _ _).bind_consumes consumes_advance consumes_advance fun _ => ?_
      exact h.skipBracket (by decide)
    · refine (steady_advance _ _).bind_consumes consumes_advance consumes_advance fun _ => ?_
      exact h.skipEntry.skipBracket (by decide)
    · split
      · exact steady_skipNumber _ _
      · exact steady_failAhead _ _ _

/-- Values that are passed over look ahead no further, whatever the nesting. -/
theorem local_skipWithin (n n' : Nat) : Local n n' (skipWithin n) (skipWithin n') :=
  local_of_step (r := fun n (_ : Unit) => skipWithin n) (fun _ => rfl)
    (fun _ _ ih _ => (ih ()).skipStep) n n' ()

/-- The value of an unknown field is passed over without looking beyond it. -/
theorem steady_skipValue : Steady skipValue := steady_of_within local_skipWithin

end Skip

end Json

end SyntaxTree
