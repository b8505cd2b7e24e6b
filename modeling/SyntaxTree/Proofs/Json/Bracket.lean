import SyntaxTree.Proofs.Json.Scalar

/-! # Reading brackets

The loops over the elements of a list and over the entries of an object, together with the end of
the bracket, succeed exactly on the spaced pieces of the bracket. What an entry does to the state
of the loop is left open here. -/

namespace SyntaxTree

namespace Json

namespace Grammar

/-- The comma before an item that is not the first. -/
def lead (first : Bool) : List (List Char) := if first then [] else [[',']]

/-- The pieces of the items that are left, as the loop over a bracket meets them. -/
def chained : (first : Bool) → List (List (List Char)) → List (List Char)
  | _, [] => []
  | first, item :: rest => lead first ++ item ++ chained false rest

theorem chained_false (items : List (List (List Char))) :
    chained false items = items.flatMap ([','] :: ·) := by
  induction items with
  | nil => rfl
  | cons item rest ih => simp [chained, lead, ih]

theorem chained_true (items : List (List (List Char))) : chained true items = separated items := by
  cases items with
  | nil => rfl
  | cons item rest => simp [chained, lead, separated, chained_false]

/-- A piece is no longer than the text it stands in. -/
theorem Spaced.length_le {pieces : List (List Char)} {text : List Char} (h : Spaced pieces text)
    {piece : List Char} (hp : piece ∈ pieces) : piece.length ≤ text.length := by
  induction h with
  | nil => exact absurd hp List.not_mem_nil
  | cons hb hs ih =>
      simp only [List.length_append]
      rcases List.mem_cons.1 hp with rfl | hp
      · omega
      · have := ih hp
        omega

theorem mem_separated {items : List (List (List Char))} {item : List (List Char)}
    {piece : List Char} (hi : item ∈ items) (hp : piece ∈ item) : piece ∈ separated items := by
  cases items with
  | nil => exact absurd hi List.not_mem_nil
  | cons first rest =>
      simp only [separated, List.mem_append, List.mem_flatMap, List.mem_cons]
      rcases List.mem_cons.1 hi with rfl | hi
      · exact .inl hp
      · exact .inr ⟨item, hi, .inr hp⟩

/-- An item is shorter than its array, which is what the bound on the nesting counts. -/
theorem ArrayText.length_lt {items : List (List Char)} {text : List Char}
    (h : ArrayText items text) {item : List Char} (hi : item ∈ items) :
    item.length < text.length := by
  obtain ⟨inner, rfl, hs⟩ := h
  have hmem : item ∈ separated (items.map fun p => [p]) :=
    mem_separated (List.mem_map_of_mem hi) List.mem_cons_self
  exact Nat.lt_succ_of_le (hs.length_le (List.mem_append_left _ hmem))

theorem ObjectText.length_lt {members : List Member} {text : List Char}
    (h : ObjectText members text) {m : Member} (hm : m ∈ members) {piece : List Char}
    (hp : piece ∈ m.pieces) : piece.length < text.length := by
  obtain ⟨inner, rfl, hs⟩ := h
  have hmem : piece ∈ separated (members.map Member.pieces) :=
    mem_separated (List.mem_map_of_mem hm) hp
  exact Nat.lt_succ_of_le (hs.length_le (List.mem_append_left _ hmem))

end Grammar

open Text (Cursor)
open Reader Grammar

variable {α σ : Type}

/-! ## Places between pieces -/

theorem Crosses.length_le {c d : Cursor} {pieces : List (List Char)} (h : Crosses c pieces d) :
    d.rest.length ≤ c.rest.length := by
  obtain ⟨text, -, hp⟩ := h
  have := hp.length_eq
  omega

theorem Crosses.length_lt {c d : Cursor} {x : Char} {piece : List Char}
    {pieces : List (List Char)} (h : Crosses c ((x :: piece) :: pieces) d) :
    d.rest.length < c.rest.length := by
  obtain ⟨blanks, m, e, -, hb, hp, hd⟩ := crosses_cons.1 h
  have h₁ := hb.length_eq
  have h₂ := hp.length_eq
  have h₃ := hd.length_le
  simp only [List.length_cons] at h₂
  omega

theorem Crosses.length_lt_of_append {c d : Cursor} {x : Char} {piece : List Char}
    {pieces : List (List Char)} (h : Crosses c (pieces ++ [x :: piece]) d) :
    d.rest.length < c.rest.length := by
  obtain ⟨m, hm, hd⟩ := crosses_append.1 h
  exact Nat.lt_of_lt_of_le hd.length_lt hm.length_le

/-- A bracket is one piece: its opening sign with the spaced pieces inside. -/
theorem crosses_bracket {c d : Cursor} {x : Char} {pieces : List (List Char)}
    (hx : isBlank x = false) :
    (∃ inner, Spaced pieces inner ∧ Crosses c [x :: inner] d) ↔
      ∃ m, skipBlanks.Reads c () m ∧ m.rest.head? = some x ∧ Crosses m.next pieces d := by
  constructor
  · rintro ⟨inner, hs, h⟩
    obtain ⟨m, hm, hhead, hp⟩ := crosses_start hx h
    obtain ⟨k, hk, hp⟩ := Cursor.passes_cons.1 hp
    obtain ⟨-, rfl⟩ := Cursor.passes_singleton.1 hk
    exact ⟨m, hm, hhead, inner, hs, hp⟩
  · rintro ⟨m, hm, hhead, inner, hs, hp⟩
    refine ⟨inner, hs, crosses_of_skipBlanks hm (Cursor.passes_cons.2 ⟨m.next, ?_, hp⟩)⟩
    exact Cursor.passes_singleton.2 ⟨hhead, rfl⟩

/-- What is left of a bracket after an item begins with a comma or is the closing sign. -/
theorem delimited_of_chained {c d : Cursor} {close : Char} {items : List (List (List Char))}
    (hclose : close = ']' ∨ close = '\x7d') (h : Crosses c (chained false items ++ [[close]]) d) :
    Delimited c := by
  cases items with
  | nil => exact delimited_of_crosses (.inr hclose) h
  | cons item rest => exact delimited_of_crosses (.inl rfl) h

/-! ## Lists -/

/-- A further element stands after a comma, or after nothing if it is the first. -/
theorem nextElement_sound {first more : Bool} {c m d : Cursor} {piece : List Char}
    {pieces : List (List Char)} (h : (nextElement first).Reads c more m)
    (hc : Crosses m (piece :: pieces) d) :
    Crosses c ((if more then lead first else []) ++ piece :: pieces) d := by
  rw [nextElement, reads_bind] at h
  obtain ⟨_, k, hs, h⟩ := h
  rw [reads_peek_bind] at h
  split at h
  · simp at h
  · obtain ⟨rfl, rfl⟩ := reads_pure.1 h
    exact hc.of_skipBlanks hs
  · rename_i x hne hx
    split at h
    · rename_i hfirst
      obtain ⟨rfl, rfl⟩ := reads_pure.1 h
      simpa [lead, hfirst] using hc.of_skipBlanks hs
    · rename_i hfirst
      split at h
      · rename_i hcomma
        rw [reads_advance_bind, reads_bind] at h
        obtain ⟨_, k', hs', h⟩ := h
        rw [reads_peek_bind] at h
        have hm : more = true ∧ m = k' := by
          split at h
          · simp at h
          · simp at h
          · exact reads_pure.1 h
        obtain ⟨rfl, rfl⟩ := hm
        have hlead : lead first = [[',']] := by simp [lead, hfirst]
        rw [hlead, if_pos rfl, List.singleton_append, crosses_cons_iff]
        refine ⟨k.next, crosses_of_skipBlanks hs ?_, hc.of_skipBlanks hs'⟩
        exact Cursor.passes_singleton.2 ⟨hcomma ▸ hx, rfl⟩
      · simp at h

theorem nextElement_item {first : Bool} {c d : Cursor} {x : Char} {piece : List Char}
    (hx : OpensValue x) (h : Crosses c (lead first ++ [x :: piece]) d) :
    ∃ m, (nextElement first).Reads c true m ∧ Crosses m [x :: piece] d := by
  have hne : (x = ']') = False := eq_false hx.2.2.1
  cases first with
  | true =>
      obtain ⟨m, hs, hhead, hp⟩ := crosses_start hx.1 h
      refine ⟨m, ?_, crosses_of_passes hp⟩
      rw [nextElement, reads_bind]
      refine ⟨(), m, hs, ?_⟩
      rw [reads_peek_bind, hhead]
      split <;> simp_all
  | false =>
      obtain ⟨k', hcomma, h⟩ := crosses_cons_iff.1 h
      obtain ⟨k, hs, hk, rfl⟩ := (crosses_sign (by decide)).1 hcomma
      obtain ⟨m, hs', hhead, hp⟩ := crosses_start hx.1 h
      refine ⟨m, ?_, crosses_of_passes hp⟩
      rw [nextElement, reads_bind]
      refine ⟨(), k, hs, ?_⟩
      rw [reads_peek_bind, hk]
      refine reads_advance_bind.2 (reads_bind.2 ⟨(), m, hs', ?_⟩)
      rw [reads_peek_bind, hhead]
      split <;> simp_all

theorem nextElement_end (first : Bool) {c d : Cursor} (h : Crosses c [[']']] d) :
    ∃ m, (nextElement first).Reads c false m ∧ Crosses m [[']']] d := by
  obtain ⟨m, hs, hm, rfl⟩ := (crosses_sign (by decide)).1 h
  refine ⟨m, ?_, crosses_of_passes (Cursor.passes_singleton.2 ⟨hm, rfl⟩)⟩
  rw [nextElement, reads_bind]
  refine ⟨(), m, hs, ?_⟩
  rw [reads_peek_bind, hm]
  exact reads_pure.2 ⟨rfl, rfl⟩

/-- Elements that are read stand between commas. The induction is on the bound of the loop. -/
theorem elements_sound {item : Reader α} {L : List Char → α → Prop}
    (hitem : ∀ {c a d}, item.Reads c a d → ∃ p, L p a ∧ Crosses c [p] d) {bound : Nat}
    {first : Bool} {values : List α} {c m d : Cursor}
    (h : (elements item bound first).Reads c values m) (hclose : closeList.Reads m () d) :
    ∃ items, List.Forall₂ L items values ∧
      Crosses c (chained first (items.map fun p => [p]) ++ [[']']]) d := by
  induction bound generalizing first values c with
  | zero => exact absurd h not_reads_failAhead
  | succ bound ih =>
      obtain ⟨more, k, hnext, h⟩ := reads_bind.1 h
      cases more with
      | true =>
          obtain ⟨value, k', hvalue, h⟩ := reads_bind.1 h
          obtain ⟨rest, k'', hrest, h⟩ := reads_bind.1 h
          obtain ⟨rfl, rfl⟩ := reads_pure.1 h
          obtain ⟨p, hp, hpc⟩ := hitem hvalue
          obtain ⟨items, hitems, hc⟩ := ih hrest
          refine ⟨p :: items, .cons hp hitems, ?_⟩
          have := nextElement_sound hnext (crosses_cons_iff.2 ⟨k', hpc, hc⟩)
          simpa [chained] using this
      | false =>
          obtain ⟨rfl, rfl⟩ := reads_pure.1 h
          refine ⟨[], .nil, ?_⟩
          exact nextElement_sound hnext (reads_closeList.1 hclose)

/-- Elements between commas are read. The induction is on them, and each takes at least one of the
bound. -/
theorem elements_complete {n : Nat} {item : Reader α} {L : List Char → α → Prop}
    (hitem : Accepts n item L) {items : List (List Char)} {values : List α}
    (hl : List.Forall₂ L items values) (hlength : ∀ p ∈ items, p.length ≤ n) {bound : Nat}
    {first : Bool} {c d : Cursor} (hbound : c.rest.length ≤ bound)
    (hc : Crosses c (chained first (items.map fun p => [p]) ++ [[']']]) d) :
    ∃ m, (elements item bound first).Reads c values m ∧ closeList.Reads m () d := by
  induction hl generalizing bound first c with
  | nil =>
      obtain ⟨bound, rfl⟩ : ∃ k, bound = k + 1 :=
        Nat.exists_eq_add_one.2 (by have := hc.length_lt; omega)
      obtain ⟨m, hnext, hm⟩ := nextElement_end first hc
      refine ⟨m, ?_, reads_closeList.2 hm⟩
      exact reads_bind.2 ⟨false, m, hnext, reads_pure.2 ⟨rfl, rfl⟩⟩
  | @cons p value items values hp hl ih =>
      obtain ⟨x, rest, rfl, hx⟩ := hitem.opens hp
      rw [List.map_cons, chained, List.append_assoc] at hc
      obtain ⟨e, hlead, hrest⟩ := crosses_append.1 hc
      obtain ⟨m, hnext, hm⟩ := nextElement_item hx hlead
      have hlt := hlead.length_lt_of_append
      obtain ⟨bound, rfl⟩ : ∃ k, bound = k + 1 := Nat.exists_eq_add_one.2 (by omega)
      have hbound' : e.rest.length ≤ bound := by omega
      obtain ⟨k, hk, hclose⟩ :=
        ih (fun q hq => hlength q (List.mem_cons_of_mem _ hq)) hbound' hrest
      have hvalue : item.Reads m value e :=
        hitem.complete hp (hlength _ List.mem_cons_self) hm (delimited_of_chained (.inl rfl) hrest)
      refine ⟨k, ?_, hclose⟩
      refine reads_bind.2 ⟨true, m, hnext, reads_bind.2 ⟨value, e, hvalue, ?_⟩⟩
      exact reads_bind.2 ⟨values, k, hk, reads_pure.2 ⟨rfl, rfl⟩⟩

/-- A list is read from after its opening sign. -/
theorem listOf_sound {item : Reader α} {L : List Char → α → Prop}
    (hitem : ∀ {c a d}, item.Reads c a d → ∃ p, L p a ∧ Crosses c [p] d) {values : List α}
    {c d : Cursor} (h : (listOf item).Reads c values d) :
    ∃ items, List.Forall₂ L items values ∧
      Crosses c (separated (items.map fun p => [p]) ++ [[']']]) d := by
  rw [listOf, reads_remaining_bind, reads_enclosed] at h
  obtain ⟨m, h, hclose⟩ := h
  obtain ⟨items, hl, hc⟩ := elements_sound hitem h hclose
  rw [chained_true] at hc
  exact ⟨items, hl, hc⟩

/-- The loop of a list has a bound that its text does not exceed. -/
theorem listOf_complete {n : Nat} {item : Reader α} {L : List Char → α → Prop}
    (hitem : Accepts n item L) {items : List (List Char)} {values : List α}
    (hl : List.Forall₂ L items values) (hlength : ∀ p ∈ items, p.length ≤ n) {c d : Cursor}
    (hc : Crosses c (separated (items.map fun p => [p]) ++ [[']']]) d) :
    (listOf item).Reads c values d := by
  rw [← chained_true] at hc
  rw [listOf, reads_remaining_bind, reads_enclosed]
  exact elements_complete hitem hl hlength (Nat.le_refl _) hc

/-- A list is accepted with the texts of its items. -/
theorem list_accepts {n : Nat} {item : Reader α} {L : List Char → α → Prop}
    (hitem : Accepts n item L) :
    Accepts n (list item) fun p values =>
      ∃ items, ArrayText items p ∧ List.Forall₂ L items values where
  sound := by
    intro c values d h
    obtain ⟨x, m, hs, hx, h⟩ := reads_dispatch.1 h
    split at h
    · rename_i hopen
      rw [reads_advance_bind] at h
      obtain ⟨items, hl, hc⟩ := listOf_sound hitem.sound h
      obtain ⟨inner, hinner, hc⟩ := (crosses_bracket (by decide)).2 ⟨m, hs, hopen ▸ hx, hc⟩
      exact ⟨'[' :: inner, ⟨items, ⟨inner, rfl, hinner⟩, hl⟩, hc⟩
    · exact absurd h not_reads_wrongType
  complete := by
    rintro c p values d ⟨items, harray, hl⟩ hlength hc _
    obtain ⟨inner, rfl, hinner⟩ := id harray
    obtain ⟨m, hs, hx, hm⟩ := (crosses_bracket (by decide)).1 ⟨inner, hinner, hc⟩
    refine reads_dispatch.2 ⟨'[', m, hs, hx, ?_⟩
    rw [if_pos rfl, reads_advance_bind]
    refine listOf_complete hitem hl (fun q hq => ?_) hm
    exact Nat.le_of_lt (Nat.lt_of_lt_of_le (harray.length_lt hq) hlength)
  opens := by
    rintro p values ⟨items, ⟨inner, rfl, -⟩, -⟩
    exact ⟨_, _, rfl, by decide⟩

/-! ## Objects -/

/-- A further key stands after a comma and begins with a quote. -/
theorem nextKey_sound {first more : Bool} {c m d : Cursor} {piece : List Char}
    {pieces : List (List Char)} (h : (nextKey first).Reads c more m)
    (hc : Crosses m (piece :: pieces) d) :
    Crosses c ((if more then lead first else []) ++ piece :: pieces) d ∧
      (more = true → m.rest.head? = some '"') := by
  rw [nextKey, reads_bind] at h
  obtain ⟨_, k, hs, h⟩ := h
  rw [reads_peek_bind] at h
  split at h
  · simp at h
  · obtain ⟨rfl, rfl⟩ := reads_pure.1 h
    exact ⟨hc.of_skipBlanks hs, by simp⟩
  · rename_i x hne hx
    split at h
    · rename_i hfirst
      split at h
      · rename_i hquote
        obtain ⟨rfl, rfl⟩ := reads_pure.1 h
        exact ⟨by simpa [lead, hfirst] using hc.of_skipBlanks hs, fun _ => hquote ▸ hx⟩
      · simp at h
    · rename_i hfirst
      split at h
      · rename_i hcomma
        rw [reads_advance_bind, reads_bind] at h
        obtain ⟨_, k', hs', h⟩ := h
        rw [reads_peek_bind] at h
        have hm : more = true ∧ m = k' ∧ m.rest.head? = some '"' := by
          split at h
          · simp at h
          · rename_i hquote
            obtain ⟨hmore, rfl⟩ := reads_pure.1 h
            exact ⟨hmore, rfl, hquote⟩
          · simp at h
          · simp at h
        obtain ⟨rfl, rfl, hquote⟩ := hm
        have hlead : lead first = [[',']] := by simp [lead, hfirst]
        refine ⟨?_, fun _ => hquote⟩
        rw [hlead, if_pos rfl, List.singleton_append, crosses_cons_iff]
        refine ⟨k.next, crosses_of_skipBlanks hs ?_, hc.of_skipBlanks hs'⟩
        exact Cursor.passes_singleton.2 ⟨hcomma ▸ hx, rfl⟩
      · simp at h

theorem nextKey_item {first : Bool} {c d : Cursor} {key : List Char}
    (h : Crosses c (lead first ++ ['"' :: key]) d) :
    ∃ m, (nextKey first).Reads c true m ∧ m.rest.head? = some '"' ∧ m.Passes ('"' :: key) d := by
  cases first with
  | true =>
      obtain ⟨m, hs, hhead, hp⟩ := crosses_start (by decide) h
      refine ⟨m, ?_, hhead, hp⟩
      rw [nextKey, reads_bind]
      refine ⟨(), m, hs, ?_⟩
      rw [reads_peek_bind, hhead]
      exact reads_pure.2 ⟨rfl, rfl⟩
  | false =>
      obtain ⟨k', hcomma, h⟩ := crosses_cons_iff.1 h
      obtain ⟨k, hs, hk, rfl⟩ := (crosses_sign (by decide)).1 hcomma
      obtain ⟨m, hs', hhead, hp⟩ := crosses_start (by decide) h
      refine ⟨m, ?_, hhead, hp⟩
      rw [nextKey, reads_bind]
      refine ⟨(), k, hs, ?_⟩
      rw [reads_peek_bind, hk]
      refine reads_advance_bind.2 (reads_bind.2 ⟨(), m, hs', ?_⟩)
      rw [reads_peek_bind, hhead]
      exact reads_pure.2 ⟨rfl, rfl⟩

theorem nextKey_end (first : Bool) {c d : Cursor} (h : Crosses c [['\x7d']] d) :
    ∃ m, (nextKey first).Reads c false m ∧ Crosses m [['\x7d']] d := by
  obtain ⟨m, hs, hm, rfl⟩ := (crosses_sign (by decide)).1 h
  refine ⟨m, ?_, crosses_of_passes (Cursor.passes_singleton.2 ⟨hm, rfl⟩)⟩
  rw [nextKey, reads_bind]
  refine ⟨(), m, hs, ?_⟩
  rw [reads_peek_bind, hm]
  exact reads_pure.2 ⟨rfl, rfl⟩

/-- The reader of what follows a key accepts a colon and then the values that lead from one state
to another. -/
structure AcceptsEntry (bound : Nat) (entry : σ → String → Reader σ)
    (Step : σ → String → List Char → σ → Prop) : Prop where
  sound : ∀ {state key state' c d}, (entry state key).Reads c state' d →
    ∃ p, Step state key p state' ∧ Crosses c [[':'], p] d
  complete : ∀ {state key state' c p d}, Step state key p state' → p.length ≤ bound →
    Crosses c [[':'], p] d → Delimited d → (entry state key).Reads c state' d

/-- The entries lead from one state to another. -/
inductive Steps (Step : σ → String → List Char → σ → Prop) : σ → List Entry → σ → Prop
  | nil {state : σ} : Steps Step state [] state
  | cons {state state' state'' : σ} {e : Entry} {rest : List Entry} :
      StringText e.key e.name → Step state e.name e.value state' →
      Steps Step state' rest state'' → Steps Step state (e :: rest) state''

/-- Entries that are read are the steps of a state along the members. The induction is on the bound
of the loop. -/
theorem entries_sound {n bound : Nat} {entry : σ → String → Reader σ}
    {Step : σ → String → List Char → σ → Prop} (hentry : AcceptsEntry n entry Step)
    {first : Bool} {state state' : σ} {c m d : Cursor}
    (h : (entries entry bound first state).Reads c state' m) (hclose : closeObject.Reads m () d) :
    ∃ es : List Entry, Steps Step state es state' ∧
      Crosses c (chained first (es.map fun e => e.pieces) ++ [['\x7d']]) d := by
  induction bound generalizing first state c with
  | zero => exact absurd h not_reads_failAhead
  | succ bound ih =>
      obtain ⟨more, k, hnext, h⟩ := reads_bind.1 h
      cases more with
      | true =>
          obtain ⟨key, k₁, hkey, h⟩ := reads_bind.1 h
          obtain ⟨mid, k₂, hvalue, h⟩ := reads_bind.1 h
          obtain ⟨es, hes, hc⟩ := ih h
          obtain ⟨p, hstep, hp⟩ := hentry.sound hvalue
          have hquote := (nextKey_sound hnext (crosses_of_passes (Cursor.passes_nil.2 rfl))).2 rfl
          obtain ⟨text, htext, hpass⟩ := (reads_string hquote).1 hkey
          refine ⟨⟨⟨text, p⟩, key⟩ :: es, .cons htext hstep hes, ?_⟩
          have hitem : Crosses k (text :: [[':'], p] ++
              (chained false (es.map fun e => e.pieces) ++ [['\x7d']])) d :=
            crosses_append.2 ⟨k₂, crosses_cons_iff.2 ⟨k₁, crosses_of_passes hpass, hp⟩, hc⟩
          simpa [chained, Member.pieces] using (nextKey_sound hnext hitem).1
      | false =>
          obtain ⟨rfl, rfl⟩ := reads_pure.1 h
          exact ⟨[], .nil, (nextKey_sound hnext (reads_closeObject.1 hclose)).1⟩

/-- The members along which a state goes are read as its entries. -/
theorem entries_complete {n : Nat} {entry : σ → String → Reader σ}
    {Step : σ → String → List Char → σ → Prop} (hentry : AcceptsEntry n entry Step)
    {es : List Entry} {state state' : σ} (hes : Steps Step state es state')
    (hlength : ∀ e ∈ es, e.value.length ≤ n) {bound : Nat} {first : Bool} {c d : Cursor}
    (hbound : c.rest.length ≤ bound)
    (hc : Crosses c (chained first (es.map fun e => e.pieces) ++ [['\x7d']]) d) :
    ∃ m, (entries entry bound first state).Reads c state' m ∧ closeObject.Reads m () d := by
  induction hes generalizing bound first c with
  | nil =>
      obtain ⟨bound, rfl⟩ : ∃ k, bound = k + 1 :=
        Nat.exists_eq_add_one.2 (by have := hc.length_lt; omega)
      obtain ⟨m, hnext, hm⟩ := nextKey_end first hc
      refine ⟨m, ?_, reads_closeObject.2 hm⟩
      exact reads_bind.2 ⟨false, m, hnext, reads_pure.2 ⟨rfl, rfl⟩⟩
  | @cons state mid state' e es hkey hstep hes ih =>
      obtain ⟨body, hbody, -⟩ := id hkey
      have hpieces : e.pieces = [e.key] ++ [[':'], e.value] := rfl
      rw [List.map_cons, chained, hpieces, ← List.append_assoc, List.append_assoc] at hc
      obtain ⟨k₂, hitem, hrest⟩ := crosses_append.1 hc
      obtain ⟨k₁, hlead, hvalue⟩ := crosses_append.1 hitem
      rw [hbody] at hlead
      have hlt := hlead.length_lt_of_append
      have hle := hvalue.length_le
      obtain ⟨m, hnext, hquote, hpass⟩ := nextKey_item hlead
      obtain ⟨bound, rfl⟩ : ∃ k, bound = k + 1 := Nat.exists_eq_add_one.2 (by omega)
      have hbound' : k₂.rest.length ≤ bound := by omega
      obtain ⟨k, hk, hclose⟩ :=
        ih (fun q hq => hlength q (List.mem_cons_of_mem _ hq)) hbound' hrest
      have hentered : (entry state e.name).Reads k₁ mid k₂ :=
        hentry.complete hstep (hlength _ List.mem_cons_self) hvalue
          (delimited_of_chained (.inr rfl) hrest)
      refine ⟨k, ?_, hclose⟩
      refine reads_bind.2 ⟨true, m, hnext, ?_⟩
      refine reads_bind.2 ⟨e.name, k₁, (reads_string hquote).2 ⟨_, hbody ▸ hkey, hpass⟩, ?_⟩
      exact reads_bind.2 ⟨mid, k₂, hentered, hk⟩

/-- An object is read from after its opening sign, and what it gives is made of the last state. -/
theorem objectOf_sound {n : Nat} {entry : σ → String → Reader σ}
    {Step : σ → String → List Char → σ → Prop} (hentry : AcceptsEntry n entry Step)
    {finish : σ → Reader α} {Finish : σ → α → Prop}
    (hfinish : ∀ {s a c d}, (finish s).Reads c a d → Finish s a ∧ d = c) {start : σ} {a : α}
    {c d : Cursor} (h : (objectOf entry finish start).Reads c a d) :
    ∃ (es : List Entry) (last : σ), Steps Step start es last ∧ Finish last a ∧
      Crosses c (separated (es.map fun e => e.pieces) ++ [['\x7d']]) d := by
  rw [objectOf, reads_remaining_bind, reads_enclosed] at h
  obtain ⟨m, h, hclose⟩ := h
  obtain ⟨last, k, hentries, h⟩ := reads_bind.1 h
  obtain ⟨hlast, rfl⟩ := hfinish h
  obtain ⟨es, hes, hc⟩ := entries_sound hentry hentries hclose
  rw [chained_true] at hc
  exact ⟨es, last, hes, hlast, hc⟩

theorem objectOf_complete {n : Nat} {entry : σ → String → Reader σ}
    {Step : σ → String → List Char → σ → Prop} (hentry : AcceptsEntry n entry Step)
    {finish : σ → Reader α} {start last : σ} {a : α} {es : List Entry}
    (hes : Steps Step start es last) (hlast : ∀ m, (finish last).Reads m a m)
    (hlength : ∀ e ∈ es, e.value.length ≤ n) {c d : Cursor}
    (hc : Crosses c (separated (es.map fun e => e.pieces) ++ [['\x7d']]) d) :
    (objectOf entry finish start).Reads c a d := by
  rw [← chained_true] at hc
  rw [objectOf, reads_remaining_bind, reads_enclosed]
  obtain ⟨m, hm, hclose⟩ := entries_complete hentry hes hlength (Nat.le_refl _) hc
  exact ⟨m, reads_bind.2 ⟨last, m, hm, hlast m⟩, hclose⟩

end Json

end SyntaxTree
