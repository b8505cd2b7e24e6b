import SyntaxTree.Proofs.Json.Bracket

/-! # Passing over values

The value of an unknown field is passed over. The reader that does so succeeds exactly on the texts
of values of any shape, however deep they are. -/

namespace SyntaxTree

namespace Json

open Text (Cursor)
open Reader Grammar

/-- The reader passes over the pieces of one item of a bracket, those longer than `bound` apart. -/
structure Skips (bound : Nat) (item : Reader Unit) (P : List (List Char) → Prop) : Prop where
  sound : ∀ {c d}, item.Reads c () d → ∃ pieces, P pieces ∧ Crosses c pieces d
  complete : ∀ {c pieces d}, P pieces → (∀ piece ∈ pieces, piece.length ≤ bound) →
    Crosses c pieces d → Delimited d → item.Reads c () d
  opens : ∀ {pieces}, P pieces → ∃ x piece rest, pieces = (x :: piece) :: rest ∧ OpensValue x

variable {n bound : Nat} {item : Reader Unit} {P : List (List Char) → Prop} {close : Char}
  {separator : Cause} {unclosed : Construct} {c d : Cursor}

/-! ## Brackets -/

/-- What is skipped up to the closing bracket is items with separators between them, by induction on
the bound. -/
theorem skipRest_sound (hitem : Skips n item P)
    (h : (skipRest item close separator unclosed bound).Reads c () d) :
    ∃ first rest, P first ∧ (∀ pieces ∈ rest, P pieces) ∧
      Crosses c (first ++ (chained false rest ++ [[close]])) d := by
  induction bound generalizing c with
  | zero => exact absurd h not_reads_failAhead
  | succ bound ih =>
      obtain ⟨_, m, hfirst, h⟩ := reads_bind.1 h
      obtain ⟨_, k, hs, h⟩ := reads_bind.1 h
      obtain ⟨first, hp, hc⟩ := hitem.sound hfirst
      rw [reads_peek_bind] at h
      split at h
      · simp at h
      · rename_i x hx
        split at h
        · rename_i hcomma
          obtain ⟨second, rest, hp', hrest, hc'⟩ := ih (reads_advance_bind.1 h)
          refine ⟨first, second :: rest, hp, List.forall_mem_cons.2 ⟨hp', hrest⟩, ?_⟩
          refine crosses_append.2 ⟨m, hc, ?_⟩
          have hsign : Crosses m [[',']] k.next :=
            crosses_of_skipBlanks hs (Cursor.passes_singleton.2 ⟨hcomma ▸ hx, rfl⟩)
          simpa [chained, lead] using crosses_cons_iff.2 ⟨k.next, hsign, hc'⟩
        · split at h
          · rename_i hclose
            obtain rfl := reads_advance.1 h
            refine ⟨first, [], hp, by simp, crosses_append.2 ⟨m, hc, ?_⟩⟩
            exact crosses_of_skipBlanks hs (Cursor.passes_singleton.2 ⟨hclose ▸ hx, rfl⟩)
          · simp at h

/-- Items with separators are skipped, by induction on their list; a bound as long as the text
suffices. -/
theorem skipRest_complete (hitem : Skips n item P) (hclose : close = ']' ∨ close = '\x7d')
    {first : List (List Char)} {rest : List (List (List Char))} (hp : P first)
    (hrest : ∀ pieces ∈ rest, P pieces)
    (hlength : ∀ pieces ∈ first :: rest, ∀ piece ∈ pieces, piece.length ≤ n)
    (hbound : c.rest.length ≤ bound)
    (hc : Crosses c (first ++ (chained false rest ++ [[close]])) d) :
    (skipRest item close separator unclosed bound).Reads c () d := by
  have hblank : isBlank close = false := by rcases hclose with rfl | rfl <;> decide
  induction rest generalizing first bound c with
  | nil =>
      obtain ⟨m, hfirst, hend⟩ := crosses_append.1 hc
      have hlt : m.rest.length ≤ c.rest.length := hfirst.length_le
      have hlt' : d.rest.length < m.rest.length := hend.length_lt
      obtain ⟨bound, rfl⟩ : ∃ k, bound = k + 1 := Nat.exists_eq_add_one.2 (by omega)
      obtain ⟨k, hs, hx, rfl⟩ := (crosses_sign hblank).1 hend
      refine reads_bind.2 ⟨(), m, ?_, reads_bind.2 ⟨(), k, hs, ?_⟩⟩
      · exact hitem.complete hp (hlength _ List.mem_cons_self) hfirst
          (delimited_of_crosses (.inr hclose) hend)
      · have hcomma : close ≠ ',' := by rcases hclose with rfl | rfl <;> decide
        rw [reads_peek_bind, hx]
        simp [hcomma]
  | cons second rest ih =>
      obtain ⟨m, hfirst, hend⟩ := crosses_append.1 hc
      have hdelimited := delimited_of_chained hclose hend
      rw [chained, lead, if_neg (by decide), List.append_assoc, List.append_assoc] at hend
      obtain ⟨k', hcomma, hend⟩ := crosses_cons_iff.1 hend
      have hle : m.rest.length ≤ c.rest.length := hfirst.length_le
      have hlt : k'.rest.length < m.rest.length := hcomma.length_lt
      obtain ⟨bound, rfl⟩ : ∃ k, bound = k + 1 := Nat.exists_eq_add_one.2 (by omega)
      obtain ⟨k, hs, hx, rfl⟩ := (crosses_sign (by decide)).1 hcomma
      refine reads_bind.2 ⟨(), m, ?_, reads_bind.2 ⟨(), k, hs, ?_⟩⟩
      · exact hitem.complete hp (hlength _ List.mem_cons_self) hfirst hdelimited
      · rw [reads_peek_bind, hx]
        simp only [if_true]
        refine reads_advance_bind.2 (ih (hrest _ List.mem_cons_self) ?_ ?_ (by omega) hend)
        · exact fun pieces hp => hrest pieces (List.mem_cons_of_mem _ hp)
        · exact fun pieces hp => hlength pieces (List.mem_cons_of_mem _ hp)

/-- What is skipped from the opening bracket is any number of items. -/
theorem skipBracket_sound (hitem : Skips n item P)
    (h : (skipBracket item close separator unclosed).Reads c () d) :
    ∃ items, (∀ pieces ∈ items, P pieces) ∧ Crosses c (separated items ++ [[close]]) d := by
  obtain ⟨_, m, hs, h⟩ := reads_bind.1 h
  rw [reads_peek_bind] at h
  split at h
  · simp at h
  · rename_i x hx
    split at h
    · rename_i hclose
      obtain rfl := reads_advance.1 h
      refine ⟨[], by simp, ?_⟩
      exact crosses_of_skipBlanks hs (Cursor.passes_singleton.2 ⟨hclose ▸ hx, rfl⟩)
    · obtain ⟨first, rest, hp, hrest, hc⟩ := skipRest_sound hitem (reads_remaining_bind.1 h)
      obtain ⟨y, piece, tail, rfl, -⟩ := hitem.opens hp
      refine ⟨_ :: rest, List.forall_mem_cons.2 ⟨hp, hrest⟩, ?_⟩
      rw [← chained_true, chained, lead, if_pos rfl, List.nil_append, List.append_assoc]
      exact hc.of_skipBlanks hs

theorem skipBracket_complete (hitem : Skips n item P) (hclose : close = ']' ∨ close = '\x7d')
    {items : List (List (List Char))} (hp : ∀ pieces ∈ items, P pieces)
    (hlength : ∀ pieces ∈ items, ∀ piece ∈ pieces, piece.length ≤ n)
    (hc : Crosses c (separated items ++ [[close]]) d) :
    (skipBracket item close separator unclosed).Reads c () d := by
  rw [skipBracket, reads_bind]
  cases items with
  | nil =>
      have hblank : isBlank close = false := by rcases hclose with rfl | rfl <;> decide
      obtain ⟨m, hs, hx, rfl⟩ := (crosses_sign hblank).1 hc
      refine ⟨(), m, hs, ?_⟩
      rw [reads_peek_bind, hx]
      simp
  | cons first rest =>
      obtain ⟨x, piece, tail, rfl, hx⟩ := hitem.opens (hp _ List.mem_cons_self)
      rw [← chained_true, chained, lead, if_pos rfl, List.nil_append, List.append_assoc] at hc
      obtain ⟨m, e, hs, hm, hd⟩ := (crosses_solid hx.1).1 hc
      have hhead : m.rest.head? = some x := by
        rw [hm.rest_eq]
        rfl
      have hne : x ≠ close := by rcases hclose with rfl | rfl <;> simp [hx.2]
      refine ⟨(), m, hs, ?_⟩
      rw [reads_peek_bind, hhead]
      simp only [hne, if_false]
      refine reads_remaining_bind.2 (skipRest_complete hitem hclose (hp _ List.mem_cons_self)
        (fun pieces h => hp pieces (List.mem_cons_of_mem _ h)) hlength (Nat.le_refl _) ?_)
      exact crosses_cons_iff.2 ⟨e, crosses_of_passes hm, hd⟩

/-! ## Values -/

/-- A value begins with no blank and no sign between values. -/
theorem anyText_opens {p : List Char} (h : AnyText p) : ∃ x rest, p = x :: rest ∧ OpensValue x := by
  cases h with
  | null => exact ⟨_, _, rfl, by decide⟩
  | true => exact ⟨_, _, rfl, by decide⟩
  | false => exact ⟨_, _, rfl, by decide⟩
  | string h =>
      obtain ⟨body, rfl, -⟩ := h
      exact ⟨_, _, rfl, opensValue_quote⟩
  | number h =>
      obtain ⟨x, rest, rfl, hx⟩ := literalText_head h
      exact ⟨x, rest, rfl, opensValue_of_digit hx⟩
  | array h _ =>
      obtain ⟨inner, rfl, -⟩ := h
      exact ⟨_, _, rfl, by decide⟩
  | object h _ _ =>
      obtain ⟨inner, rfl, -⟩ := h
      exact ⟨_, _, rfl, by decide⟩

/-- The pieces of an element of a skipped list. -/
def SkippedElement (pieces : List (List Char)) : Prop := ∃ p, AnyText p ∧ pieces = [p]

/-- The pieces of an entry of a skipped object. -/
def SkippedEntry (pieces : List (List Char)) : Prop :=
  ∃ m : Member, (LooseStringText m.key ∧ AnyText m.value) ∧ pieces = m.pieces

/-- Items that are each made of some source are made of a list of sources. -/
theorem exists_sources {β γ : Type} {f : β → γ} {Q : β → Prop} {items : List γ}
    (h : ∀ i ∈ items, ∃ b, Q b ∧ i = f b) : ∃ bs : List β, items = bs.map f ∧ ∀ b ∈ bs, Q b := by
  induction items with
  | nil => exact ⟨[], rfl, by simp⟩
  | cons item rest ih =>
      obtain ⟨⟨b, hb, rfl⟩, hrest⟩ := List.forall_mem_cons.1 h
      obtain ⟨bs, rfl, hbs⟩ := ih hrest
      exact ⟨b :: bs, rfl, List.forall_mem_cons.2 ⟨hb, hbs⟩⟩

variable {inner : Reader Unit}

theorem skips_element (h : Accepts n inner fun p _ => AnyText p) :
    Skips n inner SkippedElement where
  sound := by
    intro c d hr
    obtain ⟨p, hp, hc⟩ := h.sound hr
    exact ⟨[p], ⟨p, hp, rfl⟩, hc⟩
  complete := by
    rintro c pieces d ⟨p, hp, rfl⟩ hlength hc hd
    exact h.complete hp (hlength p List.mem_cons_self) hc hd
  opens := by
    rintro pieces ⟨p, hp, rfl⟩
    obtain ⟨x, rest, rfl, hx⟩ := h.opens (a := ()) hp
    exact ⟨x, rest, [], rfl, hx⟩

/-- An entry of an object is skipped as a key, a colon and a value. -/
theorem skips_entry (h : Accepts n inner fun p _ => AnyText p) :
    Skips n (skipEntry inner) SkippedEntry where
  sound := by
    intro c d hr
    obtain ⟨_, m, hs, hr⟩ := reads_bind.1 hr
    rw [reads_peek_bind] at hr
    split at hr
    · simp at hr
    · rename_i hquote
      obtain ⟨_, k, hkey, hr⟩ := reads_bind.1 hr
      obtain ⟨_, k', hcolon, hr⟩ := reads_bind.1 hr
      obtain ⟨key, hk, hpass⟩ := (reads_skipString hquote).1 hkey
      obtain ⟨p, hp, hc⟩ := h.sound hr
      refine ⟨_, ⟨⟨key, p⟩, ⟨hk, hp⟩, rfl⟩,
        crosses_cons_iff.2 ⟨k, crosses_of_skipBlanks hs hpass, ?_⟩⟩
      exact crosses_cons_iff.2 ⟨k', reads_colon.1 hcolon, hc⟩
    · simp at hr
  complete := by
    rintro c pieces d ⟨⟨key, p⟩, ⟨hk, hp⟩, rfl⟩ hlength hc hd
    obtain ⟨k, hkey, hc⟩ := crosses_cons_iff.1 hc
    obtain ⟨k', hcolon, hc⟩ := crosses_cons_iff.1 hc
    obtain ⟨body, rfl, -⟩ := id hk
    obtain ⟨m, hs, hquote, hpass⟩ := crosses_start (by decide) hkey
    rw [skipEntry, reads_bind]
    refine ⟨(), m, hs, ?_⟩
    rw [reads_peek_bind, hquote]
    refine reads_bind.2 ⟨(), k, (reads_skipString hquote).2 ⟨_, hk, hpass⟩, ?_⟩
    refine reads_bind.2 ⟨(), k', reads_colon.2 hcolon, ?_⟩
    exact h.complete (a := ()) hp (hlength p (by simp [Member.pieces])) hc hd
  opens := by
    rintro pieces ⟨m, ⟨⟨body, hbody, -⟩, -⟩, rfl⟩
    exact ⟨'"', body ++ ['"'], [[':'], m.value], by rw [Member.pieces, hbody], opensValue_quote⟩

/-- What is skipped is a value, if that is so of what is inside. -/
theorem skipStep_sound (h : Accepts n inner fun p _ => AnyText p)
    (hr : (skipStep inner).Reads c () d) : ∃ p, AnyText p ∧ Crosses c [p] d := by
  obtain ⟨_, m, hs, hr⟩ := reads_bind.1 hr
  rw [reads_peek_bind] at hr
  split at hr
  · simp at hr
  · rename_i hx
    exact ⟨_, .null, crosses_of_skipBlanks hs ((reads_wordFrom hx).1 hr)⟩
  · rename_i hx
    exact ⟨_, .true, crosses_of_skipBlanks hs ((reads_wordFrom hx).1 hr)⟩
  · rename_i hx
    exact ⟨_, .false, crosses_of_skipBlanks hs ((reads_wordFrom hx).1 hr)⟩
  · rename_i hx
    obtain ⟨p, hp, hpass⟩ := (reads_skipString hx).1 hr
    exact ⟨p, .string hp, crosses_of_skipBlanks hs hpass⟩
  · rename_i hx
    obtain ⟨items, hitems, hc⟩ := skipBracket_sound (skips_element h) (reads_advance_bind.1 hr)
    obtain ⟨ps, rfl, hps⟩ := exists_sources hitems
    obtain ⟨inner, hinner, hc⟩ := (crosses_bracket (by decide)).2 ⟨m, hs, hx, hc⟩
    exact ⟨_, .array ⟨inner, rfl, hinner⟩ hps, hc⟩
  · rename_i hx
    obtain ⟨items, hitems, hc⟩ := skipBracket_sound (skips_entry h) (reads_advance_bind.1 hr)
    obtain ⟨ms, rfl, hms⟩ := exists_sources hitems
    obtain ⟨inner, hinner, hc⟩ := (crosses_bracket (by decide)).2 ⟨m, hs, hx, hc⟩
    exact ⟨_, .object ⟨inner, rfl, hinner⟩ (fun m hm => (hms m hm).1) fun m hm => (hms m hm).2, hc⟩
  · split at hr
    · obtain ⟨l, k, hl, hr⟩ := reads_bind.1 hr
      obtain ⟨-, rfl⟩ := reads_pure.1 hr
      obtain ⟨text, ht, hpass⟩ := literal_sound hl
      exact ⟨text, .number ht, crosses_of_skipBlanks hs hpass⟩
    · simp at hr

/-- A value is skipped, if that is so of the shorter ones inside. -/
theorem skipStep_complete (h : Accepts n inner fun p _ => AnyText p) {p : List Char}
    (hp : AnyText p) (hlength : p.length ≤ n + 1) (hc : Crosses c [p] d) (hd : Delimited d) :
    (skipStep inner).Reads c () d := by
  obtain ⟨x, rest, hx, hopens⟩ := anyText_opens hp
  obtain ⟨m, hs, hhead, hpass⟩ := crosses_start hopens.1 (hx ▸ hc)
  rw [← hx] at hpass
  rw [skipStep, reads_bind]
  refine ⟨(), m, hs, ?_⟩
  rw [reads_peek_bind, hhead]
  cases hp with
  | null | true | false =>
      cases hx
      exact (reads_wordFrom hhead).2 hpass
  | string hstring =>
      obtain ⟨body, rfl, -⟩ := id hstring
      cases hx
      exact (reads_skipString hhead).2 ⟨_, hstring, hpass⟩
  | number hl =>
      obtain ⟨y, tail, rfl, hy⟩ := literalText_head hl
      cases hx
      have hnumber : skipNumber.Reads m () d :=
        reads_bind.2 ⟨_, d, literal_complete hl hpass hd, reads_pure.2 ⟨rfl, rfl⟩⟩
      split
      all_goals simp_all [isDigit]
  | array harray hitems =>
      obtain ⟨inner, rfl, hinner⟩ := id harray
      cases hx
      obtain ⟨m', hs', -, hbracket⟩ := (crosses_bracket hopens.1).1 ⟨_, hinner, hc⟩
      obtain ⟨-, rfl⟩ := hs.unique hs'
      refine reads_advance_bind.2 (skipBracket_complete (skips_element h) (.inl rfl) ?_ ?_ hbracket)
      · simp only [List.mem_map, forall_exists_index, and_imp, forall_apply_eq_imp_iff₂]
        exact fun q hq => ⟨q, hitems q hq, rfl⟩
      · simp only [List.mem_map, forall_exists_index, and_imp, forall_apply_eq_imp_iff₂,
          List.mem_singleton, forall_eq]
        exact fun q hq => Nat.le_of_lt_succ (Nat.lt_of_lt_of_le (harray.length_lt hq) hlength)
  | object hobject hkeys hvalues =>
      obtain ⟨inner, rfl, hinner⟩ := id hobject
      cases hx
      obtain ⟨m', hs', -, hbracket⟩ := (crosses_bracket hopens.1).1 ⟨_, hinner, hc⟩
      obtain ⟨-, rfl⟩ := hs.unique hs'
      refine reads_advance_bind.2 (skipBracket_complete (skips_entry h) (.inr rfl) ?_ ?_ hbracket)
      · simp only [List.mem_map, forall_exists_index, and_imp, forall_apply_eq_imp_iff₂]
        exact fun q hq => ⟨q, ⟨hkeys q hq, hvalues q hq⟩, rfl⟩
      · simp only [List.mem_map, forall_exists_index, and_imp, forall_apply_eq_imp_iff₂]
        exact fun q hq piece hpiece =>
          Nat.le_of_lt_succ (Nat.lt_of_lt_of_le (hobject.length_lt hq hpiece) hlength)

/-- The values that the bound reaches are passed over, by induction on the bound. -/
theorem skipWithin_accepts (n : Nat) : Accepts n (skipWithin n) fun p _ => AnyText p := by
  induction n with
  | zero =>
      refine ⟨fun h => absurd h not_reads_failAhead, ?_, anyText_opens⟩
      intro c p _ d hp hlength
      obtain ⟨x, rest, rfl, -⟩ := anyText_opens hp
      exact absurd hlength (by simp)
  | succ n ih =>
      exact ⟨skipStep_sound ih, fun hp hlength hc hd => skipStep_complete ih hp hlength hc hd,
        anyText_opens⟩

/-- A reader bounded by the characters that are left accepts what its bounded forms do. -/
theorem accepts_remaining {α : Type} {r : Nat → Reader α} {L : List Char → α → Prop}
    (h : ∀ k, Accepts k (r k) L) : Accepts n (do r (← remaining)) L where
  sound := fun hr => (h _).sound (reads_remaining_bind.1 hr)
  complete := by
    intro c p a d hp _ hc hd
    have hlength : p.length ≤ c.rest.length := by
      obtain ⟨blanks, m, e, -, hb, hm, -⟩ := crosses_cons.1 hc
      have h₁ := hb.length_eq
      have h₂ := hm.length_eq
      omega
    exact reads_remaining_bind.2 ((h _).complete hp hlength hc hd)
  opens := (h 0).opens

/-- Skipping accepts exactly the values: the bound it takes from the text is never reached. -/
theorem skipValue_accepts (n : Nat) : Accepts n skipValue fun p _ => AnyText p :=
  accepts_remaining skipWithin_accepts

end Json

end SyntaxTree
