import SyntaxTree.Proofs.Toml.Tables
import SyntaxTree.Toml.Document

/-! # Documents have distinct keys

What a scanner yields is followed from the characters to the statements: every value has distinct
keys at any depth. The statements then fill the tables without entering a key twice. -/

namespace SyntaxTree

namespace Toml

open Text (Cursor)

namespace Scan

/-- Everything that the scanner yields satisfies the predicate. -/
def Yields {α : Type} (scan : Scan α) (P : α → Prop) : Prop :=
  ∀ cursor a rest, scan cursor = some (a, rest) → P a

section Rules

variable {α β : Type} {P : α → Prop} {Q : β → Prop}

theorem yields_anything (scan : Scan α) : Yields scan fun _ => True := fun _ _ _ _ => trivial

theorem yields_pure {a : α} (h : P a) : Yields (pure a) P := by
  intro cursor b rest heq
  obtain ⟨rfl, -⟩ := Prod.mk.inj (Option.some.inj heq)
  exact h

/-- What a scanner yields is what the next one starts from. -/
theorem Yields.bind {scan : Scan α} {next : α → Scan β} (h : Yields scan P)
    (hnext : ∀ a, P a → Yields (next a) Q) : Yields (scan >>= next) Q := by
  intro cursor b rest heq
  change (scan cursor).bind (fun p => next p.1 p.2) = some (b, rest) at heq
  obtain ⟨⟨a, middle⟩, hscan, heq⟩ := Option.bind_eq_some_iff.1 heq
  exact hnext a (h cursor a middle hscan) middle b rest heq

/-- What comes from later scanners does not hang on this one. -/
theorem yields_bind {scan : Scan α} {next : α → Scan β} (hnext : ∀ a, Yields (next a) Q) :
    Yields (scan >>= next) Q := (yields_anything scan).bind fun a _ => hnext a

theorem Yields.orElse {scan scan' : Scan α} (h : Yields scan P) (h' : Yields scan' P) :
    Yields (scan <|> scan') P := by
  intro cursor a rest heq
  change (scan cursor <|> scan' cursor) = some (a, rest) at heq
  rcases Option.or_eq_some_iff.1 (Option.orElse_eq_or.symm.trans heq) with heq | ⟨-, heq⟩
  · exact h cursor a rest heq
  · exact h' cursor a rest heq

theorem yields_lift {o : Option α} (h : ∀ a, o = some a → P a) :
    Yields (liftM o : Scan α) P := by
  intro cursor a rest heq
  change o.bind (fun a => some (a, cursor)) = some (a, rest) at heq
  obtain ⟨b, hb, heq⟩ := Option.bind_eq_some_iff.1 heq
  obtain ⟨rfl, -⟩ := Prod.mk.inj (Option.some.inj heq)
  exact h b hb

theorem Yields.spanned {scan : Scan α} (h : Yields scan P) :
    Yields (spanned scan) fun p => P p.1 := by
  intro cursor p rest heq
  obtain ⟨⟨a, stop⟩, hscan, heq⟩ := Option.bind_eq_some_iff.1 heq
  obtain ⟨rfl, -⟩ := Prod.mk.inj (Option.some.inj heq)
  exact h cursor a stop hscan

/-- Every item of a run is one that the scanner yields, by induction on the bound. -/
theorem Yields.manyWithin {scan : Scan α} (h : Yields scan P) (bound : Nat) :
    Yields (manyWithin scan bound) fun values => ∀ a ∈ values, P a := by
  have hnil : ∀ a ∈ ([] : List α), P a := fun a ha => absurd ha List.not_mem_nil
  induction bound with
  | zero => exact yields_pure hnil
  | succ bound ih =>
      refine Yields.orElse (h.bind fun a ha => ih.bind fun values hvalues => ?_) (yields_pure hnil)
      exact yields_pure (List.forall_mem_cons.2 ⟨ha, hvalues⟩)

/-- The separators yield nothing, so the items alone matter. -/
theorem Yields.separated {item : Scan α} (h : Yields item P) (separator : Scan Unit) :
    Yields (separated item separator) fun values => ∀ a ∈ values, P a := by
  have hmany : Yields (many (do separator; item)) fun values => ∀ a ∈ values, P a :=
    yields_bind fun bound => (yields_bind fun _ => h).manyWithin bound
  refine Yields.orElse (h.bind fun a ha => hmany.bind fun values hvalues => ?_) (yields_pure ?_)
  · exact yields_pure (List.forall_mem_cons.2 ⟨ha, hvalues⟩)
  · exact fun a ha => absurd ha List.not_mem_nil

end Rules

end Scan

/-- The value of an entry holds no key twice. -/
def Statement.Distinct : Statement → Prop
  | .header _ _ _ _ => True
  | .entry _ _ value => value.Distinct

namespace Scan

/-! ## Values and statements -/

section Values

variable {inner : Scan Value}

/-- The elements of an array are as distinct as the inner scanner makes values. -/
theorem yields_array (h : Yields inner Value.Distinct) :
    Yields (array inner) fun elements => ∀ v ∈ elements, v.Distinct := by
  refine yields_bind fun _ => Yields.bind (P := fun elements => ∀ v ∈ elements, v.Distinct) ?_
    fun elements helements => ?_
  · refine Yields.separated (yields_bind fun _ => h.bind fun v hv => ?_) _
    exact yields_bind fun _ => yields_pure hv
  · split
    · exact yields_bind fun _ => yields_bind fun _ => yields_bind fun _ => yields_pure helements
    · exact yields_bind fun _ => yields_bind fun _ => yields_pure helements

/-- The value of an entry comes from the inner scanner; its key says nothing about it. -/
theorem yields_keyValue (h : Yields inner Value.Distinct) :
    Yields (keyValue inner) fun entry => entry.2.2.Distinct := by
  refine yields_bind fun ⟨path, key⟩ => yields_bind fun _ => yields_bind fun _ => ?_
  exact h.bind fun v hv => yields_pure hv

/-- Insertion after insertion keeps the names of a table distinct, and fails on a repeated one. -/
theorem yields_insertAll {entries : List (List Key × Key × Value)} {table : Table}
    (h : table.Distinct) (hentries : ∀ e ∈ entries, e.2.2.Distinct) :
    Yields (entries.foldlM (fun (table : Table) (path, key, value) =>
      (table.insert path key value : Scan Table)) table) Table.Distinct := by
  induction entries generalizing table with
  | nil => exact yields_pure h
  | cons entry entries ih =>
      obtain ⟨hfirst, hrest⟩ := List.forall_mem_cons.1 hentries
      rw [List.foldlM_cons]
      refine Yields.bind (P := Table.Distinct) ?_ fun table' h' => ih h' hrest
      exact yields_lift fun table' heq => Table.insert_distinct h hfirst heq

/-- A table between braces is filled by insertions into an empty one. -/
theorem yields_inlineTable (h : Yields inner Value.Distinct) :
    Yields (inlineTable inner) fun entries =>
      ∀ span origin, (Table.mk span origin entries).Distinct := by
  refine yields_bind fun _ => Yields.bind (P := fun entries => ∀ e ∈ entries, e.2.2.Distinct) ?_
    fun entries hentries => ?_
  · refine Yields.separated ((yields_keyValue h).bind fun entry hentry => ?_) _
    exact yields_bind fun _ => yields_pure hentry
  · refine yields_bind fun _ => yields_bind fun _ => ?_
    exact (yields_insertAll (.empty _ _) hentries).bind fun table htable =>
      yields_pure htable.relabel

theorem yields_scalarValue : Yields scalarValue Value.Distinct :=
  yields_bind fun _ => yields_pure .scalar

/-- By induction on the depth: the brackets inside a value are read at a smaller one. -/
theorem yields_valueWithin (depth : Nat) : Yields (valueWithin depth) Value.Distinct := by
  induction depth with
  | zero => exact yields_scalarValue
  | succ depth ih =>
      refine yields_bind fun next => ?_
      split
      · exact (yields_array ih).spanned.bind fun p hp => yields_pure (.array hp)
      · exact (yields_inlineTable ih).spanned.bind fun p hp => yields_pure (.table (hp _ _))
      · exact yields_scalarValue

end Values

theorem yields_entry : Yields entry Statement.Distinct :=
  (yields_keyValue (yields_valueWithin _)).bind fun _ hvalue => yields_pure hvalue

theorem yields_header : Yields header Statement.Distinct :=
  (yields_bind fun _ => yields_pure trivial).orElse (yields_bind fun _ => yields_pure trivial)

/-- Every statement of a document, by induction on the bound. -/
theorem yields_statementsWithin (bound : Nat) :
    Yields (statementsWithin bound) fun statements => ∀ s ∈ statements, s.Distinct := by
  have hnil : ∀ s ∈ ([] : List Statement), s.Distinct := fun s hs => absurd hs List.not_mem_nil
  induction bound with
  | zero => exact yields_bind fun _ => yields_pure hnil
  | succ bound ih =>
      refine yields_bind fun _ => yields_bind fun next => ?_
      split
      · exact yields_pure hnil
      · exact yields_bind fun _ => ih
      · exact yields_bind fun _ => ih
      · exact yields_bind fun _ => ih
      · have hafter (statement : Statement) (hstatement : statement.Distinct) :
            Yields (do lineEnd; let statements ← statementsWithin bound
                       pure (statement :: statements)) fun statements =>
              ∀ s ∈ statements, s.Distinct :=
          yields_bind fun _ => ih.bind fun statements hstatements =>
            yields_pure (List.forall_mem_cons.2 ⟨hstatement, hstatements⟩)
        split
        · exact yields_header.bind hafter
        · exact yields_entry.bind hafter

theorem yields_document :
    Yields document fun statements => ∀ s ∈ statements, s.Distinct :=
  yields_bind fun _ => yields_bind fun _ => yields_statementsWithin _

end Scan

/-! ## Filling the tables -/

namespace Draft

variable {draft draft' : Draft}

/-- No table of the document holds a key twice so far. -/
structure Distinct (draft : Draft) : Prop where
  root : draft.root.Distinct
  current : draft.current.Distinct

theorem empty_distinct : empty.Distinct := ⟨.empty _ _, .empty _ _⟩

/-- An entry goes into the open section by an insertion. -/
theorem add_distinct {path : List Key} {key : Key} {value : Value} (h : draft.Distinct)
    (hvalue : value.Distinct) (heq : draft.add path key value = some draft') :
    draft'.Distinct := by
  obtain ⟨filled, hfilled, heq⟩ := Option.bind_eq_some_iff.1 heq
  obtain rfl := Option.some.inj heq
  exact ⟨h.root, (Table.insert_distinct h.current hvalue hfilled).relabel _ _⟩

/-- Closing puts the open section into the root, under a free name or at the end of an array of
tables. -/
theorem close_distinct {root : Table} (h : draft.Distinct) (heq : draft.close = some root) :
    root.Distinct := by
  rw [close] at heq
  split at heq
  · obtain rfl := Option.some.inj heq
    exact h.current
  · obtain ⟨⟨result, root'⟩, hchange, rfl⟩ := Option.map_eq_some_iff.1 heq
    refine (Table.changeAt_distinct (P := fun _ => True) ?_ h.root hchange).2
    intro parent result parent' hparent hclose
    refine ⟨trivial, ?_⟩
    split at hclose
    · next hfind _ =>
      obtain ⟨-, rfl⟩ := Prod.mk.inj (Option.some.inj hclose)
      exact hparent.push hfind (.tables (List.forall_mem_singleton.2 h.current))
    · next hfind _ =>
      obtain ⟨-, rfl⟩ := Prod.mk.inj (Option.some.inj hclose)
      exact hparent.push hfind (.table h.current)
    · next hfind _ =>
      obtain ⟨-, rfl⟩ := Prod.mk.inj (Option.some.inj hclose)
      have helements := (hparent.find? hfind).of_tables
      exact hparent.set (.tables (List.forall_mem_append.2
        ⟨helements, List.forall_mem_singleton.2 h.current⟩))
    · cases hclose

/-- What a section begins with are entries of a table, and the parent is left with fewer. -/
theorem reopen_distinct {place : Place} {parent parent' : Table} {entries : List (Key × Value)}
    (h : parent.Distinct) (heq : reopen place parent = some (entries, parent')) :
    (∀ span origin, (Table.mk span origin entries).Distinct) ∧ parent'.Distinct := by
  rw [reopen] at heq
  split at heq
  · obtain ⟨rfl, rfl⟩ := Prod.mk.inj (Option.some.inj heq)
    exact ⟨.empty, h⟩
  · obtain ⟨rfl, rfl⟩ := Prod.mk.inj (Option.some.inj heq)
    exact ⟨.empty, h⟩
  · next hfind _ =>
    split at heq
    · obtain ⟨rfl, rfl⟩ := Prod.mk.inj (Option.some.inj heq)
      exact ⟨(h.find? hfind).of_table.relabel, h.erase⟩
    · cases heq
  · cases heq

/-- Opening a section closes the one before and starts from a table that may have entries. -/
theorem openSection_distinct {place : Place} {span : Span} (h : draft.Distinct)
    (heq : draft.openSection place span = some draft') : draft'.Distinct := by
  obtain ⟨root, hclose, heq⟩ := Option.bind_eq_some_iff.1 heq
  obtain ⟨⟨entries, root'⟩, hchange, heq⟩ := Option.bind_eq_some_iff.1 heq
  obtain rfl := Option.some.inj heq
  obtain ⟨hentries, hroot⟩ :=
    Table.changeAt_distinct reopen_distinct (close_distinct h hclose) hchange
  exact ⟨hroot, hentries _ _⟩

/-- One statement keeps the names of the draft distinct. -/
theorem apply_distinct {statement : Statement} (h : draft.Distinct)
    (hstatement : statement.Distinct) (heq : draft.apply statement = some draft') :
    draft'.Distinct := by
  cases statement with
  | header isElement span path key => exact openSection_distinct h heq
  | entry path key value => exact add_distinct h hstatement heq

/-- By induction on the statements: the invariant of the draft is what one statement keeps. -/
theorem applyAll_distinct {statements : List Statement} (h : draft.Distinct)
    (hstatements : ∀ s ∈ statements, s.Distinct)
    (heq : statements.foldlM apply draft = some draft') : draft'.Distinct := by
  induction statements generalizing draft with
  | nil =>
      obtain rfl := Option.some.inj heq
      exact h
  | cons statement statements ih =>
      obtain ⟨hfirst, hrest⟩ := List.forall_mem_cons.1 hstatements
      rw [List.foldlM_cons] at heq
      obtain ⟨middle, happly, heq⟩ := Option.bind_eq_some_iff.1 heq
      exact ih (apply_distinct h hfirst happly) hrest heq

end Draft

/-- The statements are applied one by one to the empty draft. -/
theorem rootOf?_distinct {statements : List Statement} {root : Table}
    (h : ∀ s ∈ statements, s.Distinct) (heq : rootOf? statements = some root) :
    root.Distinct := by
  obtain ⟨draft, hfill, hclose⟩ := Option.bind_eq_some_iff.1 heq
  exact Draft.close_distinct (Draft.applyAll_distinct Draft.empty_distinct h hfill) hclose

/-- In the tables of a document no key occurs twice. -/
theorem parse?_distinct {source : String} {root : Table} (h : parse? source = some root) :
    root.Distinct := by
  obtain ⟨statements, hstatements, hroot⟩ := Option.bind_eq_some_iff.1 h
  obtain ⟨⟨statements, rest⟩, hscan, rfl⟩ := Option.map_eq_some_iff.1 hstatements
  exact rootOf?_distinct (Scan.yields_document _ _ _ hscan) hroot

end Toml

end SyntaxTree
