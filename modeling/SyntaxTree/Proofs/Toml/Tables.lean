import SyntaxTree.Toml.Value

/-! # Tables with distinct keys

No table holds a key twice, at any depth. Every change of a table keeps this, because a new entry
comes under a key that is not there yet and a new value takes the place of the old one. -/

namespace SyntaxTree

namespace Toml

mutual

/-- No table inside the value holds a key twice. -/
inductive Value.Distinct : Value → Prop
  | scalar {span : Span} {value : Scalar} : Value.Distinct (.scalar span value)
  | array {span : Span} {elements : List Value} :
      (∀ v ∈ elements, Value.Distinct v) → Value.Distinct (.array span elements)
  | table {table : Table} : Table.Distinct table → Value.Distinct (.table table)
  | tables {elements : List Table} :
      (∀ t ∈ elements, Table.Distinct t) → Value.Distinct (.tables elements)

/-- Neither the table nor any table inside it holds a key twice. -/
inductive Table.Distinct : Table → Prop
  | mk {span : Option Span} {origin : Origin} {entries : List (Key × Value)} :
      (entries.map (·.1.name)).Nodup → (∀ e ∈ entries, Value.Distinct e.2) →
      Table.Distinct (.mk span origin entries)

end

theorem Value.Distinct.of_table {table : Table} (h : (Value.table table).Distinct) :
    table.Distinct := by
  cases h with
  | table h => exact h

theorem Value.Distinct.of_tables {elements : List Table} (h : (Value.tables elements).Distinct) :
    ∀ t ∈ elements, t.Distinct := by
  cases h with
  | tables h => exact h

namespace Table

section Lookup

variable {table : Table} {name : String} {value : Value} {key : Key}

theorem find?_eq_some (h : table.find? name = some value) :
    ∃ key, (key, value) ∈ table.entries ∧ key.name = name := by
  obtain ⟨⟨key, value'⟩, hfind, rfl⟩ := Option.map_eq_some_iff.1 h
  exact ⟨key, List.mem_of_find?_eq_some hfind, by simpa using List.find?_some hfind⟩

theorem find?_eq_none (h : table.find? name = none) : name ∉ table.entries.map (·.1.name) := by
  rw [find?, Option.map_eq_none_iff, List.find?_eq_none] at h
  rw [List.mem_map]
  rintro ⟨entry, hentry, hname⟩
  exact h entry hentry (by simpa using hname)

end Lookup

namespace Distinct

variable {table : Table} {name : String} {value : Value} {key : Key}

theorem nodup (h : table.Distinct) : (table.entries.map (·.1.name)).Nodup := by
  cases h with
  | mk hkeys _ => exact hkeys

theorem values (h : table.Distinct) : ∀ e ∈ table.entries, e.2.Distinct := by
  cases h with
  | mk _ hvalues => exact hvalues

/-- Where a table was written and how it came about do not matter. -/
theorem relabel (h : table.Distinct) (span : Option Span) (origin : Origin) :
    (Table.mk span origin table.entries).Distinct := .mk h.nodup h.values

theorem empty (span : Option Span) (origin : Origin) : (Table.mk span origin []).Distinct :=
  .mk List.nodup_nil fun _ he => absurd he List.not_mem_nil

theorem find? (h : table.Distinct) (hfind : table.find? name = some value) : value.Distinct := by
  obtain ⟨key, hmem, -⟩ := find?_eq_some hfind
  exact h.values _ hmem

/-- A new entry under a free name. This is where the search before an insertion is needed. -/
theorem push (h : table.Distinct) (hnew : table.find? key.name = none) (hvalue : value.Distinct) :
    (table.push key value).Distinct := by
  refine .mk ?_ ?_
  · rw [List.map_append, List.nodup_append]
    refine ⟨h.nodup, List.pairwise_singleton _ _, fun a ha b hb => ?_⟩
    obtain rfl : b = key.name := by simpa using hb
    rintro rfl
    exact find?_eq_none hnew ha
  · rw [List.forall_mem_append]
    exact ⟨h.values, List.forall_mem_singleton.2 hvalue⟩

/-- Another value under a name that is there leaves the names as they are. -/
theorem set (h : table.Distinct) (hvalue : value.Distinct) : (table.set name value).Distinct := by
  refine .mk ?_ ?_
  · have hkeys : (table.entries.map fun e => if e.1.name == name then (e.1, value) else e).map
        (·.1.name) = table.entries.map (·.1.name) := by
      rw [List.map_map]
      refine List.map_congr_left fun e _ => ?_
      dsimp only [Function.comp]
      split <;> rfl
    rw [hkeys]
    exact h.nodup
  · rw [List.forall_mem_map]
    intro e he
    split
    · exact hvalue
    · exact h.values e he

theorem erase (h : table.Distinct) : (table.erase name).Distinct := by
  refine .mk ?_ ?_
  · exact List.Nodup.sublist (List.Sublist.map _ List.filter_sublist) h.nodup
  · exact fun e he => h.values e (List.mem_filter.1 he).1

end Distinct

/-- A change at the end of a path keeps the keys distinct if the change itself does. What it gives
besides satisfies whatever the change promises of it. -/
theorem changeAt_distinct {α : Type} {P : α → Prop} {purpose : Origin}
    {change : Table → Option (α × Table)}
    (hchange : ∀ {table result table'}, table.Distinct → change table = some (result, table') →
      P result ∧ table'.Distinct) {path : List Key} {table table' : Table} {result : α}
    (h : table.Distinct) (heq : changeAt purpose change path table = some (result, table')) :
    P result ∧ table'.Distinct := by
  induction path generalizing table table' result with
  | nil => exact hchange h heq
  | cons key path ih =>
      rw [changeAt] at heq
      cases hfind : table.find? key.name with
      | none =>
          simp only [hfind, Option.bind_eq_bind, Option.bind_eq_some_iff, Option.pure_def,
            Option.some.injEq, Prod.mk.injEq, Prod.exists] at heq
          obtain ⟨r, child, hchild, rfl, rfl⟩ := heq
          obtain ⟨hr, hchild⟩ := ih (.empty _ _) hchild
          exact ⟨hr, h.push hfind (.table hchild)⟩
      | some value =>
          have hvalue := h.find? hfind
          cases value with
          | table child =>
              simp only [hfind, Option.bind_eq_bind, Option.pure_def] at heq
              split at heq
              · simp only [Option.bind_eq_some_iff, Option.some.injEq, Prod.mk.injEq,
                  Prod.exists] at heq
                obtain ⟨r, child', hchild, rfl, rfl⟩ := heq
                obtain ⟨hr, hchild⟩ := ih hvalue.of_table hchild
                exact ⟨hr, h.set (.table hchild)⟩
              · cases heq
          | tables elements =>
              simp only [hfind, Option.bind_eq_bind, Option.bind_eq_some_iff, Option.pure_def,
                Option.some.injEq, Prod.mk.injEq, Prod.exists] at heq
              obtain ⟨last, hlast, r, last', hchild, rfl, rfl⟩ := heq
              have helements := hvalue.of_tables
              obtain ⟨hr, hchild⟩ := ih (helements last (List.mem_of_getLast? hlast)) hchild
              refine ⟨hr, h.set (.tables (List.forall_mem_append.2 ⟨fun t ht => ?_, ?_⟩))⟩
              · exact helements t (List.dropLast_subset _ ht)
              · exact List.forall_mem_singleton.2 hchild
          | scalar span value => simp [hfind] at heq
          | array span elements => simp [hfind] at heq

/-- An insertion puts its entry under a name that was free, wherever its path leads. -/
theorem insert_distinct {table table' : Table} {path : List Key} {key : Key} {value : Value}
    (h : table.Distinct) (hvalue : value.Distinct)
    (heq : table.insert path key value = some table') : table'.Distinct := by
  obtain ⟨⟨result, table''⟩, hchange, rfl⟩ := Option.map_eq_some_iff.1 heq
  refine (changeAt_distinct (P := fun _ => True) ?_ h hchange).2
  intro target result target' htarget hinsert
  split at hinsert
  · cases hinsert
  · split at hinsert
    · cases hinsert
    · rename_i hnew
      obtain ⟨-, rfl⟩ := Prod.mk.inj (Option.some.inj hinsert)
      exact ⟨trivial, htarget.push (Option.not_isSome_iff_eq_none.1 hnew) hvalue⟩

end Table

end Toml

end SyntaxTree
