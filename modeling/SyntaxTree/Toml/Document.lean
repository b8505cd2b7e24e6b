import SyntaxTree.Toml.Statement

/-! # Documents

The statements of a document fill tables one section at a time: a header closes the section before
it and opens its own. A closed section takes its place behind what its parent already holds, so a
table that was only implied by an earlier header moves there when a header names it. -/

namespace SyntaxTree

namespace Toml

/-- Where a section belongs, unless it is the root's. -/
structure Place where
  path : List Key
  key : Key
  /-- Whether the section is one more element of an array of tables. -/
  isElement : Bool

/-- A document that is being filled: the closed sections, and the open one with its place. -/
structure Draft where
  root : Table
  place : Option Place
  current : Table

namespace Draft

def empty : Draft := ⟨.mk none .header [], none, .mk none .header []⟩

/-- Adds an entry to the open section, whose span now reaches to the end of the value. -/
def add (draft : Draft) (path : List Key) (key : Key) (value : Value) : Option Draft := do
  let filled ← draft.current.insert path key value
  let span := match filled.span, value.span with
    | some whole, some part => some ⟨whole.start, part.stop⟩
    | whole, _ => whole
  pure { draft with current := .mk span filled.origin filled.entries }

/-- Puts the open section into its place. -/
def close (draft : Draft) : Option Table :=
  match draft.place with
  | none => some draft.current
  | some place =>
    let change (parent : Table) : Option (Unit × Table) :=
      match parent.find? place.key.name, place.isElement with
      | none, true => some ((), parent.push place.key (.tables [draft.current]))
      | none, false => some ((), parent.push place.key (.table draft.current))
      | some (.tables elements), true =>
        some ((), parent.set place.key.name (.tables (elements ++ [draft.current])))
      | _, _ => none
    (Table.changeAt .implicit change place.path draft.root).map (·.2)

/-- Takes out of its parent what a section begins with: the entries that earlier headers have put
into the table, if the table is only implied so far. -/
def reopen (place : Place) (parent : Table) : Option (List (Key × Value) × Table) :=
  match parent.find? place.key.name, place.isElement with
  | none, _ => some ([], parent)
  | some (.tables _), true => some ([], parent)
  | some (.table table), false =>
    if table.origin = .implicit then some (table.entries, parent.erase place.key.name) else none
  | _, _ => none

/-- Opens the section of a header. -/
def openSection (draft : Draft) (place : Place) (span : Span) : Option Draft := do
  let root ← draft.close
  let (entries, root) ← Table.changeAt .implicit (reopen place) place.path root
  pure ⟨root, some place, .mk (some span) .header entries⟩

def apply (draft : Draft) : Statement → Option Draft
  | .header isElement span path key => draft.openSection ⟨path, key, isElement⟩ span
  | .entry path key value => draft.add path key value

end Draft

/-- The root table that the statements define, if none of them contradicts another. -/
def rootOf? (statements : List Statement) : Option Table := do
  let draft ← statements.foldlM Draft.apply Draft.empty
  draft.close

/-- The root table of a text that is a document. -/
def parse? (source : String) : Option Table := do
  rootOf? (← statements? source)

end Toml

end SyntaxTree
