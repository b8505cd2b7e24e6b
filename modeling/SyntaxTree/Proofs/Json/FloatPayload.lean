import SyntaxTree.Proofs.Json.Unambiguous
import SyntaxTree.Proofs.Node.Floats

/-! # Payloads of float literals

Every float literal of a tree that has been read comes from one payload in the source. The payloads
are collected along the tree, in the order of its float literals, and a text has only one list of
them. -/

namespace SyntaxTree

namespace Json

open Grammar

/-- Says of a text which payloads of float literals stand in it. -/
abbrev Payloads := List Char → List (List Char) → Prop

namespace Payloads

/-- There are no payloads. -/
def none : Payloads := fun _ payloads => payloads = []

/-- The payload of a float node itself. -/
def leaf : Payloads := fun text payloads =>
  ∃ p, AnyText p ∧ TaggedText "Float" p text ∧ payloads = [p]

/-- The texts of some values, one after another, with the payloads in each of them. -/
structure Parts (inside : List Payloads) (parts : List (List Char × List (List Char))) : Prop where
  values : ∀ part ∈ parts, AnyText part.1
  holds : List.Forall₂ (fun of part => of part.1 part.2) inside parts

/-- The payloads in the items of an array. -/
def items (inside : List Payloads) : Payloads := fun text payloads =>
  ∃ parts, Parts inside parts ∧ ArrayText (parts.map Prod.fst) text ∧
    payloads = parts.flatMap Prod.snd

/-- The payloads in the fields of a variant with the given name. -/
def record (name : String) (fields : List (String × Payloads)) : Payloads := fun text payloads =>
  ∃ q parts, TaggedText name q text ∧ Parts (fields.map Prod.snd) parts ∧
    RecordText ((fields.map Prod.fst).zip (parts.map Prod.fst)) q ∧
    payloads = parts.flatMap Prod.snd

end Payloads

end Json

open Json (Payloads)

mutual

/-- The payloads of the float literals of an expression in a text of it. -/
def Expr.payloads : Expr → Payloads
  | .float _ => .leaf
  | .cast ty expr => .record "Cast" [("ty", ty.payloads), ("expr", expr.payloads)]
  | .call callee args =>
    .record "Call" [("callee", callee.payloads), ("args", .items (Expr.payloadsOfList args))]
  | .index expr index => .record "Index" [("expr", expr.payloads), ("index", index.payloads)]
  | .field expr _ => .record "Field" [("expr", expr.payloads), ("name", .none)]
  | .unary _ expr => .record "Unary" [("op", .none), ("expr", expr.payloads)]
  | .binary _ left right =>
    .record "Binary" [("op", .none), ("left", left.payloads), ("right", right.payloads)]
  | .ternary cond thenExpr elseExpr =>
    .record "Ternary" [("cond", cond.payloads), ("then_expr", thenExpr.payloads),
      ("else_expr", elseExpr.payloads)]
  | .int _ | .str _ | .name _ | .compound => .none

/-- The payloads of each item. -/
def Expr.payloadsOfList : List Expr → List Payloads
  | [] => []
  | expr :: rest => expr.payloads :: Expr.payloadsOfList rest

/-- The payloads of the float literals of a type specification in a text of it. -/
def TypeSpec.payloads : TypeSpec → Payloads
  | .name _ => .none
  | .pointer elem => .record "Pointer" [("elem", elem.payloads)]
  | .array elem size => .record "Array" [("elem", elem.payloads), ("size", size.payloads)]
  | .function args ret =>
    .record "Function" [("args", .items (TypeSpec.payloadsOfList args)), ("ret", ret.payloads)]

def TypeSpec.payloadsOfList : List TypeSpec → List Payloads
  | [] => []
  | ty :: rest => ty.payloads :: TypeSpec.payloadsOfList rest

end

/-- The payloads of the float literals of a tree, in the order of the tree. -/
def Node.payloads : Node → Payloads
  | .expr e => e.payloads
  | .typeSpec t => t.payloads

/-- The float literals of a tree, in the same order. -/
def Node.floats : Node → List Binary64
  | .expr e => e.floats
  | .typeSpec t => t.floats

@[simp] theorem Expr.payloadsOfList_eq_map (exprs : List Expr) :
    Expr.payloadsOfList exprs = exprs.map Expr.payloads := by
  induction exprs with
  | nil => rfl
  | cons e rest ih => rw [Expr.payloadsOfList, ih, List.map_cons]

@[simp] theorem TypeSpec.payloadsOfList_eq_map (types : List TypeSpec) :
    TypeSpec.payloadsOfList types = types.map TypeSpec.payloads := by
  induction types with
  | nil => rfl
  | cons t rest ih => rw [TypeSpec.payloadsOfList, ih, List.map_cons]

namespace Json

open Grammar

namespace Payloads

variable {inside : List Payloads} {fields : List (String × Payloads)} {name : String}
  {text q : List Char}

/-! ## One list of payloads -/

/-- A text has at most one list of payloads. -/
def Unique (of : Payloads) : Prop :=
  ∀ ⦃text payloads payloads'⦄, of text payloads → of text payloads' → payloads = payloads'

theorem Parts.anyText {parts : List (List Char × List (List Char))} (h : Parts inside parts) :
    ∀ p ∈ parts.map Prod.fst, AnyText p := List.forall_mem_map.2 h.values

/-- Parts with the same texts are the same, by induction along them. -/
theorem parts_unique (hinside : ∀ of ∈ inside, Unique of)
    {parts parts' : List (List Char × List (List Char))} (h : Parts inside parts)
    (h' : Parts inside parts') (htexts : parts.map Prod.fst = parts'.map Prod.fst) :
    parts = parts' := by
  replace h := h.holds
  replace h' := h'.holds
  induction h generalizing parts' with
  | nil =>
      cases h'
      rfl
  | @cons of part _ parts hpart _ ih =>
      cases h' with
      | @cons _ part' _ parts' hpart' hparts' =>
          obtain ⟨hof, hinside⟩ := List.forall_mem_cons.1 hinside
          obtain ⟨htext, htexts⟩ := List.cons.inj htexts
          rw [← htext] at hpart'
          rw [ih hinside htexts hparts', Prod.ext htext (hof hpart hpart')]

theorem none_unique : none.Unique := fun _ _ _ h h' => h.trans h'.symm

theorem leaf_unique : leaf.Unique := by
  rintro text _ _ ⟨p, hp, htagged, rfl⟩ ⟨p', hp', htagged', rfl⟩
  rw [taggedText_unique htagged htagged' hp hp']

/-- The items of an array are found in one way, and so are the payloads in them. -/
theorem items_unique (hinside : ∀ of ∈ inside, Unique of) : (items inside).Unique := by
  rintro text _ _ ⟨parts, hparts, htext, rfl⟩ ⟨parts', hparts', htext', rfl⟩
  rw [parts_unique hinside hparts hparts'
    (arrayText_unique htext htext' hparts.anyText hparts'.anyText)]

theorem Parts.length_eq {parts : List (List Char × List (List Char))}
    (h : Parts (fields.map Prod.snd) parts) :
    (parts.map Prod.fst).length = (fields.map Prod.fst).length := by
  have hlength := h.holds.length_eq
  rw [List.length_map] at hlength
  rw [List.length_map, List.length_map, hlength]

/-- The fields of a record are values, and so is the record. -/
theorem Parts.anyText_record {parts : List (List Char × List (List Char))}
    (h : Parts (fields.map Prod.snd) parts)
    (hrecord : RecordText ((fields.map Prod.fst).zip (parts.map Prod.fst)) q) : AnyText q := by
  refine anyText_of_record hrecord fun f hf => h.anyText _ ?_
  exact (List.of_mem_zip hf).2

/-- The fields of a record are found in one way, whatever their order in the text. -/
theorem record_unique (hnames : (fields.map Prod.fst).Nodup)
    (hfields : ∀ of ∈ fields.map Prod.snd, Unique of) : (record name fields).Unique := by
  rintro text _ _ ⟨q, parts, htagged, hparts, hrecord, rfl⟩
    ⟨q', parts', htagged', hparts', hrecord', rfl⟩
  obtain rfl : q = q' := taggedText_unique htagged htagged' (hparts.anyText_record hrecord)
    (hparts'.anyText_record hrecord')
  rw [parts_unique hfields hparts hparts' (recordText_unique hnames hrecord hrecord'
    hparts.length_eq hparts'.length_eq hparts.anyText hparts'.anyText)]

/-! ## Payloads that give float literals -/

/-- The text is that of a value, and its payloads are those of the given float literals. -/
def Give (of : Payloads) (text : List Char) (floats : List Binary64) : Prop :=
  AnyText text ∧ ∃ payloads, of text payloads ∧ List.Forall₂ FloatText payloads floats

theorem none_give (h : AnyText text) : none.Give text [] := ⟨h, [], rfl, .nil⟩

/-- Parts give the float literals of all of them, one part after another. -/
theorem parts_give {parts : List (List Char × List Binary64)}
    (h : List.Forall₂ (fun of part => Give of part.1 part.2) inside parts) :
    ∃ parts', parts'.map Prod.fst = parts.map Prod.fst ∧ Parts inside parts' ∧
      List.Forall₂ FloatText (parts'.flatMap Prod.snd) (parts.flatMap Prod.snd) := by
  induction h with
  | nil => exact ⟨[], rfl, ⟨by simp, .nil⟩, .nil⟩
  | @cons of part _ _ hpart _ ih =>
      obtain ⟨htext, payloads, hof, hfloats⟩ := hpart
      obtain ⟨parts', htexts, ⟨hvalues, hparts⟩, hrest⟩ := ih
      refine ⟨(part.1, payloads) :: parts', ?_, ⟨?_, .cons hof hparts⟩, ?_⟩
      · rw [List.map_cons, List.map_cons, htexts]
      · exact List.forall_mem_cons.2 ⟨htext, hvalues⟩
      · rw [List.flatMap_cons, List.flatMap_cons]
        exact List.rel_append hfloats hrest

/-- An array gives the float literals of its items in order. -/
theorem items_give {parts : List (List Char × List Binary64)}
    (htext : ArrayText (parts.map Prod.fst) text)
    (h : List.Forall₂ (fun of part => Give of part.1 part.2) inside parts) :
    (items inside).Give text (parts.flatMap Prod.snd) := by
  obtain ⟨parts', htexts, hparts, hfloats⟩ := parts_give h
  rw [← htexts] at htext
  exact ⟨.array htext hparts.anyText, _, ⟨parts', hparts, htext, rfl⟩, hfloats⟩

/-- A record gives the float literals of its fields, in the order of the tree, not of the text. -/
theorem record_give (name : String) (fields : List (String × Payloads))
    (parts : List (List Char × List Binary64)) (htagged : TaggedText name q text)
    (hrecord : RecordText ((fields.map Prod.fst).zip (parts.map Prod.fst)) q)
    (h : List.Forall₂ (fun of part => Give of part.1 part.2) (fields.map Prod.snd) parts) :
    (record name fields).Give text (parts.flatMap Prod.snd) := by
  obtain ⟨parts', htexts, hparts, hfloats⟩ := parts_give h
  rw [← htexts] at hrecord
  exact ⟨anyText_of_tagged htagged (hparts.anyText_record hrecord), _,
    ⟨q, parts', htagged, hparts, hrecord, rfl⟩, hfloats⟩

/-- The items of an array give what each node gives. -/
theorem list_give {α : Type} {L : List Char → α → Prop} {payloads : α → Payloads}
    {floats : α → List Binary64} {texts : List (List Char)} {nodes : List α}
    (hnodes : ∀ node ∈ nodes, ∀ text, L text node → (payloads node).Give text (floats node))
    (htexts : List.Forall₂ L texts nodes) (htext : ArrayText texts text) :
    (items (nodes.map payloads)).Give text (nodes.flatMap floats) := by
  have hparts : ∃ parts : List (List Char × List Binary64), parts.map Prod.fst = texts ∧
      parts.flatMap Prod.snd = nodes.flatMap floats ∧
      List.Forall₂ (fun of part => Give of part.1 part.2) (nodes.map payloads) parts := by
    clear htext
    induction htexts with
    | nil => exact ⟨[], rfl, rfl, .nil⟩
    | @cons text node texts nodes hnode _ ih =>
        obtain ⟨hfirst, hrest⟩ := List.forall_mem_cons.1 hnodes
        obtain ⟨parts, rfl, hfloats, hparts⟩ := ih hrest
        refine ⟨(text, floats node) :: parts, rfl, ?_, .cons (hfirst text hnode) hparts⟩
        rw [List.flatMap_cons, List.flatMap_cons, hfloats]
  obtain ⟨parts, rfl, hfloats, hparts⟩ := hparts
  exact hfloats ▸ items_give htext hparts

end Payloads

open Payloads

/-! ## Payloads of a tree -/

theorem anyText_of_float {p : List Char} {x : Binary64} (h : FloatText p x) : AnyText p := by
  cases h with
  | number hl _ => exact .number hl
  | nan hp | infinity hp | negInfinity hp => exact anyText_of_string hp

theorem anyText_of_natural {p : List Char} {n : Nat} (h : NaturalText p n) : AnyText p := by
  obtain ⟨l, hl, -⟩ := naturalText_iff.1 h
  exact .number hl

/-- Every text of a tree holds the payloads of its float literals. By induction over the tree; the
record of a node gives what its fields give. -/
theorem payloads_give :
    (∀ (e : Expr) (text : List Char), ExprText text e → e.payloads.Give text e.floats) ∧
      ∀ (t : TypeSpec) (text : List Char), TypeSpecText text t →
        t.payloads.Give text t.floats := by
  refine Node.induction ?int ?float ?str ?name ?cast ?call ?index ?field ?unary ?binary ?ternary
    ?compound ?typeName ?pointer ?array ?function
  case int =>
    intro value text h
    cases h with
    | int htagged hp => exact none_give (anyText_of_tagged htagged (anyText_of_natural hp))
  case float =>
    intro x text h
    cases h with
    | @float _ p _ htagged hx =>
        have hp := anyText_of_float hx
        exact ⟨anyText_of_tagged htagged hp, [p], ⟨p, hp, htagged, rfl⟩, .cons hx .nil⟩
  case str =>
    intro value text h
    cases h with
    | str htagged hp => exact none_give (anyText_of_tagged htagged (anyText_of_string hp))
  case name =>
    intro name text h
    cases h with
    | name htagged hp => exact none_give (anyText_of_tagged htagged (anyText_of_string hp))
  case cast =>
    intro ty expr hty hexpr text h
    cases h with
    | @cast _ _ a b _ _ htagged hrecord ha hb =>
        have h := record_give "Cast" [("ty", ty.payloads), ("expr", expr.payloads)]
          [(a, ty.floats), (b, expr.floats)] htagged hrecord
          (.cons (hty a ha) (.cons (hexpr b hb) .nil))
        simpa [Expr.payloads, Expr.floats] using h
  case call =>
    intro callee args hcallee hargs text h
    cases h with
    | @call _ _ a b items _ _ htagged hrecord ha hitems hb =>
        have h := record_give "Call"
          [("callee", callee.payloads), ("args", .items (args.map Expr.payloads))]
          [(a, callee.floats), (b, args.flatMap Expr.floats)] htagged hrecord
          (.cons (hcallee a ha) (.cons (list_give hargs hb hitems) .nil))
        simpa [Expr.payloads, Expr.floats] using h
  case index =>
    intro expr index hexpr hindex text h
    cases h with
    | @index _ _ a b _ _ htagged hrecord ha hb =>
        have h := record_give "Index" [("expr", expr.payloads), ("index", index.payloads)]
          [(a, expr.floats), (b, index.floats)] htagged hrecord
          (.cons (hexpr a ha) (.cons (hindex b hb) .nil))
        simpa [Expr.payloads, Expr.floats] using h
  case field =>
    intro expr name hexpr text h
    cases h with
    | @field _ _ a b _ _ htagged hrecord ha hb =>
        have h := record_give "Field" [("expr", expr.payloads), ("name", .none)]
          [(a, expr.floats), (b, [])] htagged hrecord
          (.cons (hexpr a ha) (.cons (none_give (anyText_of_string hb)) .nil))
        simpa [Expr.payloads, Expr.floats] using h
  case unary =>
    intro op expr hexpr text h
    cases h with
    | @unary _ _ a b _ _ htagged hrecord ha hb =>
        have h := record_give "Unary" [("op", .none), ("expr", expr.payloads)]
          [(a, []), (b, expr.floats)] htagged hrecord
          (.cons (none_give (anyText_of_unit ha)) (.cons (hexpr b hb) .nil))
        simpa [Expr.payloads, Expr.floats] using h
  case binary =>
    intro op left right hleft hright text h
    cases h with
    | @binary _ _ a b c _ _ _ htagged hrecord ha hb hc =>
        have h := record_give "Binary"
          [("op", .none), ("left", left.payloads), ("right", right.payloads)]
          [(a, []), (b, left.floats), (c, right.floats)] htagged hrecord
          (.cons (none_give (anyText_of_unit ha)) (.cons (hleft b hb) (.cons (hright c hc) .nil)))
        simpa [Expr.payloads, Expr.floats] using h
  case ternary =>
    intro cond thenExpr elseExpr hcond hthen helse text h
    cases h with
    | @ternary _ _ a b c _ _ _ htagged hrecord ha hb hc =>
        have h := record_give "Ternary" [("cond", cond.payloads),
          ("then_expr", thenExpr.payloads), ("else_expr", elseExpr.payloads)]
          [(a, cond.floats), (b, thenExpr.floats), (c, elseExpr.floats)] htagged hrecord
          (.cons (hcond a ha) (.cons (hthen b hb) (.cons (helse c hc) .nil)))
        simpa [Expr.payloads, Expr.floats] using h
  case compound =>
    intro text h
    cases h with
    | compound htext => exact none_give (anyText_of_unit htext)
  case typeName =>
    intro name text h
    cases h with
    | name htagged hp => exact none_give (anyText_of_tagged htagged (anyText_of_string hp))
  case pointer =>
    intro elem helem text h
    cases h with
    | @pointer _ _ a _ htagged hrecord ha =>
        have h := record_give "Pointer" [("elem", elem.payloads)] [(a, elem.floats)] htagged
          hrecord (.cons (helem a ha) .nil)
        simpa [TypeSpec.payloads, TypeSpec.floats] using h
  case array =>
    intro elem size helem hsize text h
    cases h with
    | @array _ _ a b _ _ htagged hrecord ha hb =>
        have h := record_give "Array" [("elem", elem.payloads), ("size", size.payloads)]
          [(a, elem.floats), (b, size.floats)] htagged hrecord
          (.cons (helem a ha) (.cons (hsize b hb) .nil))
        simpa [TypeSpec.payloads, TypeSpec.floats] using h
  case function =>
    intro args ret hargs hret text h
    cases h with
    | @function _ _ a b items _ _ htagged hrecord hitems ha hb =>
        have h := record_give "Function"
          [("args", .items (args.map TypeSpec.payloads)), ("ret", ret.payloads)]
          [(a, args.flatMap TypeSpec.floats), (b, ret.floats)] htagged hrecord
          (.cons (list_give hargs ha hitems) (.cons (hret b hb) .nil))
        simpa [TypeSpec.payloads, TypeSpec.floats] using h

/-- A text of a tree has one list of payloads, by induction over the tree. -/
theorem payloads_unique :
    (∀ e : Expr, e.payloads.Unique) ∧ ∀ t : TypeSpec, t.payloads.Unique := by
  refine Node.induction ?int ?float ?str ?name ?cast ?call ?index ?field ?unary ?binary ?ternary
    ?compound ?typeName ?pointer ?array ?function
  case int => exact fun _ => none_unique
  case float => exact fun _ => leaf_unique
  case str => exact fun _ => none_unique
  case name => exact fun _ => none_unique
  case cast => exact fun _ _ hty hexpr => record_unique (by simp) (by simp [hty, hexpr])
  case call =>
    intro callee args hcallee hargs
    have hitems : (items (Expr.payloadsOfList args)).Unique :=
      items_unique (by simpa using hargs)
    exact record_unique (by simp) (List.forall_mem_cons.2 ⟨hcallee, by simpa using hitems⟩)
  case index => exact fun _ _ hexpr hindex => record_unique (by simp) (by simp [hexpr, hindex])
  case field => exact fun _ _ hexpr => record_unique (by simp) (by simp [hexpr, none_unique])
  case unary => exact fun _ _ hexpr => record_unique (by simp) (by simp [hexpr, none_unique])
  case binary =>
    exact fun _ _ _ hleft hright => record_unique (by simp) (by simp [hleft, hright, none_unique])
  case ternary =>
    exact fun _ _ _ hcond hthen helse => record_unique (by simp) (by simp [hcond, hthen, helse])
  case compound => exact none_unique
  case typeName => exact fun _ => none_unique
  case pointer => exact fun _ helem => record_unique (by simp) (by simp [helem])
  case array => exact fun _ _ helem hsize => record_unique (by simp) (by simp [helem, hsize])
  case function =>
    intro args ret hargs hret
    have hitems : (items (TypeSpec.payloadsOfList args)).Unique :=
      items_unique (by simpa using hargs)
    exact record_unique (by simp) (List.forall_mem_cons.2 ⟨hitems, by simpa using hret⟩)

/-- The payloads of the float literals of a tree in the source, between any blanks. -/
def PayloadsIn (node : Node) (source : String) (payloads : List (List Char)) : Prop :=
  Document (fun text payloads => AnyText text ∧ node.payloads text payloads) source payloads

/-- A source has one list of payloads for a tree. -/
theorem payloadsIn_unique {node : Node} {source : String} {payloads payloads' : List (List Char)}
    (h : PayloadsIn node source payloads) (h' : PayloadsIn node source payloads') :
    payloads = payloads' := by
  obtain ⟨before, text, after, hsource, hb, ha, htext, hpayloads⟩ := h
  obtain ⟨before', text', after', hsource', hb', ha', htext', hpayloads'⟩ := h'
  obtain rfl : text = text' := document_unique captured_accepts
    ⟨before, text, after, hsource, hb, ha, htext, rfl⟩
    ⟨before', text', after', hsource', hb', ha', htext', rfl⟩
  cases node with
  | expr e => exact payloads_unique.1 e hpayloads hpayloads'
  | typeSpec t => exact payloads_unique.2 t hpayloads hpayloads'

/-- An accepted source has a payload for every float literal of its tree, and each reads as its
literal. -/
theorem exists_payloadsIn {sort : NodeSort} {source : String} {node : Node}
    (h : Node.ofJson sort source = .ok node) :
    ∃ payloads, PayloadsIn node source payloads ∧ List.Forall₂ FloatText payloads node.floats := by
  cases sort with
  | expr =>
      cases he : Expr.ofJson source with
      | error failure => simp [Node.ofJson, he, Except.map] at h
      | ok e =>
          obtain rfl : .expr e = node := by simpa [Node.ofJson, he, Except.map] using h
          obtain ⟨before, text, after, hsource, hb, ha, htext⟩ := (ofJson_eq_ok_iff.1 _ _).1 he
          obtain ⟨hvalue, payloads, hpayloads, hfloats⟩ := payloads_give.1 e text htext
          exact ⟨payloads, ⟨before, text, after, hsource, hb, ha, hvalue, hpayloads⟩, hfloats⟩
  | typeSpec =>
      cases ht : TypeSpec.ofJson source with
      | error failure => simp [Node.ofJson, ht, Except.map] at h
      | ok t =>
          obtain rfl : .typeSpec t = node := by simpa [Node.ofJson, ht, Except.map] using h
          obtain ⟨before, text, after, hsource, hb, ha, htext⟩ := (ofJson_eq_ok_iff.2 _ _).1 ht
          obtain ⟨hvalue, payloads, hpayloads, hfloats⟩ := payloads_give.2 t text htext
          exact ⟨payloads, ⟨before, text, after, hsource, hb, ha, hvalue, hpayloads⟩, hfloats⟩

end Json

end SyntaxTree
