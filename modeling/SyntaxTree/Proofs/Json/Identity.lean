import SyntaxTree.Proofs.Json.Injective
import SyntaxTree.Proofs.Json.TreeFront
import SyntaxTree.Proofs.Node.Agreement
import SyntaxTree.Proofs.Print.Words

/-! # The written text identifies the tree

Two trees are written alike exactly if they agree node by node, with float leaves that have the
same bits or are both not a number. The shortest digits of a finite number round to that number, so
no two numbers share them. -/

namespace SyntaxTree

namespace Json

open Grammar
open Print (repr_injective)

/-! ## Float leaves -/

/-- The literal of a finite number has its sign and rounds to its magnitude. -/
theorem exists_rounded_literal {x : Binary64} (hfinite : x.isFinite = true) :
    ∃ (l : Literal) (r : Ratio), LiteralText (floatValue x).toList l ∧ l.negative = x.isNegative ∧
      r.toRat = l.digits * 10 ^ l.power ∧ Binary64.nearestMagnitude r = x.magnitudeBits := by
  cases hzero : x.isZero with
  | true =>
      have hx := Binary64.eq_zero_of_isZero hzero
      refine ⟨⟨x.isNegative, ['0'], ['0'], none⟩, .ofNat 0, ?_, rfl, ?_, ?_⟩
      · rw [hx, zero_literal, ← hx]
        exact ⟨['.', '0'], [], rfl, wholeText_singleton rfl, .present (digits_singleton rfl),
          .absent⟩
      · simp [Ratio.toRat, Ratio.ofNat, Literal.digits, decimalValue, Nat.ofDigitChars_cons]
      · rw [beq_iff_eq.1 hzero]
        refine Binary64.nearestMagnitude_of_units ?_
        rw [Binary64.position_ofNat, Nat.cast_zero, zero_mul]
        rfl
  | false =>
      obtain ⟨l, d, rfl, hliteral, hnegative, hl, -⟩ := exists_literal hfinite hzero
      obtain ⟨hrounds, -⟩ := Decimal.shortest_spec numberLayout.tie hfinite hzero
      exact ⟨l, _, hliteral, hnegative, hl.value_eq.symm, hrounds⟩

/-- Finite floats are written apart: the shortest decimals of two are equal only if they are. -/
theorem floatValue_inj_of_finite {x y : Binary64} (hx : x.isFinite = true) (hy : y.isFinite = true)
    (h : floatValue x = floatValue y) : x = y := by
  obtain ⟨l, r, hl, hsign, hr, hnear⟩ := exists_rounded_literal hx
  obtain ⟨l', r', hl', hsign', hr', hnear'⟩ := exists_rounded_literal hy
  obtain rfl : l = l' := literalText_unique (h ▸ hl) hl'
  refine Binary64.eq_of_parts (hsign.symm.trans hsign') ?_
  rw [← hnear, ← hnear', Binary64.nearestMagnitude_congr (hr.trans hr'.symm)]

/-- A number that is not finite is written as its name. -/
theorem exists_quoted_name {x : Binary64} (h : x.isFinite = false) :
    ∃ name, floatValue x = quote name := by
  unfold floatValue
  split
  · exact ⟨"nan", by decide⟩
  · rename_i hnan
    split
    · split
      · exact ⟨"-inf", by decide⟩
      · exact ⟨"inf", by decide⟩
    · rename_i hinf
      rw [Binary64.isFinite_of_not (by simpa using hnan) (by simpa using hinf)] at h
      cases h

/-- A number that is not finite is read back from its name. -/
theorem readsBack_canonical {x : Binary64} (h : x.isFinite = false) :
    readDocument float (floatValue x) = .ok x.canonical := by
  refine (readDocument_iff float_accepts).2 (floatValue_text fun hfinite => ?_)
  rw [h] at hfinite
  cases hfinite

/-- No finite float is written as one of the names. -/
theorem isFinite_eq_of_floatValue {x y : Binary64} (h : floatValue x = floatValue y) :
    x.isFinite = y.isFinite := by
  have finite {x y : Binary64} (h : floatValue x = floatValue y) (hx : x.isFinite = true) :
      y.isFinite = true := by
    obtain ⟨l, -, hl, -⟩ := exists_rounded_literal hx
    obtain ⟨c, rest, htext, hc⟩ := literalText_head hl
    by_contra hy
    obtain ⟨name, hname⟩ := exists_quoted_name (Bool.eq_false_iff.2 hy)
    rw [h, hname, quote, String.toList_ofList] at htext
    obtain rfl := (List.cons.inj htext).1
    simp [isDigit] at hc
  exact Bool.eq_iff_iff.2 ⟨finite h, finite h.symm⟩

/-- All not-a-numbers are written alike. -/
theorem floatValue_canonical (x : Binary64) : floatValue x.canonical = floatValue x := by
  cases h : x.isNaN with
  | true =>
      rw [Binary64.canonical_of_isNaN h, floatValue, floatValue, if_pos h,
        if_pos Binary64.isNaN_nan]
  | false => rw [Binary64.canonical_of_not h]

/-- Numbers are written alike exactly if they have the same bits or are both not a number. -/
theorem floatValue_eq_iff {x y : Binary64} : floatValue x = floatValue y ↔ x.SameOrNaN y := by
  rw [← Binary64.canonical_eq_iff]
  constructor
  · intro h
    have hfinite := isFinite_eq_of_floatValue h
    cases hx : x.isFinite with
    | true => rw [floatValue_inj_of_finite hx (hfinite.symm.trans hx) h]
    | false =>
        have hread := readsBack_canonical hx
        rw [h, readsBack_canonical (hfinite.symm.trans hx)] at hread
        exact (Except.ok.inj hread).symm
  · intro h
    rw [← floatValue_canonical x, h, floatValue_canonical y]

theorem repr_isValue (value : UInt64) : IsValue value.toNat.repr := by
  obtain ⟨l, hl, -⟩ := naturalText_iff.1 (repr_text value.toNat_lt)
  exact .number hl

theorem floatValue_isValue (x : Binary64) : IsValue (floatValue x) := by
  cases h : x.isFinite with
  | true =>
      obtain ⟨l, -, hl, -⟩ := exists_rounded_literal h
      exact .number hl
  | false =>
      obtain ⟨name, hname⟩ := exists_quoted_name h
      rw [hname]
      exact quote_isValue name

/-! ## Trees -/

theorem nodes_isValue {α : Type} {write : α → String} {nodes : List α}
    (h : ∀ a ∈ nodes, IsValue (write a)) : IsValue (array (nodes.map write)) :=
  array_isValue (List.forall_mem_map.2 h)

/-- What is written for a tree is a value. -/
theorem toJson_isValue :
    (∀ e : Expr, IsValue e.toJson) ∧ ∀ t : TypeSpec, IsValue t.toJson := by
  refine Node.induction ?int ?float ?str ?name ?cast ?call ?index ?field ?unary ?binary ?ternary
    ?compound ?typeName ?pointer ?array ?function
  case int => exact fun value => single_isValue (by decide) (repr_isValue value)
  case float => exact fun x => single_isValue (by decide) (floatValue_isValue x)
  case str => exact fun value => single_isValue (by decide) (quote_isValue value)
  case name => exact fun name => single_isValue (by decide) (quote_isValue name)
  case cast =>
    intro ty expr hty hexpr
    exact record_isValue ["ty", "expr"] [_, _] (by decide) (by decide) (by simp [hty, hexpr])
  case call =>
    intro callee args hcallee hargs
    rw [Expr.toJson, toJsons_eq_map]
    exact record_isValue ["callee", "args"] [_, _] (by decide) (by decide)
      (by simp [hcallee, nodes_isValue hargs])
  case index =>
    intro expr index hexpr hindex
    exact record_isValue ["expr", "index"] [_, _] (by decide) (by decide) (by simp [hexpr, hindex])
  case field =>
    intro expr name hexpr
    exact record_isValue ["expr", "name"] [_, _] (by decide) (by decide) (by simp [hexpr])
  case unary =>
    intro op expr hexpr
    exact record_isValue ["op", "expr"] [_, _] (by decide) (by decide) (by simp [hexpr])
  case binary =>
    intro op left right hleft hright
    exact record_isValue ["op", "left", "right"] [_, _, _] (by decide) (by decide)
      (by simp [hleft, hright])
  case ternary =>
    intro cond thenExpr elseExpr hcond hthen helse
    exact record_isValue ["cond", "then_expr", "else_expr"] [_, _, _] (by decide) (by decide)
      (by simp [hcond, hthen, helse])
  case compound => exact quote_isValue "Compound"
  case typeName => exact fun name => single_isValue (by decide) (quote_isValue name)
  case pointer =>
    intro elem helem
    exact record_isValue ["elem"] [_] (by decide) (by decide) (by simp [helem])
  case array =>
    intro elem size helem hsize
    exact record_isValue ["elem", "size"] [_, _] (by decide) (by decide) (by simp [helem, hsize])
  case function =>
    intro args ret hargs hret
    rw [TypeSpec.toJson, typeSpec_toJsons_eq_map]
    exact record_isValue ["args", "ret"] [_, _] (by decide) (by decide)
      (by simp [hret, nodes_isValue hargs])

@[simp] theorem expr_isValue (e : Expr) : IsValue e.toJson := toJson_isValue.1 e

@[simp] theorem typeSpec_isValue (t : TypeSpec) : IsValue t.toJson := toJson_isValue.2 t

/-- The name in front of a written expression tells its kind. -/
theorem Expr.kind_eq_of_toJson {e e' : Expr} (h : e.toJson = e'.toJson) : e.kind = e'.kind := by
  cases e <;> cases e' <;> first
    | rfl
    | exact absurd (single_inj (by decide) (by decide) h).1 (by decide)
    | exact absurd h (single_ne_quote _ _ _)
    | exact absurd h.symm (single_ne_quote _ _ _)

/-- The name in front of a written type expression tells its kind. -/
theorem TypeSpec.kind_eq_of_toJson {t t' : TypeSpec} (h : t.toJson = t'.toJson) :
    t.kind = t'.kind := by
  cases t <;> cases t' <;> first
    | rfl
    | exact absurd (single_inj (by decide) (by decide) h).1 (by decide)

theorem unaryOp_name_inj {op op' : UnaryOp} (h : op.name = op'.name) : op = op' :=
  List.inj_on_of_nodup_map (l := UnaryOp.all) (by decide) (UnaryOp.mem_all op)
    (UnaryOp.mem_all op') h

theorem binaryOp_name_inj {op op' : BinaryOp} (h : op.name = op'.name) : op = op' :=
  List.inj_on_of_nodup_map (l := BinaryOp.all) (by decide) (BinaryOp.mem_all op)
    (BinaryOp.mem_all op') h

/-- Equal arrays of nodes are equal node by node, in the sense of whatever the texts of two nodes
decide. -/
theorem nodes_inj {α : Type} {write : α → String} (hwrite : ∀ a, IsValue (write a))
    {R : α → α → Prop} {nodes nodes' : List α} (h : ∀ a ∈ nodes, ∀ b, write a = write b → R a b)
    (heq : array (nodes.map write) = array (nodes'.map write)) : List.Forall₂ R nodes nodes' := by
  have hvalues (nodes : List α) : ∀ v ∈ nodes.map write, IsValue v :=
    List.forall_mem_map.2 fun a _ => hwrite a
  have hmaps := array_inj (hvalues nodes) (hvalues nodes') heq
  exact forall₂_of_map_eq (fun a ha b _ => h a ha b) hmaps

/-- Trees that are written alike agree. The induction is on the first tree, and the kind of the
second one is known from its text. -/
theorem agree_of_toJson :
    (∀ e e' : Expr, e.toJson = e'.toJson → e.Agree Binary64.SameOrNaN e') ∧
      ∀ t t' : TypeSpec, t.toJson = t'.toJson → t.Agree Binary64.SameOrNaN t' := by
  refine Node.induction ?int ?float ?str ?name ?cast ?call ?index ?field ?unary ?binary ?ternary
    ?compound ?typeName ?pointer ?array ?function
  case int =>
    intro value e' h
    have hkind := Expr.kind_eq_of_toJson h
    cases e' with
    | int value' =>
        have hrepr := (single_inj (by decide) (by decide) h).2
        obtain rfl := UInt64.toNat_inj.1 (repr_injective hrepr)
        exact .int value
    | _ => cases hkind
  case float =>
    intro x e' h
    have hkind := Expr.kind_eq_of_toJson h
    cases e' with
    | float y => exact .float (floatValue_eq_iff.1 (single_inj (by decide) (by decide) h).2)
    | _ => cases hkind
  case str =>
    intro value e' h
    have hkind := Expr.kind_eq_of_toJson h
    cases e' with
    | str value' =>
        obtain rfl := quote_inj (single_inj (by decide) (by decide) h).2
        exact .str value
    | _ => cases hkind
  case name =>
    intro name e' h
    have hkind := Expr.kind_eq_of_toJson h
    cases e' with
    | name name' =>
        obtain rfl := quote_inj (single_inj (by decide) (by decide) h).2
        exact .name name
    | _ => cases hkind
  case cast =>
    intro ty expr hty hexpr e' h
    have hkind := Expr.kind_eq_of_toJson h
    cases e' with
    | cast ty' expr' =>
        have hvalues := record_inj ["ty", "expr"] [_, _] [_, _] (by decide) (by decide)
          (by simp) (by simp) (by simp) (by simp) h
        simp only [List.cons.injEq, and_true] at hvalues
        exact .cast (hty ty' hvalues.1) (hexpr expr' hvalues.2)
    | _ => cases hkind
  case call =>
    intro callee args hcallee hargs e' h
    have hkind := Expr.kind_eq_of_toJson h
    cases e' with
    | call callee' args' =>
        rw [Expr.toJson, Expr.toJson, toJsons_eq_map, toJsons_eq_map] at h
        have hvalues := record_inj ["callee", "args"] [_, _] [_, _] (by decide) (by decide)
          (by simp) (by simp) (by simp [nodes_isValue]) (by simp [nodes_isValue]) h
        simp only [List.cons.injEq, and_true] at hvalues
        exact .call (hcallee callee' hvalues.1) (nodes_inj expr_isValue hargs hvalues.2)
    | _ => cases hkind
  case index =>
    intro expr index hexpr hindex e' h
    have hkind := Expr.kind_eq_of_toJson h
    cases e' with
    | index expr' index' =>
        have hvalues := record_inj ["expr", "index"] [_, _] [_, _] (by decide) (by decide)
          (by simp) (by simp) (by simp) (by simp) h
        simp only [List.cons.injEq, and_true] at hvalues
        exact .index (hexpr expr' hvalues.1) (hindex index' hvalues.2)
    | _ => cases hkind
  case field =>
    intro expr name hexpr e' h
    have hkind := Expr.kind_eq_of_toJson h
    cases e' with
    | field expr' name' =>
        have hvalues := record_inj ["expr", "name"] [_, _] [_, _] (by decide) (by decide)
          (by simp) (by simp) (by simp) (by simp) h
        simp only [List.cons.injEq, and_true] at hvalues
        obtain rfl := quote_inj hvalues.2
        exact .field name (hexpr expr' hvalues.1)
    | _ => cases hkind
  case unary =>
    intro op expr hexpr e' h
    have hkind := Expr.kind_eq_of_toJson h
    cases e' with
    | unary op' expr' =>
        have hvalues := record_inj ["op", "expr"] [_, _] [_, _] (by decide) (by decide)
          (by simp) (by simp) (by simp) (by simp) h
        simp only [List.cons.injEq, and_true] at hvalues
        obtain rfl := unaryOp_name_inj (quote_inj hvalues.1)
        exact .unary op (hexpr expr' hvalues.2)
    | _ => cases hkind
  case binary =>
    intro op left right hleft hright e' h
    have hkind := Expr.kind_eq_of_toJson h
    cases e' with
    | binary op' left' right' =>
        have hvalues := record_inj ["op", "left", "right"] [_, _, _] [_, _, _] (by decide)
          (by decide) (by simp) (by simp) (by simp) (by simp) h
        simp only [List.cons.injEq, and_true] at hvalues
        obtain rfl := binaryOp_name_inj (quote_inj hvalues.1)
        exact .binary op (hleft left' hvalues.2.1) (hright right' hvalues.2.2)
    | _ => cases hkind
  case ternary =>
    intro cond thenExpr elseExpr hcond hthen helse e' h
    have hkind := Expr.kind_eq_of_toJson h
    cases e' with
    | ternary cond' thenExpr' elseExpr' =>
        have hvalues := record_inj ["cond", "then_expr", "else_expr"] [_, _, _] [_, _, _]
          (by decide) (by decide) (by simp) (by simp) (by simp) (by simp) h
        simp only [List.cons.injEq, and_true] at hvalues
        exact .ternary (hcond cond' hvalues.1) (hthen thenExpr' hvalues.2.1)
          (helse elseExpr' hvalues.2.2)
    | _ => cases hkind
  case compound =>
    intro e' h
    have hkind := Expr.kind_eq_of_toJson h
    cases e' with
    | compound => exact .compound
    | _ => cases hkind
  case typeName =>
    intro name t' h
    have hkind := TypeSpec.kind_eq_of_toJson h
    cases t' with
    | name name' =>
        obtain rfl := quote_inj (single_inj (by decide) (by decide) h).2
        exact .name name
    | _ => cases hkind
  case pointer =>
    intro elem helem t' h
    have hkind := TypeSpec.kind_eq_of_toJson h
    cases t' with
    | pointer elem' =>
        have hvalues := record_inj ["elem"] [_] [_] (by decide) (by decide) (by simp) (by simp)
          (by simp) (by simp) h
        exact .pointer (helem elem' (List.cons.inj hvalues).1)
    | _ => cases hkind
  case array =>
    intro elem size helem hsize t' h
    have hkind := TypeSpec.kind_eq_of_toJson h
    cases t' with
    | array elem' size' =>
        have hvalues := record_inj ["elem", "size"] [_, _] [_, _] (by decide) (by decide)
          (by simp) (by simp) (by simp) (by simp) h
        simp only [List.cons.injEq, and_true] at hvalues
        exact .array (helem elem' hvalues.1) (hsize size' hvalues.2)
    | _ => cases hkind
  case function =>
    intro args ret hargs hret t' h
    have hkind := TypeSpec.kind_eq_of_toJson h
    cases t' with
    | function args' ret' =>
        rw [TypeSpec.toJson, TypeSpec.toJson, typeSpec_toJsons_eq_map,
          typeSpec_toJsons_eq_map] at h
        have hvalues := record_inj ["args", "ret"] [_, _] [_, _] (by decide) (by decide)
          (by simp) (by simp) (by simp [nodes_isValue]) (by simp [nodes_isValue]) h
        simp only [List.cons.injEq, and_true] at hvalues
        exact .function (nodes_inj typeSpec_isValue hargs hvalues.1) (hret ret' hvalues.2)
    | _ => cases hkind

/-- The text of a tree depends on its float leaves through their texts only. -/
theorem toJson_mapFloats {f : Binary64 → Binary64} (hf : ∀ x, floatValue (f x) = floatValue x) :
    (∀ e : Expr, (e.mapFloats f).toJson = e.toJson) ∧
      ∀ t : TypeSpec, (t.mapFloats f).toJson = t.toJson := by
  refine Node.induction ?int ?float ?str ?name ?cast ?call ?index ?field ?unary ?binary ?ternary
    ?compound ?typeName ?pointer ?array ?function
  case call =>
    intro callee args hcallee hargs
    have hlist : args.map (Expr.toJson ∘ Expr.mapFloats f) = args.map Expr.toJson :=
      List.map_congr_left hargs
    simp only [Expr.mapFloats, Expr.toJson, Expr.mapFloatsOfList_eq_map, toJsons_eq_map,
      List.map_map, hcallee, hlist]
  case function =>
    intro args ret hargs hret
    have hlist : args.map (TypeSpec.toJson ∘ TypeSpec.mapFloats f) = args.map TypeSpec.toJson :=
      List.map_congr_left hargs
    simp only [TypeSpec.mapFloats, TypeSpec.toJson, TypeSpec.mapFloatsOfList_eq_map,
      typeSpec_toJsons_eq_map, List.map_map, hret, hlist]
  all_goals
    intros
    simp_all only [Expr.mapFloats, TypeSpec.mapFloats, Expr.toJson, TypeSpec.toJson]

/-! ## Identity and equality -/

/-- What is written for a tree, and its equality, against agreement node by node. -/
structure Identifies {α : Type} (write : α → String) (eq : α → α → Bool) (Agree : α → α → Prop)
    (floats : α → List Binary64) : Prop where
  write_eq_iff (a b : α) : write a = write b ↔ Agree a b
  /-- Without a not-a-number and a negative zero. -/
  eq_iff_write_eq (a b : α) : (∀ x ∈ floats a ++ floats b, x.isNaN = false ∧ x ≠ .zero true) →
    (eq a b = true ↔ write a = write b)
  symm (a b : α) : eq a b = true → eq b a = true
  trans (a b c : α) : eq a b = true → eq b c = true → eq a c = true
  refl_iff (a : α) : eq a a = true ↔ ∀ x ∈ floats a, x.isNaN = false

theorem identifies {α : Type} {write : α → String} {eq : α → α → Bool} {Agree : α → α → Prop}
    {floats : α → List Binary64} {map : (Binary64 → Binary64) → α → α}
    (hwrite : ∀ a b, write a = write b → Agree a b)
    (hagree : ∀ a b, Agree a b → map Binary64.canonical a = map Binary64.canonical b)
    (hcanonical : ∀ a, write (map Binary64.canonical a) = write a)
    (hself : ∀ f a, (∀ x ∈ floats a, f x = x) → map f a = a)
    (heq : ∀ a b, eq a b = true ↔ map Binary64.unsignedZero a = map Binary64.unsignedZero b ∧
      Node.Numeric (floats a) ∧ Node.Numeric (floats b)) :
    Identifies write eq Agree floats where
  write_eq_iff := by
    intro a b
    refine ⟨hwrite a b, fun h => ?_⟩
    rw [← hcanonical a, hagree a b h, hcanonical b]
  eq_iff_write_eq := by
    intro a b hleaves
    obtain ⟨ha, hb⟩ := List.forall_mem_append.1 hleaves
    have numeric {a : α} (h : ∀ x ∈ floats a, x.isNaN = false ∧ x ≠ .zero true) :
        map Binary64.canonical a = a :=
      hself _ a fun x hx => Binary64.canonical_of_not (h x hx).1
    have unsigned {a : α} (h : ∀ x ∈ floats a, x.isNaN = false ∧ x ≠ .zero true) :
        map Binary64.unsignedZero a = a :=
      hself _ a fun x hx => Binary64.unsignedZero_of_ne (h x hx).2
    rw [heq, unsigned ha, unsigned hb]
    constructor
    · intro h
      rw [h.1]
    · intro h
      have hsame := hagree a b (hwrite a b h)
      rw [numeric ha, numeric hb] at hsame
      exact ⟨hsame, fun x hx => (ha x hx).1, fun x hx => (hb x hx).1⟩
  symm := by
    intro a b h
    obtain ⟨hmap, ha, hb⟩ := (heq a b).1 h
    exact (heq b a).2 ⟨hmap.symm, hb, ha⟩
  trans := by
    intro a b c hab hbc
    obtain ⟨hmap, ha, -⟩ := (heq a b).1 hab
    obtain ⟨hmap', -, hc⟩ := (heq b c).1 hbc
    exact (heq a c).2 ⟨hmap.trans hmap', ha, hc⟩
  refl_iff := by
    intro a
    rw [heq]
    exact ⟨fun h => h.2.1, fun h => ⟨rfl, h, h⟩⟩

/-- Two trees of a sort are written alike exactly if they agree node by node, with float leaves that
have the same bits or are both not a number. Their equality is the same for trees without a
not-a-number and a negative zero; it is symmetric, transitive, and reflexive on exactly the trees
without a not-a-number. -/
theorem toJson_identifies :
    Identifies Expr.toJson Expr.eq (Expr.Agree Binary64.SameOrNaN) Expr.floats ∧
      Identifies TypeSpec.toJson TypeSpec.eq (TypeSpec.Agree Binary64.SameOrNaN)
        TypeSpec.floats := by
  have hcanonical (x y : Binary64) : x.SameOrNaN y → x.canonical = y.canonical :=
    Binary64.canonical_eq_iff.2
  have hagree := Node.mapFloats_eq_of_agree hcanonical
  have hwrite := toJson_mapFloats floatValue_canonical
  constructor
  · exact identifies agree_of_toJson.1 hagree.1 hwrite.1 (fun f => mapFloats_eq_self.1)
      Node.eq_iff.1
  · exact identifies agree_of_toJson.2 hagree.2 hwrite.2 (fun f => mapFloats_eq_self.2)
      Node.eq_iff.2

/-- The number next to one tenth is written differently, since the two are not equal. -/
theorem toJson_identifies_tenth :
    (∀ x ∈ (Expr.float ⟨0x3fb999999999999a⟩).floats ++ (Expr.float ⟨0x3fb999999999999b⟩).floats,
      x.isNaN = false ∧ x ≠ .zero true) ∧
    Expr.toJson (.float ⟨0x3fb999999999999a⟩) ≠ Expr.toJson (.float ⟨0x3fb999999999999b⟩) := by
  have hleaves : ∀ x ∈ (Expr.float ⟨0x3fb999999999999a⟩).floats ++
      (Expr.float ⟨0x3fb999999999999b⟩).floats, x.isNaN = false ∧ x ≠ .zero true := by
    decide
  refine ⟨hleaves, fun h => ?_⟩
  have heq := (toJson_identifies.1.eq_iff_write_eq _ _ hleaves).2 h
  rw [Expr.eq] at heq
  exact absurd heq (by decide)

end Json

end SyntaxTree
