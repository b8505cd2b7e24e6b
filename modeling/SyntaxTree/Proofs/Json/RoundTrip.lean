import SyntaxTree.Proofs.Binary64.Bits
import SyntaxTree.Proofs.Json.Denotation
import SyntaxTree.Proofs.Json.Writer
import SyntaxTree.Proofs.Node.Equality

/-! # Writing and reading back

What is written for a tree is a text of that tree, with canonical float leaves, and so the reader
gives that tree back. The one thing left to the number reader is the literal of a finite number. -/

namespace SyntaxTree

namespace Json

open Grammar

/-! ## Leaves -/

/-- The literal that is written for the number is read as that number. -/
def ReadsBack (x : Binary64) : Prop := readDocument float (floatValue x) = .ok x

instance (x : Binary64) : Decidable (ReadsBack x) := inferInstanceAs (Decidable (_ = _))

theorem floatValue_text {x : Binary64} (h : x.isFinite = true → ReadsBack x) :
    Document FloatText (floatValue x) x.canonical := by
  have hname {y : Binary64} (name : String) (hplain : Plain name)
      (hy : ∀ {text}, StringText text name → FloatText text y) :
      Document FloatText (String.ofList ('"' :: (name.toList ++ ['"']))) y :=
    ⟨[], _, [], by simp, blank_nil, blank_nil, hy (plain_text hplain)⟩
  cases hnan : x.isNaN with
  | true =>
      rw [Binary64.canonical_of_isNaN hnan, floatValue, if_pos hnan]
      exact hname "nan" (by decide) .nan
  | false =>
      rw [Binary64.canonical_of_not hnan]
      cases hinf : x.isInfinite with
      | true =>
          have hx := Binary64.eq_infinity hinf
          rw [floatValue, if_neg (by simp [hnan]), if_pos hinf]
          cases hneg : x.isNegative with
          | true =>
              rw [hx, hneg]
              exact hname "-inf" (by decide) .negInfinity
          | false =>
              rw [hx, hneg]
              exact hname "inf" (by decide) .infinity
      | false =>
          exact (readDocument_iff float_accepts).1 (h (Binary64.isFinite_of_not hnan hinf))

/-! ## Trees -/

theorem toJsons_eq_map (exprs : List Expr) : Expr.toJsons exprs = exprs.map Expr.toJson := by
  induction exprs with
  | nil => rfl
  | cons e rest ih => rw [Expr.toJsons, ih, List.map_cons]

theorem typeSpec_toJsons_eq_map (types : List TypeSpec) :
    TypeSpec.toJsons types = types.map TypeSpec.toJson := by
  induction types with
  | nil => rfl
  | cons t rest ih => rw [TypeSpec.toJsons, ih, List.map_cons]

/-- Every finite float literal of the tree is read back. -/
abbrev Readable (floats : List Binary64) : Prop := ∀ x ∈ floats, x.isFinite = true → ReadsBack x

theorem forall₂_text {α : Type} {write : α → String} {L : List Char → α → Prop} {f : α → α}
    {floats : α → List Binary64} {nodes : List α}
    (h : ∀ a ∈ nodes, Readable (floats a) → L (write a).toList (f a))
    (hr : Readable (nodes.flatMap floats)) :
    List.Forall₂ L ((nodes.map write).map String.toList) (nodes.map f) := by
  rw [List.map_map, List.forall₂_map_left_iff, List.forall₂_map_right_iff, List.forall₂_same]
  intro a ha
  exact h a ha fun x hx => hr x (List.mem_flatMap.2 ⟨a, ha, hx⟩)

/-- What is written for a tree is a text of the tree with canonical leaves. -/
theorem toJson_text :
    (∀ e : Expr, Readable e.floats →
      ExprText e.toJson.toList (e.mapFloats Binary64.canonical)) ∧
    ∀ t : TypeSpec, Readable t.floats →
      TypeSpecText t.toJson.toList (t.mapFloats Binary64.canonical) := by
  refine Node.induction ?int ?float ?str ?name ?cast ?call ?index ?field ?unary ?binary ?ternary
    ?compound ?typeName ?pointer ?array ?function
  case int =>
    intro value _
    have h := ExprText.int (single_solid (by decide) _) (repr_text value.toNat_lt)
    rwa [UInt64.ofNat_toNat] at h
  case float =>
    intro x h
    obtain ⟨before, p, after, hp, hb, ha, htext⟩ := floatValue_text (h x List.mem_cons_self)
    exact .float (single_text (by decide) hp hb ha) htext
  case str => exact fun value _ => .str (single_solid (by decide) _) (quote_text value)
  case name => exact fun name _ => .name (single_solid (by decide) _) (quote_text name)
  case cast =>
    intro ty expr hty hexpr h
    obtain ⟨h₁, h₂⟩ := List.forall_mem_append.1 h
    exact .cast (single_solid (by decide) _)
      (object_record ["ty", "expr"] (by decide) (by decide) [_, _] (by simp)) (hty h₁) (hexpr h₂)
  case call =>
    intro callee args hcallee hargs h
    obtain ⟨h₁, h₂⟩ := List.forall_mem_append.1 h
    rw [Expr.floatsOfList_eq_flatMap] at h₂
    rw [Expr.mapFloats, Expr.mapFloatsOfList_eq_map, Expr.toJson, toJsons_eq_map]
    exact .call (single_solid (by decide) _)
      (object_record ["callee", "args"] (by decide) (by decide) [_, _] (by simp)) (hcallee h₁)
      (array_text _) (forall₂_text hargs h₂)
  case index =>
    intro expr index hexpr hindex h
    obtain ⟨h₁, h₂⟩ := List.forall_mem_append.1 h
    exact .index (single_solid (by decide) _)
      (object_record ["expr", "index"] (by decide) (by decide) [_, _] (by simp)) (hexpr h₁) (hindex h₂)
  case field =>
    intro expr name hexpr h
    exact .field (single_solid (by decide) _)
      (object_record ["expr", "name"] (by decide) (by decide) [_, _] (by simp)) (hexpr h)
      (quote_text name)
  case unary =>
    intro op expr hexpr h
    exact .unary (single_solid (by decide) _)
      (object_record ["op", "expr"] (by decide) (by decide) [_, _] (by simp))
      (.inl (quote_text op.name)) (hexpr h)
  case binary =>
    intro op left right hleft hright h
    obtain ⟨h₁, h₂⟩ := List.forall_mem_append.1 h
    exact .binary (single_solid (by decide) _)
      (object_record ["op", "left", "right"] (by decide) (by decide) [_, _, _] (by simp))
      (.inl (quote_text op.name)) (hleft h₁) (hright h₂)
  case ternary =>
    intro cond thenExpr elseExpr hcond hthen helse h
    obtain ⟨h₁₂, h₃⟩ := List.forall_mem_append.1 h
    obtain ⟨h₁, h₂⟩ := List.forall_mem_append.1 h₁₂
    exact .ternary (single_solid (by decide) _)
      (object_record ["cond", "then_expr", "else_expr"] (by decide) (by decide) [_, _, _] (by simp))
      (hcond h₁) (hthen h₂) (helse h₃)
  case compound => exact fun _ => .compound (.inl (quote_text "Compound"))
  case typeName => exact fun name _ => .name (single_solid (by decide) _) (quote_text name)
  case pointer =>
    intro elem helem h
    exact .pointer (single_solid (by decide) _)
      (object_record ["elem"] (by decide) (by decide) [_] (by simp)) (helem h)
  case array =>
    intro elem size helem hsize h
    obtain ⟨h₁, h₂⟩ := List.forall_mem_append.1 h
    exact .array (single_solid (by decide) _)
      (object_record ["elem", "size"] (by decide) (by decide) [_, _] (by simp)) (helem h₁) (hsize h₂)
  case function =>
    intro args ret hargs hret h
    obtain ⟨h₁, h₂⟩ := List.forall_mem_append.1 h
    rw [TypeSpec.floatsOfList_eq_flatMap] at h₁
    rw [TypeSpec.mapFloats, TypeSpec.mapFloatsOfList_eq_map, TypeSpec.toJson,
      typeSpec_toJsons_eq_map]
    exact .function (single_solid (by decide) _)
      (object_record ["args", "ret"] (by decide) (by decide) [_, _] (by simp)) (array_text _)
      (forall₂_text hargs h₁) (hret h₂)

/-! ## Reading back -/

/-- Printing does not tell one not-a-number from another. -/
theorem floatText_canonical (config : PrintConfig) (x : Binary64) :
    config.floatText x.canonical = config.floatText x := by
  cases h : x.isNaN with
  | true =>
      rw [Binary64.canonical_of_isNaN h, PrintConfig.floatText, PrintConfig.floatText, if_pos h,
        if_pos Binary64.isNaN_nan]
  | false => rw [Binary64.canonical_of_not h]

/-- A tree whose finite literals are read back comes back from its own text, with canonical
leaves. What comes back equals the tree if no leaf is a not-a-number, and prints as the tree does
under every configuration. -/
theorem ofJson_toJson :
    (∀ e : Expr, (∀ x ∈ e.floats, x.isFinite = true → ReadsBack x) →
      Expr.ofJson e.toJson = .ok (e.mapFloats Binary64.canonical) ∧
      ((∀ x ∈ e.floats, x.isNaN = false) → (e.mapFloats Binary64.canonical).eq e = true) ∧
      ∀ config, (e.mapFloats Binary64.canonical).text config = e.text config) ∧
    ∀ t : TypeSpec, (∀ x ∈ t.floats, x.isFinite = true → ReadsBack x) →
      TypeSpec.ofJson t.toJson = .ok (t.mapFloats Binary64.canonical) ∧
      ((∀ x ∈ t.floats, x.isNaN = false) → (t.mapFloats Binary64.canonical).eq t = true) ∧
      ∀ config, (t.mapFloats Binary64.canonical).text config = t.text config := by
  have hwhole {α : Type} {L : List Char → α → Prop} {source : String} {a : α}
      (h : L source.toList a) : Document L source a :=
    ⟨[], source.toList, [], by simp, blank_nil, blank_nil, h⟩
  constructor
  · intro e h
    refine ⟨?_, ?_, fun config => ?_⟩
    · exact (readDocument_iff fun _ => expr_accepts).2 (hwhole (toJson_text.1 e h))
    · intro hnan
      rw [mapFloats_eq_self.1 e fun x hx => Binary64.canonical_of_not (hnan x hx)]
      exact (Node.eq_self_iff.1 e).2 hnan
    · exact (Node.text_mapFloats (floatText_canonical config)).1 e
  · intro t h
    refine ⟨?_, ?_, fun config => ?_⟩
    · exact (readDocument_iff fun _ => typeSpec_accepts).2 (hwhole (toJson_text.2 t h))
    · intro hnan
      rw [mapFloats_eq_self.2 t fun x hx => Binary64.canonical_of_not (hnan x hx)]
      exact (Node.eq_self_iff.2 t).2 hnan
    · exact (Node.text_mapFloats (floatText_canonical config)).2 t

/-- A call with a quoted name, a finite argument and an infinite one comes back as it was, and a
not-a-number with a payload comes back without it. -/
theorem ofJson_toJson_call :
    (Expr.ofJson (Expr.toJson (.call (.name "f\"\n") [.float ⟨0x4004000000000000⟩,
        .float (.infinity true)])) =
      .ok (.call (.name "f\"\n") [.float ⟨0x4004000000000000⟩, .float (.infinity true)]) ∧
    Expr.eq (.call (.name "f\"\n") [.float ⟨0x4004000000000000⟩, .float (.infinity true)])
      (.call (.name "f\"\n") [.float ⟨0x4004000000000000⟩, .float (.infinity true)]) = true) ∧
    TypeSpec.ofJson (TypeSpec.toJson (.array (.name "int") (.float ⟨0xfff8000000000001⟩))) =
      .ok (.array (.name "int") (.float .nan)) := by
  have hread : ∀ x ∈ [⟨0x4004000000000000⟩, Binary64.infinity true],
      x.isFinite = true → ReadsBack x := by decide +kernel
  have hnan : ∀ x ∈ [⟨0x4004000000000000⟩, Binary64.infinity true], x.isNaN = false := by
    decide
  have hread' : ∀ x ∈ [(⟨0xfff8000000000001⟩ : Binary64)], x.isFinite = true → ReadsBack x := by
    decide
  have h := ofJson_toJson.1 (.call (.name "f\"\n") [.float ⟨0x4004000000000000⟩,
    .float (.infinity true)]) hread
  have h' := ofJson_toJson.2 (.array (.name "int") (.float ⟨0xfff8000000000001⟩)) hread'
  exact ⟨⟨h.1, h.2.1 hnan⟩, h'.1⟩

end Json

end SyntaxTree
