import SyntaxTree.Proofs.Json.Variant

/-! # What documents denote

The readers of expressions and of type specifications accept the grammar of trees, by induction on
the depth that a reader is bounded to. A document is read as a tree if and only if it is a text of
that tree between blanks. -/

namespace SyntaxTree

namespace Json

open Text (Cursor byteLength)
open Reader Grammar

/-! ## Nodes as variants -/

/-- A variant that carries a value. -/
def valueText {α β : Type} (name : String) (L : List Char → α → Prop) (build : α → β) :
    VariantText β := ⟨name, none, fun q b => ∃ a, L q a ∧ b = build a⟩

/-- A variant that carries a record. -/
def recordText {α : Type} {types : List Type} (name : String) (names : List String)
    (langs : Langs types) (build : Values types → α) : VariantText α :=
  ⟨name, none, fun q a => ∃ values,
    (∃ texts, RecordText (names.zip texts) q ∧ langs.Holds texts values) ∧ a = build values⟩

/-- The texts of a list of nodes. -/
def ItemsText {α : Type} (L : List Char → α → Prop) (p : List Char) (values : List α) : Prop :=
  ∃ items, ArrayText items p ∧ List.Forall₂ L items values

/-- The variants of an expression and what each carries, in the order of the reader's variants. -/
def exprTexts : List (VariantText Expr) :=
  [valueText "Int" NaturalText fun n => .int (.ofNat n),
    valueText "Float" FloatText .float,
    valueText "Str" StringText .str,
    valueText "Name" StringText .name,
    recordText "Cast" ["ty", "expr"] (.cons TypeSpecText (.cons ExprText .nil))
      fun (ty, expr, ()) => .cast ty expr,
    recordText "Call" ["callee", "args"] (.cons ExprText (.cons (ItemsText ExprText) .nil))
      fun (callee, args, ()) => .call callee args,
    recordText "Index" ["expr", "index"] (.cons ExprText (.cons ExprText .nil))
      fun (expr, index, ()) => .index expr index,
    recordText "Field" ["expr", "name"] (.cons ExprText (.cons StringText .nil))
      fun (expr, name, ()) => .field expr name,
    recordText "Unary" ["op", "expr"]
      (.cons (fun p (op : UnaryOp) => UnitText op.name p) (.cons ExprText .nil))
      fun (op, expr, ()) => .unary op expr,
    recordText "Binary" ["op", "left", "right"]
      (.cons (fun p (op : BinaryOp) => UnitText op.name p)
        (.cons ExprText (.cons ExprText .nil)))
      fun (op, left, right, ()) => .binary op left right,
    recordText "Ternary" ["cond", "then_expr", "else_expr"]
      (.cons ExprText (.cons ExprText (.cons ExprText .nil)))
      fun (cond, thenExpr, elseExpr, ()) => .ternary cond thenExpr elseExpr,
    ⟨"Compound", some .compound, fun q e => q = ['n', 'u', 'l', 'l'] ∧ e = .compound⟩]

/-- The variants of a type expression, in the same order as the reader has them. -/
def typeSpecTexts : List (VariantText TypeSpec) :=
  [valueText "Name" StringText .name,
    recordText "Pointer" ["elem"] (.cons TypeSpecText .nil) fun (elem, ()) => .pointer elem,
    recordText "Array" ["elem", "size"] (.cons TypeSpecText (.cons ExprText .nil))
      fun (elem, size, ()) => .array elem size,
    recordText "Function" ["args", "ret"]
      (.cons (ItemsText TypeSpecText) (.cons TypeSpecText .nil))
      fun (args, ret, ()) => .function args ret]

/-- The text of a variant with one value is that value under the name. -/
theorem valueText_iff {α β : Type} {name : String} {L : List Char → α → Prop} {build : α → β}
    {p : List Char} {b : β} :
    (valueText name L build).Text p b ↔ ∃ q a, TaggedText name q p ∧ L q a ∧ b = build a := by
  constructor
  · rintro (⟨q, ht, a, ha, rfl⟩ | ⟨h, -⟩)
    · exact ⟨q, a, ht, ha, rfl⟩
    · cases h
  · rintro ⟨q, a, ht, ha, rfl⟩
    exact .inl ⟨q, ht, a, ha, rfl⟩

/-- The text of a variant with fields is a record under the name. -/
theorem recordText_iff {α : Type} {types : List Type} {name : String} {names : List String}
    {langs : Langs types} {build : Values types → α} {p : List Char} {a : α} :
    (recordText name names langs build).Text p a ↔
      ∃ q texts values, TaggedText name q p ∧ RecordText (names.zip texts) q ∧
        langs.Holds texts values ∧ a = build values := by
  constructor
  · rintro (⟨q, ht, values, ⟨texts, hr, hl⟩, rfl⟩ | ⟨h, -⟩)
    · exact ⟨q, texts, values, ht, hr, hl, rfl⟩
    · cases h
  · rintro ⟨q, texts, values, ht, hr, hl, rfl⟩
    exact .inl ⟨q, ht, values, ⟨texts, hr, hl⟩, rfl⟩

/-- The grammar of expressions has one production for each variant. -/
theorem exprText_iff {p : List Char} {e : Expr} : ExprText p e ↔ ∃ t ∈ exprTexts, t.Text p e := by
  have production : ∀ i (hi : i < exprTexts.length), exprTexts[i].Text p e →
      ∃ t ∈ exprTexts, t.Text p e := fun i hi h => ⟨_, List.getElem_mem hi, h⟩
  constructor
  · intro h
    cases h with
    | int ht hn => exact production 0 (by decide) (valueText_iff.2 ⟨_, _, ht, hn, rfl⟩)
    | float ht hx => exact production 1 (by decide) (valueText_iff.2 ⟨_, _, ht, hx, rfl⟩)
    | str ht hs => exact production 2 (by decide) (valueText_iff.2 ⟨_, _, ht, hs, rfl⟩)
    | name ht hs => exact production 3 (by decide) (valueText_iff.2 ⟨_, _, ht, hs, rfl⟩)
    | @cast _ _ a b ty expr ht hr hty hexpr =>
        exact production 4 (by decide) (recordText_iff.2
          ⟨_, [a, b], (ty, expr, ()), ht, hr, ⟨_, _, rfl, hty, _, _, rfl, hexpr, rfl⟩, rfl⟩)
    | @call _ _ a b items callee args ht hr hcallee hitems hargs =>
        exact production 5 (by decide) (recordText_iff.2
          ⟨_, [a, b], (callee, args, ()), ht, hr,
            ⟨_, _, rfl, hcallee, _, _, rfl, ⟨items, hitems, hargs⟩, rfl⟩, rfl⟩)
    | @index _ _ a b expr index ht hr hexpr hindex =>
        exact production 6 (by decide) (recordText_iff.2
          ⟨_, [a, b], (expr, index, ()), ht, hr, ⟨_, _, rfl, hexpr, _, _, rfl, hindex, rfl⟩, rfl⟩)
    | @field _ _ a b expr name ht hr hexpr hname =>
        exact production 7 (by decide) (recordText_iff.2
          ⟨_, [a, b], (expr, name, ()), ht, hr, ⟨_, _, rfl, hexpr, _, _, rfl, hname, rfl⟩, rfl⟩)
    | @unary _ _ a b op expr ht hr hop hexpr =>
        exact production 8 (by decide) (recordText_iff.2
          ⟨_, [a, b], (op, expr, ()), ht, hr, ⟨_, _, rfl, hop, _, _, rfl, hexpr, rfl⟩, rfl⟩)
    | @binary _ _ a b c op left right ht hr hop hleft hright =>
        exact production 9 (by decide) (recordText_iff.2
          ⟨_, [a, b, c], (op, left, right, ()), ht, hr,
            ⟨_, _, rfl, hop, _, _, rfl, hleft, _, _, rfl, hright, rfl⟩, rfl⟩)
    | @ternary _ _ a b c cond thenExpr elseExpr ht hr hcond hthen helse =>
        exact production 10 (by decide) (recordText_iff.2
          ⟨_, [a, b, c], (cond, thenExpr, elseExpr, ()), ht, hr,
            ⟨_, _, rfl, hcond, _, _, rfl, hthen, _, _, rfl, helse, rfl⟩, rfl⟩)
    | compound h =>
        refine production 11 (by decide) ?_
        rcases h with h | h
        · exact .inr ⟨rfl, h⟩
        · exact .inl ⟨_, h, rfl, rfl⟩
  · rintro ⟨t, ht, h⟩
    simp only [exprTexts, List.mem_cons, List.not_mem_nil, or_false] at ht
    rcases ht with rfl | rfl | rfl | rfl | rfl | rfl | rfl | rfl | rfl | rfl | rfl | rfl
    · obtain ⟨q, n, ht, hn, rfl⟩ := valueText_iff.1 h
      exact .int ht hn
    · obtain ⟨q, x, ht, hx, rfl⟩ := valueText_iff.1 h
      exact .float ht hx
    · obtain ⟨q, s, ht, hs, rfl⟩ := valueText_iff.1 h
      exact .str ht hs
    · obtain ⟨q, s, ht, hs, rfl⟩ := valueText_iff.1 h
      exact .name ht hs
    · obtain ⟨q, _, ⟨ty, expr, ⟨⟩⟩, ht, hr, ⟨_, _, rfl, hty, _, _, rfl, hexpr, rfl⟩, rfl⟩ :=
        recordText_iff.1 h
      exact .cast ht hr hty hexpr
    · obtain ⟨q, _, ⟨callee, args, ⟨⟩⟩, ht, hr,
        ⟨_, _, rfl, hcallee, _, _, rfl, ⟨items, hitems, hargs⟩, rfl⟩, rfl⟩ := recordText_iff.1 h
      exact .call ht hr hcallee hitems hargs
    · obtain ⟨q, _, ⟨expr, index, ⟨⟩⟩, ht, hr, ⟨_, _, rfl, hexpr, _, _, rfl, hindex, rfl⟩, rfl⟩ :=
        recordText_iff.1 h
      exact .index ht hr hexpr hindex
    · obtain ⟨q, _, ⟨expr, name, ⟨⟩⟩, ht, hr, ⟨_, _, rfl, hexpr, _, _, rfl, hname, rfl⟩, rfl⟩ :=
        recordText_iff.1 h
      exact .field ht hr hexpr hname
    · obtain ⟨q, _, ⟨op, expr, ⟨⟩⟩, ht, hr, ⟨_, _, rfl, hop, _, _, rfl, hexpr, rfl⟩, rfl⟩ :=
        recordText_iff.1 h
      exact .unary ht hr hop hexpr
    · obtain ⟨q, _, ⟨op, left, right, ⟨⟩⟩, ht, hr,
        ⟨_, _, rfl, hop, _, _, rfl, hleft, _, _, rfl, hright, rfl⟩, rfl⟩ := recordText_iff.1 h
      exact .binary ht hr hop hleft hright
    · obtain ⟨q, _, ⟨cond, thenExpr, elseExpr, ⟨⟩⟩, ht, hr,
        ⟨_, _, rfl, hcond, _, _, rfl, hthen, _, _, rfl, helse, rfl⟩, rfl⟩ := recordText_iff.1 h
      exact .ternary ht hr hcond hthen helse
    · rcases h with ⟨q, ht, rfl, rfl⟩ | ⟨h, hp⟩
      · exact .compound (.inr ht)
      · cases h
        exact .compound (.inl hp)

/-- The grammar of type expressions, variant by variant. -/
theorem typeSpecText_iff {p : List Char} {ty : TypeSpec} :
    TypeSpecText p ty ↔ ∃ t ∈ typeSpecTexts, t.Text p ty := by
  have production : ∀ i (hi : i < typeSpecTexts.length), typeSpecTexts[i].Text p ty →
      ∃ t ∈ typeSpecTexts, t.Text p ty := fun i hi h => ⟨_, List.getElem_mem hi, h⟩
  constructor
  · intro h
    cases h with
    | name ht hs => exact production 0 (by decide) (valueText_iff.2 ⟨_, _, ht, hs, rfl⟩)
    | @pointer _ _ a elem ht hr helem =>
        exact production 1 (by decide) (recordText_iff.2
          ⟨_, [a], (elem, ()), ht, hr, ⟨_, _, rfl, helem, rfl⟩, rfl⟩)
    | @array _ _ a b elem size ht hr helem hsize =>
        exact production 2 (by decide) (recordText_iff.2
          ⟨_, [a, b], (elem, size, ()), ht, hr, ⟨_, _, rfl, helem, _, _, rfl, hsize, rfl⟩, rfl⟩)
    | @function _ _ a b items args ret ht hr hitems hargs hret =>
        exact production 3 (by decide) (recordText_iff.2
          ⟨_, [a, b], (args, ret, ()), ht, hr,
            ⟨_, _, rfl, ⟨items, hitems, hargs⟩, _, _, rfl, hret, rfl⟩, rfl⟩)
  · rintro ⟨t, ht, h⟩
    simp only [typeSpecTexts, List.mem_cons, List.not_mem_nil, or_false] at ht
    rcases ht with rfl | rfl | rfl | rfl
    · obtain ⟨q, s, ht, hs, rfl⟩ := valueText_iff.1 h
      exact .name ht hs
    · obtain ⟨q, _, ⟨elem, ⟨⟩⟩, ht, hr, ⟨_, _, rfl, helem, rfl⟩, rfl⟩ := recordText_iff.1 h
      exact .pointer ht hr helem
    · obtain ⟨q, _, ⟨elem, size, ⟨⟩⟩, ht, hr, ⟨_, _, rfl, helem, _, _, rfl, hsize, rfl⟩, rfl⟩ :=
        recordText_iff.1 h
      exact .array ht hr helem hsize
    · obtain ⟨q, _, ⟨args, ret, ⟨⟩⟩, ht, hr,
        ⟨_, _, rfl, ⟨items, hitems, hargs⟩, _, _, rfl, hret, rfl⟩, rfl⟩ := recordText_iff.1 h
      exact .function ht hr hitems hargs hret

/-! ## Readers of nodes -/

variable {n : Nat}

theorem value_variantAccepts {α β : Type} {r : Reader α} {L : List Char → α → Prop}
    (h : Accepts n r L) (name : String) (build : α → β) :
    VariantAccepts n ⟨name, .value (build <$> r)⟩ (valueText name L build) :=
  ⟨rfl, fun a => by simp [valueText], h.map build⟩

/-- A variant with fields accepts its texts if every field does. The names of the fields have to
differ. -/
theorem fielded_variantAccepts {α : Type} {types : List Type} {fields : Fields types}
    {langs : Langs types} (hf : FieldsAccept n fields langs) {names : List String}
    (heq : fields.names = names) (hnames : names.Nodup) (typeName name : String)
    (build : Values types → α) :
    VariantAccepts n (fielded typeName name fields build) (recordText name names langs build) := by
  subst heq
  exact ⟨rfl, fun a => by simp [fielded, recordText], (record_accepts hf hnames _ _).map build⟩

theorem fieldsAccept_nil : FieldsAccept n .nil .nil := trivial

theorem fieldsAccept_field {α : Type} {types : List Type} (name : String) {read : Reader α}
    {fields : Fields types} {L : List Char → α → Prop} {langs : Langs types}
    (h : Accepts n read L) (hrest : FieldsAccept n fields langs) :
    FieldsAccept n (Fields.field name read fields) (.cons L langs) := ⟨rfl, h, hrest⟩

/-- The reader of a unary operator accepts the names, bare or with a null. -/
theorem unaryOp_accepts : Accepts n unaryOp fun p op => UnitText op.name p :=
  operator_accepts (by decide) fun op => by cases op <;> decide

theorem binaryOp_accepts : Accepts n binaryOp fun p op => UnitText op.name p :=
  operator_accepts (by decide) fun op => by cases op <;> decide

/-- Every variant of an expression accepts its texts, given that of the readers of the parts. -/
theorem exprVariants_accept {parts : NodeReaders} (he : Accepts n parts.expr ExprText)
    (ht : Accepts n parts.typeSpec TypeSpecText) :
    List.Forall₂ (VariantAccepts n) (exprVariants parts) exprTexts := by
  have hone (name : String) := fieldsAccept_field name he fieldsAccept_nil
  have htwo (name name' : String) := fieldsAccept_field name he (hone name')
  refine .cons (value_variantAccepts (natural_accepts n _) _ _) ?_
  refine .cons (value_variantAccepts (float_accepts n) _ _) ?_
  refine .cons (value_variantAccepts (text_accepts n) _ _) ?_
  refine .cons (value_variantAccepts (text_accepts n) _ _) ?_
  refine .cons (fielded_variantAccepts (fieldsAccept_field _ ht (hone _)) (by rfl) (by decide) _ _ _) ?_
  refine .cons (fielded_variantAccepts
    (fieldsAccept_field _ he (fieldsAccept_field _ (list_accepts he) fieldsAccept_nil))
    (by rfl) (by decide) _ _ _) ?_
  refine .cons (fielded_variantAccepts (htwo _ _) (by rfl) (by decide) _ _ _) ?_
  refine .cons (fielded_variantAccepts
    (fieldsAccept_field _ he (fieldsAccept_field _ (text_accepts n) fieldsAccept_nil))
    (by rfl) (by decide) _ _ _) ?_
  refine .cons (fielded_variantAccepts (fieldsAccept_field _ unaryOp_accepts (hone _))
    (by rfl) (by decide) _ _ _) ?_
  refine .cons (fielded_variantAccepts (fieldsAccept_field _ binaryOp_accepts (htwo _ _))
    (by rfl) (by decide) _ _ _) ?_
  refine .cons (fielded_variantAccepts (fieldsAccept_field _ he (htwo _ _)) (by rfl) (by decide) _ _ _) ?_
  exact .cons ⟨rfl, fun a => by simp, null_accepts _⟩ .nil

theorem typeSpecVariants_accept {parts : NodeReaders} (he : Accepts n parts.expr ExprText)
    (ht : Accepts n parts.typeSpec TypeSpecText) :
    List.Forall₂ (VariantAccepts n) (typeSpecVariants parts) typeSpecTexts := by
  have hone (name : String) := fieldsAccept_field name ht fieldsAccept_nil
  refine .cons (value_variantAccepts (text_accepts n) _ _) ?_
  refine .cons (fielded_variantAccepts (hone _) (by rfl) (by decide) _ _ _) ?_
  refine .cons (fielded_variantAccepts
    (fieldsAccept_field _ ht (fieldsAccept_field _ he fieldsAccept_nil)) (by rfl) (by decide) _ _ _) ?_
  exact .cons (fielded_variantAccepts (fieldsAccept_field _ (list_accepts ht) (hone _))
    (by rfl) (by decide) _ _ _) .nil

/-- An expression begins with a brace or a quote, and not with a blank. -/
theorem exprText_opens {p : List Char} {e : Expr} (h : ExprText p e) :
    ∃ x rest, p = x :: rest ∧ OpensValue x := by
  obtain ⟨t, -, h⟩ := exprText_iff.1 h
  exact variantText_opens h

theorem typeSpecText_opens {p : List Char} {ty : TypeSpec} (h : TypeSpecText p ty) :
    ∃ x rest, p = x :: rest ∧ OpensValue x := by
  obtain ⟨t, -, h⟩ := typeSpecText_iff.1 h
  exact variantText_opens h

/-- Within no characters at all there is nothing to accept. -/
theorem accepts_zero {α : Type} {cause : Cause} {L : List Char → α → Prop}
    (hopens : ∀ {p a}, L p a → ∃ x rest, p = x :: rest ∧ OpensValue x) :
    Accepts 0 (failAhead cause) L where
  sound := fun h => absurd h not_reads_failAhead
  complete := by
    intro c p a d hp hlength
    obtain ⟨x, rest, rfl, -⟩ := hopens hp
    exact absurd hlength (by simp)
  opens := hopens

/-- The nodes that the bound reaches are read, by induction on the bound. -/
theorem nodes_accept (n : Nat) :
    Accepts n (exprWithin n) ExprText ∧ Accepts n (typeSpecWithin n) TypeSpecText := by
  induction n with
  | zero => exact ⟨accepts_zero exprText_opens, accepts_zero typeSpecText_opens⟩
  | succ n ih =>
      obtain ⟨he, ht⟩ := ih
      constructor
      · refine Accepts.of_iff ?_ fun p e => exprText_iff.symm
        exact oneOf_accepts (exprVariants_accept he ht) (by decide)
      · refine Accepts.of_iff ?_ fun p e => typeSpecText_iff.symm
        exact oneOf_accepts (typeSpecVariants_accept he ht) (by decide)

/-- The reader of expressions accepts exactly the grammar: the bound it takes from the text is never
reached. -/
theorem expr_accepts : Accepts n expr ExprText := accepts_remaining fun k => (nodes_accept k).1

theorem typeSpec_accepts : Accepts n typeSpec TypeSpecText :=
  accepts_remaining fun k => (nodes_accept k).2

/-! ## Documents -/

/-- A document is a value and then blanks up to the end. -/
theorem reads_document {α : Type} {r : Reader α} {a : α} {c d : Cursor} :
    (document r).Reads c a d ↔ ∃ m, r.Reads c a m ∧ skipBlanks.Reads m () d ∧ d.rest = [] := by
  rw [document, reads_bind]
  constructor
  · rintro ⟨b, m, hr, h⟩
    obtain ⟨_, k, hk, h⟩ := reads_bind.1 h
    rw [reads_peek_bind] at h
    split at h
    · rename_i hend
      obtain ⟨rfl, rfl⟩ := reads_pure.1 h
      exact ⟨m, hr, hk, List.head?_eq_none_iff.1 hend⟩
    · simp at h
  · rintro ⟨m, hr, hk, hend⟩
    refine ⟨a, m, hr, reads_bind.2 ⟨(), d, hk, ?_⟩⟩
    rw [reads_peek_bind, hend]
    exact reads_pure.2 ⟨rfl, rfl⟩

/-- A whole source is accepted when the document is read from its beginning. -/
theorem readDocument_ok_iff {α : Type} {r : Reader α} {source : String} {a : α} :
    readDocument r source = .ok a ↔ ∃ d, (document r).Reads (.start source) a d := by
  unfold readDocument Reads
  rcases (document r).on (.start source) with ⟨fault | b, d⟩
  · simp [mapError_error]
  · simp [mapError_ok]

/-- A reader that accepts a language at every bound accepts the documents of that language. -/
theorem readDocument_iff {α : Type} {r : Reader α} {L : List Char → α → Prop}
    (h : ∀ n, Accepts n r L) {source : String} {a : α} :
    readDocument r source = .ok a ↔ Document L source a := by
  rw [readDocument_ok_iff]
  constructor
  · rintro ⟨d, hd⟩
    obtain ⟨m, hr, hs, hend⟩ := reads_document.1 hd
    obtain ⟨p, hp, hc⟩ := (h 0).sound hr
    obtain ⟨before, k, e, hb, hbk, hk, hd⟩ := crosses_cons.1 hc
    obtain rfl := crosses_nil.1 hd
    obtain ⟨after, ha, hpa, -⟩ := reads_skipBlanks.1 hs
    refine ⟨before, p, after, ?_, hb, ha, hp⟩
    have hrest := ((hbk.trans hk).trans hpa).rest_eq
    rwa [hend, List.append_nil] at hrest
  · rintro ⟨before, p, after, hsource, hb, ha, hp⟩
    let d : Cursor := ⟨[], 0 + byteLength (before ++ p ++ after)⟩
    have hpass : (Cursor.start source).Passes (before ++ p ++ after) d :=
      ⟨by rw [← hsource, List.append_nil]; rfl, rfl⟩
    obtain ⟨e, hpe, hae⟩ := Cursor.passes_append.1 hpass
    obtain ⟨m, hbm, hpm⟩ := Cursor.passes_append.1 hpe
    have hc : Crosses (.start source) [p] e :=
      crosses_cons.2 ⟨before, m, e, hb, hbm, hpm, crosses_nil.2 rfl⟩
    have hdelimited : Delimited e := by
      intro x hx
      rw [hae.rest_eq, List.append_nil] at hx
      exact .inl (blank_iff.1 ha x (List.mem_of_mem_head? hx))
    have hread := (h p.length).complete hp (Nat.le_refl _) hc hdelimited
    refine ⟨d, reads_document.2 ⟨e, hread, ?_, rfl⟩⟩
    exact skipBlanks_of_blank ha hae fun x hx => absurd hx (by simp [d])

/-- A text is read as a tree if and only if it is, between blanks, a text of that tree. -/
theorem ofJson_eq_ok_iff :
    (∀ source tree, Expr.ofJson source = .ok tree ↔ Document ExprText source tree) ∧
      ∀ source tree, TypeSpec.ofJson source = .ok tree ↔ Document TypeSpecText source tree :=
  ⟨fun _ _ => readDocument_iff fun _ => expr_accepts,
    fun _ _ => readDocument_iff fun _ => typeSpec_accepts⟩

end Json

end SyntaxTree
