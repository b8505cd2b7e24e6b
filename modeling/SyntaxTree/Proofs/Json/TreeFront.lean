import SyntaxTree.Proofs.Json.Extension
import SyntaxTree.Proofs.Json.LiteralFront
import SyntaxTree.Proofs.Json.Position

/-! # Trees that are cut

What is written for a tree starves the reader of trees, by induction on the tree: the payload of
every variant does, numbers apart, which taper. With what is known of texts that go on after the
tree, every change of the length of a written tree is noticed, and where. -/

namespace SyntaxTree

namespace Json

open Text (Cursor Cut byteLength cut_cons)
open Reader Grammar

variable {α β : Type} {n : Nat}

/-! ## Number payloads -/

/-- Where the reader does not run out, the front is itself a text that it accepts. -/
theorem Accepts.tapers {r : Reader α} {L : List Char → α → Prop} (h : Accepts n r L)
    {text : List Char} (hcut : ∀ c : Cursor, Cut c.rest text → RunsOut r c ∨ ∃ a, L c.rest a) :
    Tapers n r text := by
  intro c hc hn
  rcases hcut c hc with hout | ⟨a, ha⟩
  · exact .inl hout
  · obtain ⟨d, hd, hend⟩ := Cursor.exists_passes (b := []) (List.append_nil c.rest).symm
    exact .inr ⟨a, d, h.reads_front ha hd hn fun x hx => by simp [hend] at hx, hd⟩

/-- The characters of a literal are no blanks. -/
theorem notBlank_of_literal {text : List Char} {l : Literal} (h : LiteralText text l) :
    ∀ c ∈ text, isBlank c = false := by
  have hdigits {digits : List Char} (hd : Digits digits) : ∀ c ∈ digits, isBlank c = false :=
    fun c hc => (opensValue_of_digit (.inr (hd.isDigit c hc))).1
  obtain ⟨f, e, rfl, hw, hf, he⟩ := h
  simp only [List.forall_mem_append]
  refine ⟨?_, hdigits hw.1, ?_, ?_⟩
  · cases l.negative <;> simp [isBlank]
  · generalize l.fraction = digits at hf
    cases hf with
    | absent => exact fun c hc => absurd hc List.not_mem_nil
    | present hd => exact List.forall_mem_cons.2 ⟨by decide, hdigits hd⟩
  · generalize l.exponent = exponent at he
    cases he with
    | absent => exact fun c hc => absurd hc List.not_mem_nil
    | present hmark hsign hd =>
        refine List.forall_mem_cons.2 ⟨?_, List.forall_mem_append.2 ⟨?_, hdigits hd⟩⟩
        · rcases hmark with rfl | rfl <;> decide
        · cases hsign <;> simp [isBlank]

section Literals

variable {text : List Char} {l : Literal} (h : LiteralText text l) {c : Cursor}
  (hcut : Cut c.rest text)

include h hcut

/-- What is left of a literal begins as the literal does. -/
theorem head_of_cut_literal :
    c.rest = [] ∨ ∃ x rest, c.rest = x :: rest ∧ (x = '-' ∨ isDigit x = true) := by
  obtain ⟨x, rest, rfl, hx⟩ := literalText_head h
  rcases cut_cons.1 hcut with hnil | ⟨tail, htail, -⟩
  · exact .inl hnil
  · exact .inr ⟨x, tail, htail, hx⟩

theorem runsOut_natural {expected : String} (hout : RunsOut (literal (.endOfInput .value)) c) :
    RunsOut (natural expected) c := by
  rcases head_of_cut_literal h hcut with hnil | ⟨x, rest, hx, hdigit⟩
  · exact runsOut_valueStart_bind hnil
  · apply runsOut_dispatch hx (opensValue_of_digit hdigit).1
    rw [if_pos hdigit]
    exact (RunsOut.bind (r := number) hout.bind).located

end Literals

/-- A value of any shape runs out where one step does, whatever reads what is inside. -/
theorem runsOut_loose {c : Cursor} (h : ∀ inner, RunsOut (looseStep inner) c) :
    RunsOut loose c := by
  apply runsOut_remaining_bind
  cases hn : c.rest.length with
  | zero => exact runsOut_failAhead .value (List.length_eq_zero_iff.1 hn)
  | succ k => exact h _

theorem runsOut_looseStep_nil {inner : Reader Loose} {c : Cursor} (hc : c.rest = []) :
    RunsOut (looseStep inner) c := runsOut_sign hc (runsOut_failAhead .value hc)

/-- A number is read to the end of its literal. -/
theorem runsOut_float_number {text : List Char} {l : Literal} (h : LiteralText text l) {c : Cursor}
    (hcut : Cut c.rest text) (hout : RunsOut (literal (.endOfInput .value)) c) :
    RunsOut float c := by
  apply RunsOut.bind
  apply runsOut_loose
  intro inner
  rcases head_of_cut_literal h hcut with hnil | ⟨x, rest, hx, hdigit⟩
  · exact runsOut_looseStep_nil hnil
  · apply runsOut_skipBlanks_bind (stops_of_head hx (opensValue_of_digit hdigit).1)
    apply runsOut_peek_bind
    have hnumber : RunsOut (Loose.number <$> number) c := RunsOut.map (r := number) hout.bind
    rw [hx, List.head?_cons]
    split
    all_goals simp_all [isDigit]

/-- The payload of a float that is a string runs out where the string is cut. -/
theorem runsOut_float_string {text : List Char} {value : String} (h : StringText text value)
    {c : Cursor} (hcut : Cut c.rest text) : RunsOut float c := by
  apply RunsOut.bind
  apply runsOut_loose
  intro inner
  obtain ⟨body, rfl, -⟩ := id h
  rcases cut_cons.1 hcut with hnil | ⟨tail, htail, -⟩
  · exact runsOut_looseStep_nil hnil
  · apply runsOut_skipBlanks_bind (stops_of_head htail (by decide))
    apply runsOut_peek_bind
    rw [htail]
    exact (runsOut_string h hcut (by simp [htail])).map

/-- The front of a natural number is one. -/
theorem natural_tapers {text : List Char} {k : Nat} (h : NaturalText text k) (expected : String) :
    Tapers n (natural expected) text := by
  obtain ⟨l, hl, hvalue⟩ := naturalText_iff.1 h
  obtain ⟨hneg, hfraction, hexponent, hk, hlt⟩ := Literal.value_eq_natural_iff.1 hvalue
  refine (natural_accepts n expected).tapers fun c hcut => ?_
  rcases literal_cut hl hcut with hout | ⟨l', hfront, hl'⟩
  · exact .inl (runsOut_natural hl hcut hout)
  · refine .inr ?_
    cases hfront with
    | @whole digits rest heq =>
        have hle : decimalValue digits ≤ k := by
          rw [← hk, heq, decimalValue_append]
          exact Nat.le_add_right_of_le (Nat.le_mul_of_pos_left _ (Nat.pow_pos (by decide)))
        refine ⟨decimalValue digits, naturalText_iff.2 ⟨_, hl', ?_⟩⟩
        exact Literal.value_eq_natural_iff.2 ⟨hneg, rfl, rfl, rfl, Nat.lt_of_le_of_lt hle hlt⟩
    | fraction hne heq => exact absurd (List.append_eq_nil_iff.1 (heq ▸ hfraction)).1 hne
    | exponent heq => exact absurd (heq.symm.trans hexponent) (by simp)

/-! ## Float payloads -/

/-- What is written for a finite number is accepted, whether or not it reads as the same number. -/
theorem exists_read_float {x : Binary64} (hfinite : x.isFinite = true) :
    ∃ y, readDocument float (floatValue x) = .ok y := by
  cases hzero : x.isZero with
  | true =>
      exact ⟨x, Binary64.eq_zero_of_isZero hzero ▸ readsBack_zero x.isNegative⟩
  | false =>
      obtain ⟨m, hx, hm⟩ := Decimal.exists_succ hfinite hzero
      obtain ⟨hrounds, -⟩ := Decimal.shortest_spec numberLayout.tie hfinite hzero
      obtain ⟨l, r, -, hnear, -, hread⟩ := exists_lastRounding hfinite hzero
      have hupper := Binary64.nearestMagnitude_drift hnear
      have hlower := Binary64.nearestMagnitude_drift hnear.symm
      rw [hrounds] at hupper hlower
      rcases Nat.lt_or_ge x.magnitudeBits (2047 * Binary64.exponentWeight - 2) with hinner | hedge
      · exact ⟨_, hread (by omega)⟩
      · exact ⟨_, read_largest hedge (hx ▸ hm)⟩

/-- A zero is written with its sign, one digit and one more behind the point. -/
theorem zero_literal : ∀ negative, (floatValue (.zero negative)).toList =
    (if negative then ['-'] else []) ++ ['0', '.', '0'] := by
  decide

/-- What is written for a finite number is a literal that is not large. -/
theorem exists_moderate {x : Binary64} (hfinite : x.isFinite = true) :
    ∃ l, LiteralText (floatValue x).toList l ∧ l.Moderate := by
  cases hzero : x.isZero with
  | true =>
      rw [Binary64.eq_zero_of_isZero hzero, zero_literal]
      refine ⟨⟨x.isNegative, ['0'], ['0'], none⟩, ?_, Nat.zero_le _, Nat.zero_le _⟩
      exact ⟨['.', '0'], [], rfl, wholeText_singleton rfl, .present (digits_singleton rfl), .absent⟩
  | false =>
      obtain ⟨l, d, -, hliteral, -, hl, -, -, -, horder⟩ := exists_literal hfinite hzero
      exact ⟨l, hliteral, hl.digits_le, hl.written_le.trans horder⟩

/-- A text without blanks is a document only as a whole. -/
theorem of_document {L : List Char → α → Prop} {source : String} {a : α}
    (h : Document L source a) (hblank : ∀ c ∈ source.toList, isBlank c = false) :
    L source.toList a := by
  obtain ⟨before, p, after, hsource, hb, ha, hp⟩ := h
  have hnil {part : List Char} (hpart : Blank part) (hsub : ∀ c ∈ part, c ∈ source.toList) :
      part = [] := by
    refine List.eq_nil_iff_forall_not_mem.2 fun c hc => ?_
    have hfalse := hblank c (hsub c hc)
    rw [blank_iff.1 hpart c hc] at hfalse
    exact Bool.noConfusion hfalse
  obtain rfl := hnil hb fun c hc => by simp [hsource, hc]
  obtain rfl := hnil ha fun c hc => by simp [hsource, hc]
  rw [hsource]
  simpa using hp

/-- The payload of a float node. -/
theorem floatValue_tapers (x : Binary64) :
    (∃ y, FloatText (floatValue x).toList y) ∧ Tapers n float (floatValue x).toList ∧
      '\n' ∉ (floatValue x).toList := by
  have hname (name : String) (hplain : Plain name) {y : Binary64}
      (hy : ∀ {text}, StringText text name → FloatText text y)
      (heq : (floatValue x).toList = '"' :: (name.toList ++ ['"'])) :
      (∃ y, FloatText (floatValue x).toList y) ∧ Tapers n float (floatValue x).toList ∧
        '\n' ∉ (floatValue x).toList := by
    rw [heq]
    refine ⟨⟨y, hy (plain_text hplain)⟩, ?_, by simp [newline_notMem_plain hplain]⟩
    exact Starves.tapers fun c hcut _ => runsOut_float_string (plain_text hplain) hcut
  cases hnan : x.isNaN with
  | true => exact hname "nan" (by decide) .nan (by rw [floatValue, if_pos hnan]; rfl)
  | false =>
      cases hinf : x.isInfinite with
      | true =>
          cases hneg : x.isNegative with
          | true => exact hname "-inf" (by decide) .negInfinity (by simp [floatValue, *])
          | false => exact hname "inf" (by decide) .infinity (by simp [floatValue, *])
      | false =>
          have hfinite := Binary64.isFinite_of_not hnan hinf
          obtain ⟨l, hl, hmoderate⟩ := exists_moderate hfinite
          obtain ⟨y, hy⟩ := exists_read_float hfinite
          have hblank := notBlank_of_literal hl
          refine ⟨⟨y, of_document ((readDocument_iff float_accepts).1 hy) hblank⟩, ?_, ?_⟩
          · refine (float_accepts n).tapers fun c hcut => ?_
            rcases literal_cut hl hcut with hout | ⟨l', hfront, hl'⟩
            · exact .inl (runsOut_float_number hl hcut hout)
            · obtain ⟨k, hk⟩ := hfront.exists_value hmoderate
              exact .inr ⟨_, .number hl' hk⟩
          · exact fun hc => absurd (hblank _ hc) (by decide)

/-! ## Variants of nodes -/

theorem Written.of_iff {r : Reader α} {L L' : List Char → α → Prop} {s : String}
    (h : Written n r L s) (hiff : ∀ p a, L p a ↔ L' p a) : Written n r L' s where
  accepts := h.accepts.of_iff hiff
  text := by
    obtain ⟨a, ha⟩ := h.text
    exact ⟨a, (hiff _ _).1 ha⟩
  starves := h.starves
  line := h.line

section Nodes

variable {variants : List (Variant β)} {texts : List (VariantText β)}
  (h : List.Forall₂ (VariantAccepts n) variants texts) (hnames : (texts.map (·.name)).Nodup)
  (i : Nat) {name : String} (hplain : Plain name)

include h hnames hplain

/-- A variant with one value gets along with what is written, if the value does. -/
theorem value_written {r : Reader α} {L : List Char → α → Prop} {build : α → β}
    (hvariant : variants[i]? = some ⟨name, .value (build <$> r)⟩)
    (htext : texts[i]? = some (valueText name L build)) {payload : String}
    (hpayload : ∃ a, L payload.toList a) (htapers : Tapers n r payload.toList)
    (hline : '\n' ∉ payload.toList) :
    Written (n + 1) (oneOf variants) (fun p a => ∃ t ∈ texts, t.Text p a)
      (single name payload) := by
  obtain ⟨a, ha⟩ := hpayload
  exact single_written h hnames hvariant htext hplain ⟨build a, a, ha, rfl⟩ (htapers.map build)
    hline

/-- A variant with a string gets along with the quoted text. -/
theorem text_variant_written {build : String → β}
    (hvariant : variants[i]? = some ⟨name, .value (build <$> text)⟩)
    (htext : texts[i]? = some (valueText name StringText build)) (value : String) :
    Written (n + 1) (oneOf variants) (fun p a => ∃ t ∈ texts, t.Text p a)
      (single name (quote value)) := by
  have hw : Written n text StringText (quote value) := text_written value
  exact value_written h hnames i hplain hvariant htext hw.text hw.starves.tapers hw.line

/-- A variant with fields gets along with the written object, if every field does. -/
theorem fielded_written {types : List Type} {typeName : String} {fields : Fields types}
    {names : List String} {langs : Langs types} {build : Values types → β}
    (hvariant : variants[i]? = some (fielded typeName name fields build))
    (htext : texts[i]? = some (recordText name names langs build)) (heq : fields.names = names)
    (hfieldNames : names.Nodup) (hplains : ∀ name ∈ names, Plain name) {values : List String}
    (hfields : FieldsWritten n fields langs values) {entries : List (String × String)}
    (hentries : names.zip values = entries) :
    Written (n + 1) (oneOf variants) (fun p a => ∃ t ∈ texts, t.Text p a)
      (single name (object entries)) := by
  subst heq hentries
  have hw := record_written hfields hfieldNames hplains
  obtain ⟨vs, hvs⟩ := (hw "" "").text
  exact single_written h hnames hvariant htext hplain ⟨build vs, vs, hvs, rfl⟩
    ((hw _ _).starves.tapers.map build) (hw "" "").line

end Nodes

/-- An operator is written as its name. -/
theorem operator_written {all : List α} {name : α → String} (hnames : (all.map name).Nodup)
    (hall : ∀ op, op ∈ all) (op : α) :
    Written n (operator all name) (fun p op => UnitText (name op) p) (quote (name op)) where
  accepts := operator_accepts hnames hall
  text := ⟨op, .inl (quote_text (name op))⟩
  starves := bare_starves _ _
  line := newline_notMem_quote (name op)

theorem unaryOp_written (op : UnaryOp) :
    Written n unaryOp (fun p op => UnitText op.name p) (quote op.name) :=
  operator_written (by decide) (fun op => by cases op <;> decide) op

theorem binaryOp_written (op : BinaryOp) :
    Written n binaryOp (fun p op => UnitText op.name p) (quote op.name) :=
  operator_written (by decide) (fun op => by cases op <;> decide) op

/-! ## Trees -/

/-- What is written for one part is all there is to read within no characters at all. -/
theorem written_within {r : Nat → Reader α} {L : List Char → α → Prop} {s : String}
    (hzero : r 0 = failAhead (.endOfInput .value)) (haccepts : Accepts 0 (r 0) L)
    (h : ∀ n, Written (n + 1) (r (n + 1)) L s) : ∀ n, Written n (r n) L s
  | 0 =>
      { accepts := haccepts
        text := (h 0).text
        starves := by
          intro c _ hn
          rw [hzero]
          exact runsOut_failAhead .value (List.length_eq_zero_iff.1 (Nat.le_zero.1 hn))
        line := (h 0).line }
  | n + 1 => h n

/-- A variant of the expressions within the bound. -/
theorem expr_written {e : Expr} (h : ∀ n, Written (n + 1)
      (oneOf (exprVariants ⟨exprWithin n, typeSpecWithin n⟩))
      (fun p a => ∃ t ∈ exprTexts, t.Text p a) e.toJson) (n : Nat) :
    Written n (exprWithin n) ExprText e.toJson :=
  written_within rfl (nodes_accept 0).1 (fun n => (h n).of_iff fun _ _ => exprText_iff.symm) n

theorem typeSpec_written {t : TypeSpec} (h : ∀ n, Written (n + 1)
      (oneOf (typeSpecVariants ⟨exprWithin n, typeSpecWithin n⟩))
      (fun p a => ∃ t ∈ typeSpecTexts, t.Text p a) t.toJson) (n : Nat) :
    Written n (typeSpecWithin n) TypeSpecText t.toJson :=
  written_within rfl (nodes_accept 0).2 (fun n => (h n).of_iff fun _ _ => typeSpecText_iff.symm) n

/-- Every node gets along with what is written for it, by induction on the tree. -/
theorem nodes_written :
    (∀ (e : Expr) (n : Nat), Written n (exprWithin n) ExprText e.toJson) ∧
      ∀ (t : TypeSpec) (n : Nat), Written n (typeSpecWithin n) TypeSpecText t.toJson := by
  have hexprs (n : Nat) : List.Forall₂ (VariantAccepts n)
      (exprVariants ⟨exprWithin n, typeSpecWithin n⟩) exprTexts :=
    exprVariants_accept (nodes_accept n).1 (nodes_accept n).2
  have htypes (n : Nat) : List.Forall₂ (VariantAccepts n)
      (typeSpecVariants ⟨exprWithin n, typeSpecWithin n⟩) typeSpecTexts :=
    typeSpecVariants_accept (nodes_accept n).1 (nodes_accept n).2
  refine Node.induction ?int ?float ?str ?name ?cast ?call ?index ?field ?unary ?binary ?ternary
    ?compound ?typeName ?pointer ?array ?function
  case int =>
    intro value
    apply expr_written
    intro n
    have hvalue := repr_text value.toNat_lt
    refine value_written (hexprs n) (by decide) 0 (by decide) rfl rfl
      ⟨_, hvalue⟩ (natural_tapers hvalue _) fun hc => ?_
    exact absurd ((opensValue_of_digit (.inr (hvalue.1.1.2 _ hc))).1) (by decide)
  case float =>
    intro value
    apply expr_written
    intro n
    obtain ⟨htext, htapers, hline⟩ := floatValue_tapers value
    exact value_written (hexprs n) (by decide) 1 (by decide) rfl rfl
      htext htapers hline
  case str =>
    intro value
    apply expr_written
    intro n
    exact text_variant_written (hexprs n) (by decide) 2 (by decide) rfl rfl value
  case name =>
    intro name
    apply expr_written
    intro n
    exact text_variant_written (hexprs n) (by decide) 3 (by decide) rfl rfl name
  case cast =>
    intro ty expr hty hexpr
    apply expr_written
    intro n
    exact fielded_written (hexprs n) (by decide) 4 (by decide) rfl rfl rfl (by decide) (by decide)
      (fieldsWritten_field _ (hty n) (fieldsWritten_field _ (hexpr n) fieldsWritten_nil)) rfl
  case call =>
    intro callee args hcallee hargs
    apply expr_written
    intro n
    have hlist : Written n (list (exprWithin n)) (ItemsText ExprText)
        (array (args.map Expr.toJson)) :=
      list_written (nodes_accept n).1 fun s hs => by
        obtain ⟨arg, harg, rfl⟩ := List.mem_map.1 hs
        exact hargs arg harg n
    rw [Expr.toJson, toJsons_eq_map]
    exact fielded_written (hexprs n) (by decide) 5 (by decide) rfl rfl rfl (by decide) (by decide)
      (fieldsWritten_field _ (hcallee n) (fieldsWritten_field _ hlist fieldsWritten_nil)) rfl
  case index =>
    intro expr index hexpr hindex
    apply expr_written
    intro n
    exact fielded_written (hexprs n) (by decide) 6 (by decide) rfl rfl rfl (by decide) (by decide)
      (fieldsWritten_field _ (hexpr n) (fieldsWritten_field _ (hindex n) fieldsWritten_nil)) rfl
  case field =>
    intro expr name hexpr
    apply expr_written
    intro n
    exact fielded_written (hexprs n) (by decide) 7 (by decide) rfl rfl rfl (by decide) (by decide)
      (fieldsWritten_field _ (hexpr n)
        (fieldsWritten_field _ (text_written name) fieldsWritten_nil)) rfl
  case unary =>
    intro op expr hexpr
    apply expr_written
    intro n
    exact fielded_written (hexprs n) (by decide) 8 (by decide) rfl rfl rfl (by decide) (by decide)
      (fieldsWritten_field _ (unaryOp_written op)
        (fieldsWritten_field _ (hexpr n) fieldsWritten_nil)) rfl
  case binary =>
    intro op left right hleft hright
    apply expr_written
    intro n
    exact fielded_written (hexprs n) (by decide) 9 (by decide) rfl rfl rfl (by decide) (by decide)
      (fieldsWritten_field _ (binaryOp_written op)
        (fieldsWritten_field _ (hleft n) (fieldsWritten_field _ (hright n) fieldsWritten_nil))) rfl
  case ternary =>
    intro cond thenExpr elseExpr hcond hthen helse
    apply expr_written
    intro n
    exact fielded_written (hexprs n) (by decide) 10 (by decide) rfl rfl rfl (by decide) (by decide)
      (fieldsWritten_field _ (hcond n)
        (fieldsWritten_field _ (hthen n) (fieldsWritten_field _ (helse n) fieldsWritten_nil))) rfl
  case compound =>
    apply expr_written
    intro n
    exact bare_written (hexprs n) (by decide) (i := 11) rfl rfl rfl
  case typeName =>
    intro name
    apply typeSpec_written
    intro n
    exact text_variant_written (htypes n) (by decide) 0 (by decide) rfl rfl name
  case pointer =>
    intro elem helem
    apply typeSpec_written
    intro n
    exact fielded_written (htypes n) (by decide) 1 (by decide) rfl rfl rfl (by decide) (by decide)
      (fieldsWritten_field _ (helem n) fieldsWritten_nil) rfl
  case array =>
    intro elem size helem hsize
    apply typeSpec_written
    intro n
    exact fielded_written (htypes n) (by decide) 2 (by decide) rfl rfl rfl (by decide) (by decide)
      (fieldsWritten_field _ (helem n) (fieldsWritten_field _ (hsize n) fieldsWritten_nil)) rfl
  case function =>
    intro args ret hargs hret
    apply typeSpec_written
    intro n
    have hlist : Written n (list (typeSpecWithin n)) (ItemsText TypeSpecText)
        (array (args.map TypeSpec.toJson)) :=
      list_written (nodes_accept n).2 fun s hs => by
        obtain ⟨arg, harg, rfl⟩ := List.mem_map.1 hs
        exact hargs arg harg n
    rw [TypeSpec.toJson, typeSpec_toJsons_eq_map]
    exact fielded_written (htypes n) (by decide) 3 (by decide) rfl rfl rfl (by decide) (by decide)
      (fieldsWritten_field _ hlist (fieldsWritten_field _ (hret n) fieldsWritten_nil)) rfl

/-! ## Documents -/

theorem cut_of_prefix {front text : List Char} (h : front <+: text) (hne : front ≠ text) :
    Cut front text := by
  obtain ⟨rest, rfl⟩ := h
  cases rest with
  | nil => exact absurd (List.append_nil front).symm hne
  | cons x rest => exact ⟨x, rest, rfl⟩

/-- The front of a written text is refused at its end, which is on its only line. -/
theorem readDocument_front {r : Nat → Reader α} {L : List Char → α → Prop} {s p : String}
    (h : ∀ n, Written n (r n) L s) (hp : Cut p.toList s.toList) :
    ∃ inside, readDocument (do r (← remaining)) p =
      .error ⟨.endOfInput inside, some ⟨1, p.utf8ByteSize⟩⟩ := by
  have hout : RunsOut (document (do r (← remaining))) (.start p) := by
    apply RunsOut.bind
    apply runsOut_remaining_bind
    exact (h _).starves _ hp (Nat.le_refl _)
  have hline : '\n' ∉ p.toList := by
    obtain ⟨x, rest, heq⟩ := hp
    exact fun hc => (h 0).line (heq ▸ List.mem_append_left _ hc)
  have hfinish : (Cursor.start p).finish = p.utf8ByteSize := by
    rw [Cursor.finish, Cursor.start, Nat.zero_add, Text.byteLength_toList]
  obtain ⟨inside, stop, hon⟩ := hout
  refine ⟨inside, ?_⟩
  rw [readDocument, hon, hfinish, ← Position.ofOffset_end hline]
  rfl

section Extended

variable {r : Reader α} {L : List Char → α → Prop} {source extra : String} {a : α}

/-- Whatever is not blank behind a document is refused where it begins. -/
theorem readDocument_garbage (haccepts : ∀ n, Accepts n r L) (hclosed : Closed r L)
    (h : readDocument r source = .ok a) (hextra : ∃ c ∈ extra.toList, isBlank c = false) :
    ∃ place : Position,
      place.Denotes (source ++ extra)
        (source.utf8ByteSize + byteLength (extra.toList.takeWhile isBlank) + 1) ∧
      readDocument r (source ++ extra) = .error ⟨.trailingCharacters, some place⟩ := by
  have hblank : ¬ ∀ c ∈ extra.toList, isBlank c = true := by
    obtain ⟨c, hc, hfalse⟩ := hextra
    exact fun hall => Bool.noConfusion ((hall c hc).symm.trans hfalse)
  have hread := readDocument_append_other haccepts hclosed h (mt blank_iff.1 hblank)
  rw [Text.byteLength_append, Text.byteLength_toList] at hread
  refine ⟨_, Position.ofOffset_denotes ?_, hread⟩
  obtain ⟨x, rest, hrest⟩ := List.exists_cons_of_ne_nil (mt List.dropWhile_eq_nil_iff.1 hblank)
  have hsplit := congrArg byteLength
    (List.takeWhile_append_dropWhile (p := isBlank) (l := extra.toList))
  rw [hrest, Text.byteLength_append, Text.byteLength_cons, Text.byteLength_toList] at hsplit
  have hsize := x.utf8Size_pos
  rw [String.utf8ByteSize_append]
  omega

/-- A document that goes on, for a value that is made from what was read. -/
theorem readDocument_extended (haccepts : ∀ n, Accepts n r L) (hclosed : Closed r L) {f : α → β}
    {b : β} (h : (readDocument r source).map f = .ok b) :
    ((∀ c ∈ extra.toList, isBlank c = true) →
      (readDocument r (source ++ extra)).map f = .ok b) ∧
    ((∃ c ∈ extra.toList, isBlank c = false) → ∃ place : Position,
      place.Denotes (source ++ extra)
        (source.utf8ByteSize + byteLength (extra.toList.takeWhile isBlank) + 1) ∧
      (readDocument r (source ++ extra)).map f = .error ⟨.trailingCharacters, some place⟩) := by
  cases hread : readDocument r source with
  | error failure =>
      rw [hread] at h
      cases h
  | ok a =>
      rw [hread] at h
      constructor
      · intro hextra
        rw [readDocument_append_blank haccepts hclosed hread (blank_iff.2 hextra)]
        exact h
      · intro hextra
        obtain ⟨place, hplace, hother⟩ := readDocument_garbage haccepts hclosed hread hextra
        exact ⟨place, hplace, by rw [hother]; rfl⟩

end Extended

end Json

open Json

/-- A written tree that is cut is refused where the text ends, as a text that ended. A text that is
read as a tree is read as that tree with blanks after it, and refused just after the first byte of
anything else. -/
theorem Node.ofJson_cut_or_extended :
    (∀ (node : Node) (p : String), p.toList <+: node.toJson.toList → p ≠ node.toJson →
      ∃ inside, Node.ofJson node.sort p =
        .error ⟨.endOfInput inside, some ⟨1, p.utf8ByteSize⟩⟩) ∧
    ∀ (sort : NodeSort) (s u : String) (node : Node), Node.ofJson sort s = .ok node →
      ((∀ c ∈ u.toList, isBlank c = true) → Node.ofJson sort (s ++ u) = .ok node) ∧
      ((∃ c ∈ u.toList, isBlank c = false) → ∃ place : Position,
        place.Denotes (s ++ u)
          (s.utf8ByteSize + Text.byteLength (u.toList.takeWhile isBlank) + 1) ∧
        Node.ofJson sort (s ++ u) = .error ⟨.trailingCharacters, some place⟩) := by
  constructor
  · intro node p hprefix hne
    have hcut := cut_of_prefix hprefix fun h => hne (String.toList_injective h)
    cases node with
    | expr e =>
        obtain ⟨inside, h⟩ := readDocument_front (nodes_written.1 e) hcut
        exact ⟨inside, congrArg (Except.map Node.expr) h⟩
    | typeSpec t =>
        obtain ⟨inside, h⟩ := readDocument_front (nodes_written.2 t) hcut
        exact ⟨inside, congrArg (Except.map Node.typeSpec) h⟩
  · intro sort s u node h
    cases sort with
    | expr => exact readDocument_extended (fun _ => expr_accepts) expr_closed h
    | typeSpec => exact readDocument_extended (fun _ => typeSpec_accepts) typeSpec_closed h

/-- A literal that is cut in the middle of its digits, and one with a letter after it. -/
theorem Node.ofJson_cut_or_extended_int :
    (∃ inside, Node.ofJson .expr "\x7b\"Int\":1" =
      .error ⟨.endOfInput inside, some ⟨1, 8⟩⟩) ∧
    (Node.ofJson .expr ("\x7b\"Int\":12\x7d" ++ " \n") = .ok (.expr (.int 12)) ∧
      ∃ place : Position, place.Denotes ("\x7b\"Int\":12\x7d" ++ " \né") 13 ∧
        Node.ofJson .expr ("\x7b\"Int\":12\x7d" ++ " \né") =
          .error ⟨.trailingCharacters, some place⟩) := by
  have hjson : (Node.expr (.int 12)).toJson = "\x7b\"Int\":12\x7d" := by decide +kernel
  have hread : Node.ofJson .expr "\x7b\"Int\":12\x7d" = .ok (.expr (.int 12)) := by
    have htext := toJson_text.1 (.int 12) fun x hx => absurd hx List.not_mem_nil
    have hwhole : Grammar.Document Grammar.ExprText (Expr.toJson (.int 12)) (.int 12) :=
      ⟨[], _, [], by simp, blank_nil, blank_nil, htext⟩
    rw [← hjson]
    exact congrArg (Except.map Node.expr) ((readDocument_iff fun _ => expr_accepts).2 hwhole)
  have hfront : "\x7b\"Int\":1".utf8ByteSize = 8 := by decide +kernel
  have hplace : "\x7b\"Int\":12\x7d".utf8ByteSize +
      Text.byteLength (" \né".toList.takeWhile isBlank) + 1 = 13 := by decide +kernel
  refine ⟨?_, ?_, ?_⟩
  · have h := Node.ofJson_cut_or_extended.1 (.expr (.int 12)) "\x7b\"Int\":1"
    rw [hjson, hfront] at h
    exact h (by decide +kernel) fun heq => absurd (congrArg String.toList heq) (by decide +kernel)
  · exact (Node.ofJson_cut_or_extended.2 .expr _ " \n" _ hread).1 (by simp [isBlank])
  · rw [← hplace]
    exact (Node.ofJson_cut_or_extended.2 .expr _ " \né" _ hread).2 ⟨'é', by simp, by decide⟩

end SyntaxTree
