import SyntaxTree.Proofs.Node.Agreement
import SyntaxTree.Proofs.Node.Floats
import SyntaxTree.Proofs.Print.Words

/-! # The canonical text is unambiguous

The text of a tree is a symbolic expression. If names are identifiers and no word is taken for
another, the head of a list tells the kind of the node, and so two trees with the same text agree
up to the texts of their float leaves. -/

namespace SyntaxTree

open Print SExpr

/-! ## Well-named trees -/

/-- The name of a form, which as a callee would be read as that form. -/
def Expr.isFormName : Expr → Bool
  | .name callee => ["cast", "index", "field", "if"].contains callee
  | _ => false

mutual

/-- Names are identifiers and no strings hold quotes, no name is spelled as a float literal, and no
callee is the name of a form. -/
def Expr.wellNamed : Expr → Bool
  | .int _ | .float _ | .compound => true
  | .str value => !value.toList.contains '"'
  | .name name => isIdentifier name && name != "nan" && name != "inf"
  | .cast ty expr => ty.wellNamed && expr.wellNamed
  | .call callee args => !callee.isFormName && callee.wellNamed && Expr.wellNamedList args
  | .index expr index => expr.wellNamed && index.wellNamed
  | .field expr name => expr.wellNamed && isIdentifier name
  | .unary _ expr => expr.wellNamed
  | .binary _ left right => left.wellNamed && right.wellNamed
  | .ternary cond thenExpr elseExpr =>
    cond.wellNamed && thenExpr.wellNamed && elseExpr.wellNamed

def Expr.wellNamedList : List Expr → Bool
  | [] => true
  | expr :: rest => expr.wellNamed && Expr.wellNamedList rest

/-- Names are identifiers, and the sizes are well-named. -/
def TypeSpec.wellNamed : TypeSpec → Bool
  | .name name => isIdentifier name
  | .pointer elem => elem.wellNamed
  | .array elem size => elem.wellNamed && size.wellNamed
  | .function args ret => TypeSpec.wellNamedList args && ret.wellNamed

def TypeSpec.wellNamedList : List TypeSpec → Bool
  | [] => true
  | ty :: rest => ty.wellNamed && TypeSpec.wellNamedList rest

end

@[simp] theorem Expr.wellNamedList_iff {exprs : List Expr} :
    Expr.wellNamedList exprs = true ↔ ∀ e ∈ exprs, e.wellNamed = true := by
  induction exprs with
  | nil => simp [Expr.wellNamedList]
  | cons e rest ih => rw [Expr.wellNamedList, Bool.and_eq_true, ih, List.forall_mem_cons]

@[simp] theorem TypeSpec.wellNamedList_iff {types : List TypeSpec} :
    TypeSpec.wellNamedList types = true ↔ ∀ t ∈ types, t.wellNamed = true := by
  induction types with
  | nil => simp [TypeSpec.wellNamedList]
  | cons t rest ih => rw [TypeSpec.wellNamedList, Bool.and_eq_true, ih, List.forall_mem_cons]

/-! ## Trees as symbolic expressions -/

namespace SExpr

/-- A word, of a text. -/
def word (text : String) : SExpr := .atom text.toList

end SExpr

section Config

variable (config : PrintConfig)

mutual

/-- The S-expression that an expression is printed as. -/
def Expr.sexpr : Expr → SExpr
  | .int value => word value.toNat.repr
  | .float value => word (config.floatText value)
  | .str value => .str value.toList
  | .name name => word name
  | .cast ty expr => .list [word "cast", ty.sexpr, expr.sexpr]
  | .call callee args => .list (callee.sexpr :: Expr.sexprs args)
  | .index expr index => .list [word "index", expr.sexpr, index.sexpr]
  | .field expr name => .list [word "field", expr.sexpr, word name]
  | .unary op expr => .list [word op.symbol, expr.sexpr]
  | .binary op left right => .list [word op.symbol, left.sexpr, right.sexpr]
  | .ternary cond thenExpr elseExpr =>
    .list [word "if", cond.sexpr, thenExpr.sexpr, elseExpr.sexpr]
  | .compound => .list [word "compound", word "..."]

def Expr.sexprs : List Expr → List SExpr
  | [] => []
  | expr :: rest => expr.sexpr :: Expr.sexprs rest

/-- The S-expression that a type expression is printed as. -/
def TypeSpec.sexpr : TypeSpec → SExpr
  | .name name => word name
  | .pointer elem => .list [word "ptr", elem.sexpr]
  | .array elem size => .list [word "arr", elem.sexpr, size.sexpr]
  | .function args ret => .list [word "func", .list (TypeSpec.sexprs args), ret.sexpr]

def TypeSpec.sexprs : List TypeSpec → List SExpr
  | [] => []
  | ty :: rest => ty.sexpr :: TypeSpec.sexprs rest

end

@[simp] theorem Expr.sexprs_eq_map (exprs : List Expr) :
    Expr.sexprs config exprs = exprs.map (Expr.sexpr config) := by
  induction exprs with
  | nil => rfl
  | cons e rest ih => rw [Expr.sexprs, ih, List.map_cons]

@[simp] theorem TypeSpec.sexprs_eq_map (types : List TypeSpec) :
    TypeSpec.sexprs config types = types.map (TypeSpec.sexpr config) := by
  induction types with
  | nil => rfl
  | cons t rest ih => rw [TypeSpec.sexprs, ih, List.map_cons]

/-- The canonical text renders the symbolic expression. -/
theorem Node.render_sexpr :
    (∀ e : Expr, (e.sexpr config).render = (e.text config).toList) ∧
      ∀ t : TypeSpec, (t.sexpr config).render = (t.text config).toList := by
  refine Node.induction ?int ?float ?str ?name ?cast ?call ?index ?field ?unary ?binary ?ternary
    ?compound ?typeName ?pointer ?array ?function
  case call =>
    intro callee args hcallee hargs
    have hlist : args.map (render ∘ Expr.sexpr config) =
        args.map (String.toList ∘ Expr.text config) := List.map_congr_left hargs
    simp [Expr.sexpr, Expr.text, render, renderItems_eq_intercalate, hcallee, hlist]
  case function =>
    intro args ret hargs hret
    have hlist : args.map (render ∘ TypeSpec.sexpr config) =
        args.map (String.toList ∘ TypeSpec.text config) := List.map_congr_left hargs
    have hitems : renderItems (args.map (TypeSpec.sexpr config)) =
        [' '].intercalate (args.map (String.toList ∘ TypeSpec.text config)) := by
      rw [renderItems_eq_intercalate, List.map_map, hlist]
    simp [TypeSpec.sexpr, TypeSpec.text, word, render, renderItems, renderRest, hitems, hret]
  all_goals
    intros
    simp_all [Expr.sexpr, Expr.text, TypeSpec.sexpr, TypeSpec.text, word, render, renderItems,
      renderRest]

variable {config}

/-- The words that the text of a composite node begins with, or that stand for the elements of a
compound literal. -/
def formWords : List String :=
  ["cast", "index", "field", "if", "compound", "...", "ptr", "arr", "func"]

theorem formWord_solid {text : String} (h : text ∈ formWords) : (word text).Solid := by
  have hwords : ∀ text ∈ formWords, text.toList ≠ [] ∧ text.toList.all isSolid = true := by
    decide
  exact .atom_of_all (hwords text h).1 (hwords text h).2

/-- The symbolic expression of a well-named tree is solid. -/
theorem Node.solid_sexpr :
    (∀ e : Expr, e.wellNamed = true → (e.sexpr config).Solid) ∧
      ∀ t : TypeSpec, t.wellNamed = true → (t.sexpr config).Solid := by
  have form {text : String} {items : List SExpr} (htext : text ∈ formWords)
      (hitems : ∀ item ∈ items, item.Solid) : (SExpr.list (word text :: items)).Solid :=
    .list (List.forall_mem_cons.2 ⟨formWord_solid htext, hitems⟩)
  refine Node.induction ?int ?float ?str ?name ?cast ?call ?index ?field ?unary ?binary ?ternary
    ?compound ?typeName ?pointer ?array ?function
  case int => exact fun value _ => repr_solid value.toNat
  case float => exact fun x _ => floatText_solid config x
  case str => exact fun value h => .str (by simpa [Expr.wellNamed] using h)
  case name =>
    intro name h
    simp only [Expr.wellNamed, Bool.and_eq_true] at h
    exact solid_of_isIdentifier h.1.1
  case cast =>
    intro ty expr hty hexpr h
    simp only [Expr.wellNamed, Bool.and_eq_true] at h
    exact form (by decide) (by simp [hty h.1, hexpr h.2])
  case call =>
    intro callee args hcallee hargs h
    simp only [Expr.wellNamed, Bool.and_eq_true, Expr.wellNamedList_iff] at h
    refine .list (List.forall_mem_cons.2 ⟨hcallee h.1.2, ?_⟩)
    rw [Expr.sexprs_eq_map]
    intro item hitem
    obtain ⟨arg, harg, rfl⟩ := List.mem_map.1 hitem
    exact hargs arg harg (h.2 arg harg)
  case index =>
    intro expr index hexpr hindex h
    simp only [Expr.wellNamed, Bool.and_eq_true] at h
    exact form (by decide) (by simp [hexpr h.1, hindex h.2])
  case field =>
    intro expr name hexpr h
    simp only [Expr.wellNamed, Bool.and_eq_true] at h
    exact form (by decide) (by simp [hexpr h.1, word, solid_of_isIdentifier h.2])
  case unary =>
    intro op expr hexpr h
    exact .list (by simp [hexpr h, word, unarySymbol_solid])
  case binary =>
    intro op left right hleft hright h
    simp only [Expr.wellNamed, Bool.and_eq_true] at h
    exact .list (by simp [hleft h.1, hright h.2, word, binarySymbol_solid])
  case ternary =>
    intro cond thenExpr elseExpr hcond hthen helse h
    simp only [Expr.wellNamed, Bool.and_eq_true] at h
    exact form (by decide) (by simp [hcond h.1.1, hthen h.1.2, helse h.2])
  case compound =>
    have hdots : (word "...").Solid := formWord_solid (by decide)
    exact fun _ => form (by decide) (by simp [hdots])
  case typeName => exact fun name h => solid_of_isIdentifier h
  case pointer => exact fun elem helem h => form (by decide) (by simp [helem h])
  case array =>
    intro elem size helem hsize h
    simp only [TypeSpec.wellNamed, Bool.and_eq_true] at h
    exact form (by decide) (by simp [helem h.1, hsize h.2])
  case function =>
    intro args ret hargs hret h
    simp only [TypeSpec.wellNamed, Bool.and_eq_true, TypeSpec.wellNamedList_iff] at h
    have hlist : (SExpr.list (args.map (TypeSpec.sexpr config))).Solid := by
      refine .list fun item hitem => ?_
      obtain ⟨arg, harg, rfl⟩ := List.mem_map.1 hitem
      exact hargs arg harg (h.1 arg harg)
    exact form (by decide) (by simp [hlist, hret h.2])

/-! ## Kinds from heads -/

/-- The word in front of a composite node other than a call. -/
def Expr.head? : Expr → Option String
  | .cast _ _ => some "cast"
  | .index _ _ => some "index"
  | .field _ _ => some "field"
  | .unary op _ => some op.symbol
  | .binary op _ _ => some op.symbol
  | .ternary _ _ _ => some "if"
  | .compound => some "compound"
  | _ => none

/-- The number of items after the head. -/
def Expr.operands : Expr → Nat
  | .unary _ _ | .compound => 1
  | .ternary _ _ _ => 3
  | _ => 2

/-- A composite expression is a list behind its form word. -/
theorem Expr.sexpr_of_head? (config : PrintConfig) {e : Expr} {text : String} (h : e.head? = some text) :
    ∃ items, e.sexpr config = .list (word text :: items) ∧ items.length = e.operands := by
  cases e <;> cases h <;> exact ⟨_, rfl, rfl⟩

/-- The kind that a head and a number of operands belong to. -/
def formKind (text : String) (operands : Nat) : Expr.Kind :=
  if text = "cast" then .cast
  else if text = "index" then .index
  else if text = "field" then .field
  else if text = "if" then .ternary
  else if text = "compound" then .compound
  else if operands = 1 then .unary
  else .binary

/-- The form word and the number of operands give the kind: minus has a unary and a binary form. -/
theorem Expr.kind_eq_formKind {e : Expr} {text : String} (h : e.head? = some text) :
    e.kind = formKind text e.operands := by
  cases e with
  | unary op =>
      cases h
      cases op <;> rfl
  | binary op =>
      cases h
      cases op <;> rfl
  | _ => cases h <;> rfl

theorem SExpr.word_inj {text text' : String} (h : word text = word text') : text = text' :=
  String.toList_inj.1 (SExpr.atom.inj h)

/-- A node that is written as a bare word is a leaf, whose word is of its own sort. -/
theorem Expr.sort_of_word {e : Expr} (h : e.wellNamed = true) {text : String}
    (hword : e.sexpr config = word text) :
    ¬ Symbolic text.toList ∧
      (Named text.toList → e = .name text ∨ text = "nan" ∨ text = "inf") := by
  cases e with
  | int value =>
      obtain rfl := SExpr.word_inj hword
      have hnumeric := repr_numeric value.toNat
      exact ⟨hnumeric.not_symbolic, fun hnamed => absurd hnumeric hnamed.not_numeric⟩
  | float x =>
      obtain rfl := SExpr.word_inj hword
      rcases floatText_sorts config x with hx | hx | hnumeric
      · rw [hx]
        exact ⟨Named.not_symbolic ⟨'n', by decide, by decide⟩, fun _ => .inr (.inl rfl)⟩
      · rw [hx]
        exact ⟨Named.not_symbolic ⟨'i', by decide, by decide⟩, fun _ => .inr (.inr rfl)⟩
      · exact ⟨hnumeric.not_symbolic, fun hnamed => absurd hnumeric hnamed.not_numeric⟩
  | name name =>
      obtain rfl := SExpr.word_inj hword
      simp only [Expr.wellNamed, Bool.and_eq_true] at h
      exact ⟨(named_of_isIdentifier h.1.1).not_symbolic, fun _ => .inl rfl⟩
  | _ => cases hword

/-- Leaves with the same word are of one kind. -/
theorem Expr.kind_eq_of_word (hp : 1 ≤ config.floatPrecision) {e e' : Expr} {text : String}
    (h : e.wellNamed = true) (h' : e'.wellNamed = true) (hword : e.sexpr config = word text)
    (hword' : e'.sexpr config = word text) : e.kind = e'.kind := by
  have int_float {value : UInt64} {x : Binary64} (heq : value.toNat.repr = config.floatText x) :
      False := by
    obtain ⟨c, hc, hdigit⟩ := floatText_not_digits hp x
    exact absurd (isDigit_of_mem_repr (heq ▸ hc)) (by simp [hdigit])
  have int_name {value : UInt64} {name : String} (hname : (Expr.name name).wellNamed = true)
      (heq : value.toNat.repr = name) : False := by
    simp only [Expr.wellNamed, Bool.and_eq_true] at hname
    exact (named_of_isIdentifier hname.1.1).not_numeric (heq ▸ repr_numeric value.toNat)
  have float_name {x : Binary64} {name : String} (hname : (Expr.name name).wellNamed = true)
      (heq : config.floatText x = name) : False := by
    simp only [Expr.wellNamed, Bool.and_eq_true, bne_iff_ne] at hname
    rcases floatText_sorts config x with hx | hx | hnumeric
    · exact hname.1.2 (heq.symm.trans hx)
    · exact hname.2 (heq.symm.trans hx)
    · exact (named_of_isIdentifier hname.1.1).not_numeric (heq ▸ hnumeric)
  cases e with
  | int value =>
      obtain rfl := SExpr.word_inj hword
      cases e' with
      | int => rfl
      | float x => exact (int_float (SExpr.word_inj hword').symm).elim
      | name name => exact (int_name h' (SExpr.word_inj hword').symm).elim
      | _ => cases hword'
  | float x =>
      obtain rfl := SExpr.word_inj hword
      cases e' with
      | int value => exact (int_float (SExpr.word_inj hword')).elim
      | float => rfl
      | name name => exact (float_name h' (SExpr.word_inj hword').symm).elim
      | _ => cases hword'
  | name name =>
      obtain rfl := SExpr.word_inj hword
      cases e' with
      | int value => exact (int_name h (SExpr.word_inj hword')).elim
      | float x => exact (float_name h (SExpr.word_inj hword')).elim
      | name => rfl
      | _ => cases hword'
  | _ => cases hword

/-- A call is not written as any other composite node. -/
theorem Expr.call_ne_form {callee e : Expr} {args : List Expr}
    (h : (Expr.call callee args).wellNamed = true) {text : String} (he : e.head? = some text) :
    (Expr.call callee args).sexpr config ≠ e.sexpr config := by
  intro heq
  simp only [Expr.wellNamed, Bool.and_eq_true, Bool.not_eq_true', Expr.wellNamedList_iff] at h
  obtain ⟨items, hitems, hlength⟩ := Expr.sexpr_of_head? config he
  have hlist := SExpr.list.inj (heq.trans hitems)
  obtain ⟨hcallee, hargs⟩ := List.cons.inj hlist
  obtain ⟨hsymbolic, hnamed⟩ := Expr.sort_of_word h.1.2 hcallee
  have form (hform : text ∈ ["cast", "index", "field", "if"]) (hword : Named text.toList) :
      False := by
    rcases hnamed hword with rfl | rfl | rfl
    · exact absurd h.1.1 (by simp [Expr.isFormName, hform])
    · exact absurd hform (by decide)
    · exact absurd hform (by decide)
  cases e with
  | cast =>
      cases he
      exact form (by decide) ⟨'c', by decide, by decide⟩
  | index =>
      cases he
      exact form (by decide) ⟨'i', by decide, by decide⟩
  | field =>
      cases he
      exact form (by decide) ⟨'f', by decide, by decide⟩
  | ternary =>
      cases he
      exact form (by decide) ⟨'i', by decide, by decide⟩
  | unary op =>
      cases he
      exact hsymbolic (unarySymbol_symbolic op)
  | binary op =>
      cases he
      exact hsymbolic (binarySymbol_symbolic op)
  | compound =>
      -- The callee may be a name `compound`, but no argument is written as three dots.
      have hdots : args.map (Expr.sexpr config) = [word "..."] := by
        have hform := SExpr.list.inj heq
        rw [Expr.sexprs_eq_map] at hform
        exact (List.cons.inj hform).2
      obtain ⟨arg, rfl, harg⟩ := List.map_eq_singleton_iff.1 hdots
      refine (Expr.sort_of_word (h.2 arg List.mem_cons_self) harg).1 ?_
      exact symbolic_of_all (by decide)
  | _ => cases he

/-! ## Kinds from texts -/

/-- A leaf is a word or a string, and any other node is a call or has a head. -/
theorem Expr.form (config : PrintConfig) (e : Expr) :
    (∃ text, e.sexpr config = word text) ∨ (∃ value, e = .str value) ∨
      (∃ callee args, e = .call callee args) ∨ ∃ text, e.head? = some text := by
  cases e with
  | int | float | name => exact .inl ⟨_, rfl⟩
  | str value => exact .inr (.inl ⟨value, rfl⟩)
  | call callee args => exact .inr (.inr (.inl ⟨callee, args, rfl⟩))
  | _ => exact .inr (.inr (.inr ⟨_, rfl⟩))

/-- Well-named trees with the same symbolic expression are of one kind. -/
theorem Expr.kind_eq_of_sexpr (hp : 1 ≤ config.floatPrecision) {e e' : Expr}
    (h : e.wellNamed = true) (h' : e'.wellNamed = true)
    (heq : e.sexpr config = e'.sexpr config) : e.kind = e'.kind := by
  rcases e.form config with ⟨text, hword⟩ | ⟨value, rfl⟩ | ⟨callee, args, rfl⟩ | ⟨text, hhead⟩
  · exact Expr.kind_eq_of_word hp h h' hword (heq ▸ hword)
  · cases e' with
    | str => rfl
    | _ => cases heq
  · rcases e'.form config with ⟨text, hword⟩ | ⟨value, rfl⟩ | ⟨callee', args', rfl⟩ | ⟨text, hhead⟩
    · rw [hword] at heq
      cases heq
    · cases heq
    · rfl
    · exact absurd heq (Expr.call_ne_form h hhead)
  · obtain ⟨items, hitems, hlength⟩ := Expr.sexpr_of_head? config hhead
    rcases e'.form config with ⟨text, hword⟩ | ⟨value, rfl⟩ | ⟨callee, args, rfl⟩ | ⟨text', hhead'⟩
    · rw [hword, hitems] at heq
      cases heq
    · rw [hitems] at heq
      cases heq
    · exact absurd heq.symm (Expr.call_ne_form h' hhead)
    · obtain ⟨items', hitems', hlength'⟩ := Expr.sexpr_of_head? config hhead'
      rw [hitems, hitems'] at heq
      obtain ⟨hword, rfl⟩ := List.cons.inj (SExpr.list.inj heq)
      obtain rfl := SExpr.word_inj hword
      rw [Expr.kind_eq_formKind hhead, Expr.kind_eq_formKind hhead', ← hlength, hlength']

/-- Two type expressions printed alike are of one kind. -/
theorem TypeSpec.kind_eq_of_sexpr {t t' : TypeSpec} (heq : t.sexpr config = t'.sexpr config) :
    t.kind = t'.kind := by
  cases t <;> cases t' <;> first | rfl | simp [TypeSpec.sexpr, word] at heq

/-! ## Trees from texts -/

/-- Two float literals with the same text. -/
def SameText (config : PrintConfig) (x y : Binary64) : Prop :=
  config.floatText x = config.floatText y

/-- Well-named trees with the same symbolic expression agree. The induction is on the first tree,
and the kind of the second one is known from its text. -/
theorem Node.agree_of_sexpr (hp : 1 ≤ config.floatPrecision) :
    (∀ e : Expr, e.wellNamed = true → ∀ e', e'.wellNamed = true →
      e.sexpr config = e'.sexpr config → e.Agree (SameText config) e') ∧
    ∀ t : TypeSpec, t.wellNamed = true → ∀ t', t'.wellNamed = true →
      t.sexpr config = t'.sexpr config → t.Agree (SameText config) t' := by
  refine Node.induction ?int ?float ?str ?name ?cast ?call ?index ?field ?unary ?binary ?ternary
    ?compound ?typeName ?pointer ?array ?function
  case int =>
    intro value h e' h' heq
    have hkind := Expr.kind_eq_of_sexpr hp h h' heq
    cases e' with
    | int value' =>
        have hrepr : value.toNat.repr = value'.toNat.repr := SExpr.word_inj heq
        obtain rfl := UInt64.toNat_inj.1 (repr_injective hrepr)
        exact .int value
    | _ => cases hkind
  case float =>
    intro x h e' h' heq
    have hkind := Expr.kind_eq_of_sexpr hp h h' heq
    cases e' with
    | float y => exact .float (SExpr.word_inj heq)
    | _ => cases hkind
  case str =>
    intro value h e' h' heq
    have hkind := Expr.kind_eq_of_sexpr hp h h' heq
    cases e' with
    | str value' =>
        obtain rfl := String.toList_inj.1 (SExpr.str.inj heq)
        exact .str value
    | _ => cases hkind
  case name =>
    intro name h e' h' heq
    have hkind := Expr.kind_eq_of_sexpr hp h h' heq
    cases e' with
    | name name' =>
        obtain rfl := SExpr.word_inj heq
        exact .name name
    | _ => cases hkind
  case cast =>
    intro ty expr hty hexpr h e' h' heq
    have hkind := Expr.kind_eq_of_sexpr hp h h' heq
    cases e' with
    | cast ty' expr' =>
        simp only [Expr.wellNamed, Bool.and_eq_true] at h h'
        simp only [Expr.sexpr, SExpr.list.injEq, List.cons.injEq, and_true, true_and] at heq
        exact .cast (hty h.1 _ h'.1 heq.1) (hexpr h.2 _ h'.2 heq.2)
    | _ => cases hkind
  case call =>
    intro callee args hcallee hargs h e' h' heq
    have hkind := Expr.kind_eq_of_sexpr hp h h' heq
    cases e' with
    | call callee' args' =>
        simp only [Expr.wellNamed, Bool.and_eq_true, Expr.wellNamedList_iff] at h h'
        simp only [Expr.sexpr, Expr.sexprs_eq_map, SExpr.list.injEq, List.cons.injEq] at heq
        refine .call (hcallee h.1.2 _ h'.1.2 heq.1) (forall₂_of_map_eq ?_ heq.2)
        exact fun a ha b hb => hargs a ha (h.2 a ha) b (h'.2 b hb)
    | _ => cases hkind
  case index =>
    intro expr index hexpr hindex h e' h' heq
    have hkind := Expr.kind_eq_of_sexpr hp h h' heq
    cases e' with
    | index expr' index' =>
        simp only [Expr.wellNamed, Bool.and_eq_true] at h h'
        simp only [Expr.sexpr, SExpr.list.injEq, List.cons.injEq, and_true, true_and] at heq
        exact .index (hexpr h.1 _ h'.1 heq.1) (hindex h.2 _ h'.2 heq.2)
    | _ => cases hkind
  case field =>
    intro expr name hexpr h e' h' heq
    have hkind := Expr.kind_eq_of_sexpr hp h h' heq
    cases e' with
    | field expr' name' =>
        simp only [Expr.wellNamed, Bool.and_eq_true] at h h'
        simp only [Expr.sexpr, SExpr.list.injEq, List.cons.injEq, and_true, true_and] at heq
        obtain rfl := SExpr.word_inj heq.2
        exact .field name (hexpr h.1 _ h'.1 heq.1)
    | _ => cases hkind
  case unary =>
    intro op expr hexpr h e' h' heq
    have hkind := Expr.kind_eq_of_sexpr hp h h' heq
    cases e' with
    | unary op' expr' =>
        simp only [Expr.sexpr, SExpr.list.injEq, List.cons.injEq, and_true] at heq
        obtain rfl := UnaryOp.symbol_inj (SExpr.word_inj heq.1)
        exact .unary op (hexpr h _ h' heq.2)
    | _ => cases hkind
  case binary =>
    intro op left right hleft hright h e' h' heq
    have hkind := Expr.kind_eq_of_sexpr hp h h' heq
    cases e' with
    | binary op' left' right' =>
        simp only [Expr.wellNamed, Bool.and_eq_true] at h h'
        simp only [Expr.sexpr, SExpr.list.injEq, List.cons.injEq, and_true] at heq
        obtain rfl := BinaryOp.symbol_inj (SExpr.word_inj heq.1)
        exact .binary op (hleft h.1 _ h'.1 heq.2.1) (hright h.2 _ h'.2 heq.2.2)
    | _ => cases hkind
  case ternary =>
    intro cond thenExpr elseExpr hcond hthen helse h e' h' heq
    have hkind := Expr.kind_eq_of_sexpr hp h h' heq
    cases e' with
    | ternary cond' thenExpr' elseExpr' =>
        simp only [Expr.wellNamed, Bool.and_eq_true] at h h'
        simp only [Expr.sexpr, SExpr.list.injEq, List.cons.injEq, and_true, true_and] at heq
        exact .ternary (hcond h.1.1 _ h'.1.1 heq.1) (hthen h.1.2 _ h'.1.2 heq.2.1)
          (helse h.2 _ h'.2 heq.2.2)
    | _ => cases hkind
  case compound =>
    intro h e' h' heq
    have hkind := Expr.kind_eq_of_sexpr hp h h' heq
    cases e' with
    | compound => exact .compound
    | _ => cases hkind
  case typeName =>
    intro name h t' h' heq
    have hkind := TypeSpec.kind_eq_of_sexpr heq
    cases t' with
    | name name' =>
        obtain rfl := SExpr.word_inj heq
        exact .name name
    | _ => cases hkind
  case pointer =>
    intro elem helem h t' h' heq
    have hkind := TypeSpec.kind_eq_of_sexpr heq
    cases t' with
    | pointer elem' =>
        simp only [TypeSpec.sexpr, SExpr.list.injEq, List.cons.injEq, and_true, true_and] at heq
        exact .pointer (helem h _ h' heq)
    | _ => cases hkind
  case array =>
    intro elem size helem hsize h t' h' heq
    have hkind := TypeSpec.kind_eq_of_sexpr heq
    cases t' with
    | array elem' size' =>
        simp only [TypeSpec.wellNamed, Bool.and_eq_true] at h h'
        simp only [TypeSpec.sexpr, SExpr.list.injEq, List.cons.injEq, and_true, true_and] at heq
        exact .array (helem h.1 _ h'.1 heq.1) (hsize h.2 _ h'.2 heq.2)
    | _ => cases hkind
  case function =>
    intro args ret hargs hret h t' h' heq
    have hkind := TypeSpec.kind_eq_of_sexpr heq
    cases t' with
    | function args' ret' =>
        simp only [TypeSpec.wellNamed, Bool.and_eq_true, TypeSpec.wellNamedList_iff] at h h'
        simp only [TypeSpec.sexpr, TypeSpec.sexprs_eq_map, SExpr.list.injEq, List.cons.injEq,
          and_true, true_and] at heq
        refine .function (forall₂_of_map_eq ?_ heq.1) (hret h.2 _ h'.2 heq.2)
        exact fun a ha b hb => hargs a ha (h.1 a ha) b (h'.1 b hb)
    | _ => cases hkind

/-- Equal texts come from equal S-expressions, whose rendering is injective. -/
theorem sexpr_eq_of_text {a b : SExpr} {text text' : String} (ha : a.Solid) (hb : b.Solid)
    (htext : a.render = text.toList) (htext' : b.render = text'.toList) (heq : text = text') :
    a = b :=
  render_injective ha hb (by rw [htext, htext', heq])

/-- With at least one digit after the point, well-named trees with the same text are the same tree
up to float leaves with the same text. -/
theorem text_unambiguous (hp : 1 ≤ config.floatPrecision) :
    (∀ a b : Expr, a.wellNamed = true → b.wellNamed = true → a.text config = b.text config →
      a.Agree (SameText config) b) ∧
    ∀ t u : TypeSpec, t.wellNamed = true → u.wellNamed = true → t.text config = u.text config →
      t.Agree (SameText config) u := by
  constructor
  · intro a b ha hb heq
    refine (Node.agree_of_sexpr hp).1 a ha b hb (sexpr_eq_of_text ?_ ?_ ?_ ?_ heq)
    · exact Node.solid_sexpr.1 a ha
    · exact Node.solid_sexpr.1 b hb
    · exact (Node.render_sexpr config).1 a
    · exact (Node.render_sexpr config).1 b
  · intro t u ht hu heq
    refine (Node.agree_of_sexpr hp).2 t ht u hu (sexpr_eq_of_text ?_ ?_ ?_ ?_ heq)
    · exact Node.solid_sexpr.2 t ht
    · exact Node.solid_sexpr.2 u hu
    · exact (Node.render_sexpr config).2 t
    · exact (Node.render_sexpr config).2 u

end Config

/-- One half and the number just below it have the same text with one digit after the point. -/
theorem text_unambiguous_half :
    Expr.Agree (SameText ⟨1⟩) (.call (.name "f") [.float ⟨0x3fe0000000000000⟩, .int 1])
      (.call (.name "f") [.float ⟨0x3fdfffffffffffff⟩, .int 1]) ∧
    TypeSpec.Agree (SameText ⟨1⟩) (.array (.name "int") (.float ⟨0x3fe0000000000000⟩))
      (.array (.name "int") (.float ⟨0x3fdfffffffffffff⟩)) :=
  ⟨(text_unambiguous (by decide)).1 _ _ (by decide) (by decide) (by decide +kernel),
    (text_unambiguous (by decide)).2 _ _ (by decide) (by decide) (by decide +kernel)⟩

end SyntaxTree
