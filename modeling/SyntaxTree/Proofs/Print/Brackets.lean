import Mathlib.Algebra.Ring.Nat
import Mathlib.Data.List.Chain
import SyntaxTree.Proofs.Print.Unambiguous

/-! # Brackets and spaces of the canonical text

Brackets pair up and items are separated by one space each, provided that the names are not empty
and neither names nor strings bring in brackets or spaces of their own. -/

namespace SyntaxTree

namespace Print

/-- A character that is neither a space nor a bracket. -/
def isInert (c : Char) : Bool := c != ' ' && c != '(' && c != ')'

theorem isInert_of_isSolid {c : Char} (h : SExpr.isSolid c = true) : isInert c = true := by
  simp only [SExpr.isSolid, Bool.and_eq_true] at h
  simp only [isInert, Bool.and_eq_true]
  exact h.1

theorem ne_of_isInert {c : Char} (h : isInert c = true) : c ≠ ' ' ∧ c ≠ '(' ∧ c ≠ ')' := by
  simp only [isInert, Bool.and_eq_true, bne_iff_ne] at h
  exact ⟨h.1.1, h.1.2, h.2⟩

/-! ## Brackets -/

/-- As many opening as closing brackets, and every closing bracket behind the one it answers. -/
structure Nested (pairs : Nat) (text : List Char) : Prop where
  opens : text.count '(' = pairs
  closes : text.count ')' = pairs
  front_le : ∀ front, front <+: text → front.count ')' ≤ front.count '('

/-- The first bracket is the first sign, and it is not answered before the end. -/
def Enclosed (text : List Char) : Prop :=
  ∀ front, front <+: text → front ≠ [] → front ≠ text → front.count ')' < front.count '('

theorem nested_of_notMem {text : List Char} (hopen : '(' ∉ text) (hclose : ')' ∉ text) :
    Nested 0 text where
  opens := List.count_eq_zero.2 hopen
  closes := List.count_eq_zero.2 hclose
  front_le front hfront := by
    rw [List.count_eq_zero.2 fun hc => hclose (hfront.subset hc)]
    exact Nat.zero_le _

theorem nested_of_inert {text : List Char} (h : ∀ c ∈ text, isInert c = true) :
    Nested 0 text :=
  nested_of_notMem (fun hc => (ne_of_isInert (h _ hc)).2.1 rfl)
    fun hc => (ne_of_isInert (h _ hc)).2.2 rfl

/-- Pairs of two texts add up, and no closing bracket of the second answers one of the first. -/
theorem Nested.append {m n : Nat} {text text' : List Char} (h : Nested m text)
    (h' : Nested n text') : Nested (m + n) (text ++ text') where
  opens := by rw [List.count_append, h.opens, h'.opens]
  closes := by rw [List.count_append, h.closes, h'.closes]
  front_le front hfront := by
    -- A front ends within the first text or holds all of it, which adds no open brackets.
    rcases List.prefix_or_prefix_of_prefix hfront (List.prefix_append text text') with
      hshort | ⟨rest, rfl⟩
    · exact h.front_le front hshort
    · have hrest := h'.front_le rest ((List.prefix_append_right_inj text).1 hfront)
      rw [List.count_append, List.count_append, h.closes, h.opens]
      exact Nat.add_le_add_left hrest m

/-- In front of a closing bracket the opening one in front is not answered. -/
theorem Nested.front_of_enclose {n : Nat} {text front : List Char} (h : Nested n text)
    (hfront : front <+: '(' :: (text ++ [')'])) :
    front = [] ∨ front = '(' :: (text ++ [')']) ∨ front.count ')' < front.count '(' := by
  rcases List.prefix_cons_iff.1 hfront with rfl | ⟨rest, rfl, hrest⟩
  · exact .inl rfl
  · rcases List.prefix_concat_iff.1 hrest with rfl | hrest
    · exact .inr (.inl rfl)
    · have hle := h.front_le rest hrest
      refine .inr (.inr ?_)
      rw [List.count_cons_of_ne (by decide), List.count_cons_self]
      exact Nat.lt_succ_of_le hle

/-- Around a nested text, a pair of brackets is not answered early. -/
theorem Nested.enclosed {n : Nat} {text : List Char} (h : Nested n text) :
    Enclosed ('(' :: (text ++ [')'])) := by
  intro front hfront hne hproper
  rcases h.front_of_enclose hfront with rfl | rfl | hlt
  · exact absurd rfl hne
  · exact absurd rfl hproper
  · exact hlt

theorem Nested.enclose {n : Nat} {text : List Char} (h : Nested n text) :
    Nested (n + 1) ('(' :: (text ++ [')'])) := by
  have hopens : ('(' :: (text ++ [')'])).count '(' = n + 1 := by
    rw [List.count_cons_self, List.count_append, h.opens]
    rfl
  have hcloses : ('(' :: (text ++ [')'])).count ')' = n + 1 := by
    rw [List.count_cons_of_ne (by decide), List.count_append, h.closes]
    rfl
  refine ⟨hopens, hcloses, fun front hfront => ?_⟩
  rcases h.front_of_enclose hfront with rfl | rfl | hlt
  · exact Nat.le_refl _
  · exact Nat.le_of_eq (hcloses.trans hopens.symm)
  · exact hlt.le

/-- The brackets of items with spaces between them are those of the items. -/
theorem nested_intercalate {α : Type} {render : α → List Char} {pairs : α → Nat} {items : List α}
    (h : ∀ item ∈ items, Nested (pairs item) (render item)) :
    Nested (items.map pairs).sum ([' '].intercalate (items.map render)) := by
  have hspace : Nested 0 [' '] := nested_of_notMem (by decide) (by decide)
  induction items with
  | nil => exact nested_of_notMem (by simp) (by simp)
  | cons first rest ih =>
      obtain ⟨hfirst, hrest⟩ := List.forall_mem_cons.1 h
      cases rest with
      | nil => simpa using hfirst
      | cons second rest =>
          have happend := (hfirst.append hspace).append (ih hrest)
          simpa [List.intercalate_cons_cons] using happend

/-! ## Spaces -/

/-- What may stand side by side: a space is not behind a space or an opening bracket and not in
front of a closing one. -/
def Beside (c d : Char) : Prop := (d = ' ' → c ≠ ' ' ∧ c ≠ '(') ∧ (c = ' ' → d ≠ ')')

/-- Spaces only between items, and one at a time. -/
structure SinglySpaced (text : List Char) : Prop where
  head : text.head? ≠ some ' '
  last : text.getLast? ≠ some ' '
  double : ¬ [' ', ' '] <:+: text
  after_open : ¬ ['(', ' '] <:+: text
  before_close : ¬ [' ', ')'] <:+: text

/-- A text that may stand between spaces and brackets. -/
structure Item (text : List Char) : Prop where
  beside : text.IsChain Beside
  head : ∃ c ∈ text.head?, c ≠ ' ' ∧ c ≠ ')'
  last : ∃ c ∈ text.getLast?, c ≠ ' ' ∧ c ≠ '('

/-- What may stand between spaces has no double space and none at a bracket. -/
theorem Item.singlySpaced {text : List Char} (h : Item text) : SinglySpaced text := by
  have hpair {c d : Char} (hcd : [c, d] <:+: text) : Beside c d := by
    have hchain : [c, d].IsChain Beside := List.IsChain.infix h.beside hcd
    exact (List.isChain_cons_cons.1 hchain).1
  refine ⟨fun hhead => ?_, fun hlast => ?_, fun hcd => ?_, fun hcd => ?_, fun hcd => ?_⟩
  · obtain ⟨c, hc, hspace, -⟩ := h.head
    exact hspace (Option.mem_unique hc hhead)
  · obtain ⟨c, hc, hspace, -⟩ := h.last
    exact hspace (Option.mem_unique hc hlast)
  · exact ((hpair hcd).1 rfl).1 rfl
  · exact ((hpair hcd).1 rfl).2 rfl
  · exact (hpair hcd).2 rfl rfl

theorem item_of_inert {text : List Char} (hne : text ≠ []) (h : ∀ c ∈ text, isInert c = true) :
    Item text where
  beside := by
    refine (List.pairwise_of_forall_mem_list fun c hc d hd => ?_).isChain
    exact ⟨fun hspace => absurd hspace (ne_of_isInert (h d hd)).1,
      fun hspace => absurd hspace (ne_of_isInert (h c hc)).1⟩
  head := by
    obtain ⟨hspace, -, hclose⟩ := ne_of_isInert (h _ (List.head_mem hne))
    exact ⟨_, List.head?_eq_some_head hne, hspace, hclose⟩
  last := by
    obtain ⟨hspace, hopen, -⟩ := ne_of_isInert (h _ (List.getLast_mem hne))
    exact ⟨_, List.getLast?_eq_some_getLast hne, hspace, hopen⟩

theorem Item.append_space {text text' : List Char} (h : Item text) (h' : Item text') :
    Item (text ++ ' ' :: text') := by
  obtain ⟨c, hc, hcspace, hcopen⟩ := h.last
  obtain ⟨d, hd, hdspace, hdclose⟩ := h'.head
  have hafter : (' ' :: text').IsChain Beside := by
    refine List.isChain_cons.2 ⟨fun d' hd' => ?_, h'.beside⟩
    obtain rfl := Option.mem_unique hd hd'
    exact ⟨fun hspace => absurd hspace hdspace, fun _ => hdclose⟩
  have hjoint : ∀ c' ∈ text.getLast?, ∀ d' ∈ (' ' :: text').head?, Beside c' d' := by
    intro c' hc' d' hd'
    obtain rfl := Option.mem_unique hc hc'
    obtain rfl := Option.some.inj hd'
    exact ⟨fun _ => ⟨hcspace, hcopen⟩, fun hspace => absurd hspace hcspace⟩
  refine ⟨List.isChain_append.2 ⟨h.beside, hafter, hjoint⟩, ?_, ?_⟩
  · obtain ⟨e, he, hes⟩ := h.head
    exact ⟨e, List.mem_head?_append_of_mem_head? he, hes⟩
  · obtain ⟨e, he, hes⟩ := h'.last
    exact ⟨e, List.mem_getLast?_append_of_mem_getLast? (List.mem_getLast?_cons he), hes⟩

theorem item_intercalate {texts : List (List Char)} (hne : texts ≠ [])
    (h : ∀ text ∈ texts, Item text) : Item ([' '].intercalate texts) := by
  induction texts with
  | nil => exact absurd rfl hne
  | cons first rest ih =>
      obtain ⟨hfirst, hrest⟩ := List.forall_mem_cons.1 h
      cases rest with
      | nil => simpa using hfirst
      | cons second rest =>
          have happend := hfirst.append_space (ih (by simp) hrest)
          simpa [List.intercalate_cons_cons] using happend

theorem Item.enclose {text : List Char} (h : Item text) : Item ('(' :: (text ++ [')'])) where
  beside := by
    have hlast : ∀ c ∈ text.getLast?, ∀ d ∈ [')'].head?, Beside c d := by
      intro c hc d hd
      obtain ⟨c', hc', hspace, -⟩ := h.last
      obtain rfl := Option.mem_unique hc hc'
      obtain rfl := Option.some.inj hd
      exact ⟨fun heq => absurd heq (by decide), fun heq => absurd heq hspace⟩
    have hhead : ∀ d ∈ (text ++ [')']).head?, Beside '(' d := by
      intro d hd
      obtain ⟨d', hd', hspace, -⟩ := h.head
      obtain rfl := Option.mem_unique hd (List.mem_head?_append_of_mem_head? hd')
      exact ⟨fun heq => absurd heq hspace, fun heq => absurd heq (by decide)⟩
    exact List.isChain_cons.2 ⟨hhead,
      List.isChain_append.2 ⟨h.beside, List.isChain_singleton _, hlast⟩⟩
  head := ⟨'(', rfl, by decide, by decide⟩
  last := ⟨')', List.mem_getLast?_cons (List.mem_getLast?_append_of_mem_getLast? rfl), by decide,
    by decide⟩

theorem item_brackets : Item ['(', ')'] :=
  ⟨List.isChain_pair.2 ⟨by decide, by decide⟩, ⟨'(', rfl, by decide, by decide⟩,
    ⟨')', rfl, by decide, by decide⟩⟩

end Print

open Print
open SExpr (word)

/-! ## Symbolic expressions -/

namespace SExpr

mutual

/-- The number of lists. -/
def pairs : SExpr → Nat
  | .atom _ | .str _ => 0
  | .list items => 1 + pairsOfItems items

/-- The pairs of the items together. -/
def pairsOfItems : List SExpr → Nat
  | [] => 0
  | item :: rest => item.pairs + pairsOfItems rest

end

@[simp] theorem pairsOfItems_eq_sum (items : List SExpr) :
    pairsOfItems items = (items.map pairs).sum := by
  induction items with
  | nil => rfl
  | cons item rest ih => rw [pairsOfItems, ih, List.map_cons, List.sum_cons]

/-- The words are not empty, and neither words nor strings hold spaces or brackets. -/
inductive Inert : SExpr → Prop
  | atom {word : List Char} : word ≠ [] → (∀ c ∈ word, isInert c = true) → Inert (.atom word)
  | str {value : List Char} : (∀ c ∈ value, isInert c = true) → Inert (.str value)
  | list {items : List SExpr} : (∀ item ∈ items, Inert item) → Inert (.list items)

/-- The quotes around an inert string are no brackets and no spaces. -/
theorem Inert.quoted {value : List Char} (h : ∀ c ∈ value, isInert c = true) :
    ∀ c ∈ render (.str value), isInert c = true := by
  have hquote : isInert '"' = true := by decide
  simpa [render, or_imp, forall_and, hquote] using h

/-- The text of an S-expression is nested with one pair for every list in it, by induction on the
expression. -/
theorem Inert.nested {e : SExpr} (h : e.Inert) : Nested e.pairs e.render := by
  induction h with
  | atom hne hinert => exact nested_of_inert hinert
  | str hinert => exact nested_of_inert (Inert.quoted hinert)
  | @list items hitems ih =>
      have hbrackets := (nested_intercalate ih).enclose
      rwa [← renderItems_eq_intercalate, ← pairsOfItems_eq_sum, Nat.add_comm] at hbrackets

/-- The text of a list is enclosed in the brackets of the list. -/
theorem Inert.enclosed {items : List SExpr} (h : (SExpr.list items).Inert) :
    Enclosed (render (.list items)) := by
  cases h with
  | list hitems =>
      have hnested := nested_intercalate fun item hitem => (hitems item hitem).nested
      rw [← renderItems_eq_intercalate] at hnested
      exact hnested.enclosed

/-- The text of an S-expression is singly spaced, by the same induction. -/
theorem Inert.item {e : SExpr} (h : e.Inert) : Item e.render := by
  induction h with
  | atom hne hinert => exact item_of_inert hne hinert
  | str hinert => exact item_of_inert (by simp [render]) (Inert.quoted hinert)
  | @list items hitems ih =>
      rw [render, renderItems_eq_intercalate]
      cases items with
      | nil => exact item_brackets
      | cons first rest =>
          exact (item_intercalate (by simp) (List.forall_mem_map.2 ih)).enclose

end SExpr

/-! ## Trees -/

/-- A name that is not empty and holds no spaces and no brackets. -/
def isInertName (name : String) : Bool := !name.toList.isEmpty && name.toList.all isInert

mutual

/-- Names are not empty, and neither names nor strings hold spaces or brackets. -/
def Expr.inert : Expr → Bool
  | .int _ | .float _ | .compound => true
  | .str value => value.toList.all isInert
  | .name name => isInertName name
  | .cast ty expr => ty.inert && expr.inert
  | .call callee args => callee.inert && Expr.inertList args
  | .index expr index => expr.inert && index.inert
  | .field expr name => expr.inert && isInertName name
  | .unary _ expr => expr.inert
  | .binary _ left right => left.inert && right.inert
  | .ternary cond thenExpr elseExpr => cond.inert && thenExpr.inert && elseExpr.inert

def Expr.inertList : List Expr → Bool
  | [] => true
  | expr :: rest => expr.inert && Expr.inertList rest

/-- Names are not empty, and neither names nor strings hold spaces or brackets. -/
def TypeSpec.inert : TypeSpec → Bool
  | .name name => isInertName name
  | .pointer elem => elem.inert
  | .array elem size => elem.inert && size.inert
  | .function args ret => TypeSpec.inertList args && ret.inert

def TypeSpec.inertList : List TypeSpec → Bool
  | [] => true
  | ty :: rest => ty.inert && TypeSpec.inertList rest

end

mutual

/-- The pairs of brackets: one for every node that is no leaf, and a second one for the parameters
of a function type. -/
def Expr.brackets : Expr → Nat
  | .int _ | .float _ | .str _ | .name _ => 0
  | .cast ty expr => 1 + ty.brackets + expr.brackets
  | .call callee args => 1 + callee.brackets + Expr.bracketsList args
  | .index expr index => 1 + expr.brackets + index.brackets
  | .field expr _ => 1 + expr.brackets
  | .unary _ expr => 1 + expr.brackets
  | .binary _ left right => 1 + left.brackets + right.brackets
  | .ternary cond thenExpr elseExpr =>
    1 + cond.brackets + thenExpr.brackets + elseExpr.brackets
  | .compound => 1

def Expr.bracketsList : List Expr → Nat
  | [] => 0
  | expr :: rest => expr.brackets + Expr.bracketsList rest

/-- The pairs of brackets that a type expression is printed with; a function has a second pair
around the argument types. -/
def TypeSpec.brackets : TypeSpec → Nat
  | .name _ => 0
  | .pointer elem => 1 + elem.brackets
  | .array elem size => 1 + elem.brackets + size.brackets
  | .function args ret => 2 + TypeSpec.bracketsList args + ret.brackets

def TypeSpec.bracketsList : List TypeSpec → Nat
  | [] => 0
  | ty :: rest => ty.brackets + TypeSpec.bracketsList rest

end

@[simp] theorem Expr.inertList_iff {exprs : List Expr} :
    Expr.inertList exprs = true ↔ ∀ e ∈ exprs, e.inert = true := by
  induction exprs with
  | nil => simp [Expr.inertList]
  | cons e rest ih => rw [Expr.inertList, Bool.and_eq_true, ih, List.forall_mem_cons]

@[simp] theorem TypeSpec.inertList_iff {types : List TypeSpec} :
    TypeSpec.inertList types = true ↔ ∀ t ∈ types, t.inert = true := by
  induction types with
  | nil => simp [TypeSpec.inertList]
  | cons t rest ih => rw [TypeSpec.inertList, Bool.and_eq_true, ih, List.forall_mem_cons]

@[simp] theorem Expr.bracketsList_eq_sum (exprs : List Expr) :
    Expr.bracketsList exprs = (exprs.map Expr.brackets).sum := by
  induction exprs with
  | nil => rfl
  | cons e rest ih => rw [Expr.bracketsList, ih, List.map_cons, List.sum_cons]

@[simp] theorem TypeSpec.bracketsList_eq_sum (types : List TypeSpec) :
    TypeSpec.bracketsList types = (types.map TypeSpec.brackets).sum := by
  induction types with
  | nil => rfl
  | cons t rest ih => rw [TypeSpec.bracketsList, ih, List.map_cons, List.sum_cons]

section Config

variable (config : PrintConfig)

/-- The symbolic expression of a tree has a list for every pair of brackets. -/
theorem Node.pairs_sexpr :
    (∀ e : Expr, (e.sexpr config).pairs = e.brackets) ∧
      ∀ t : TypeSpec, (t.sexpr config).pairs = t.brackets := by
  refine Node.induction ?int ?float ?str ?name ?cast ?call ?index ?field ?unary ?binary ?ternary
    ?compound ?typeName ?pointer ?array ?function
  case call =>
    intro callee args hcallee hargs
    have hlist : args.map (SExpr.pairs ∘ Expr.sexpr config) = args.map Expr.brackets :=
      List.map_congr_left hargs
    simp [Expr.sexpr, Expr.brackets, SExpr.pairs, hcallee, hlist, Nat.add_assoc]
  case function =>
    intro args ret hargs hret
    have hlist : args.map (SExpr.pairs ∘ TypeSpec.sexpr config) = args.map TypeSpec.brackets :=
      List.map_congr_left hargs
    simp [TypeSpec.sexpr, TypeSpec.brackets, SExpr.word, SExpr.pairs, hret, hlist]
    omega
  all_goals
    intros
    simp_all [Expr.sexpr, Expr.brackets, TypeSpec.sexpr, TypeSpec.brackets, SExpr.word,
      SExpr.pairs, Nat.add_assoc]

theorem SExpr.Solid.inert_word {text : String} (h : (word text).Solid) : (word text).Inert := by
  cases h with
  | atom hne hsolid => exact .atom hne fun c hc => isInert_of_isSolid (hsolid c hc)

theorem inert_of_isInertName {name : String} (h : isInertName name = true) :
    (word name).Inert := by
  simp only [isInertName, Bool.and_eq_true, Bool.not_eq_true', List.isEmpty_eq_false_iff,
    List.all_eq_true] at h
  exact .atom h.1 h.2

/-- The S-expression of a tree with inert names and strings is inert, by induction on the tree. -/
theorem Node.inert_sexpr :
    (∀ e : Expr, e.inert = true → (e.sexpr config).Inert) ∧
      ∀ t : TypeSpec, t.inert = true → (t.sexpr config).Inert := by
  have form {text : String} {items : List SExpr} (htext : text ∈ formWords)
      (hitems : ∀ item ∈ items, item.Inert) : (SExpr.list (word text :: items)).Inert :=
    .list (List.forall_mem_cons.2 ⟨(formWord_solid htext).inert_word, hitems⟩)
  refine Node.induction ?int ?float ?str ?name ?cast ?call ?index ?field ?unary ?binary ?ternary
    ?compound ?typeName ?pointer ?array ?function
  case int => exact fun value _ => (repr_solid value.toNat).inert_word
  case float => exact fun x _ => (floatText_solid config x).inert_word
  case str => exact fun value h => .str (List.all_eq_true.1 h)
  case name => exact fun name h => inert_of_isInertName h
  case cast =>
    intro ty expr hty hexpr h
    simp only [Expr.inert, Bool.and_eq_true] at h
    exact form (by decide) (by simp [hty h.1, hexpr h.2])
  case call =>
    intro callee args hcallee hargs h
    simp only [Expr.inert, Bool.and_eq_true, Expr.inertList_iff] at h
    refine .list (List.forall_mem_cons.2 ⟨hcallee h.1, ?_⟩)
    rw [Expr.sexprs_eq_map]
    exact List.forall_mem_map.2 fun arg harg => hargs arg harg (h.2 arg harg)
  case index =>
    intro expr index hexpr hindex h
    simp only [Expr.inert, Bool.and_eq_true] at h
    exact form (by decide) (by simp [hexpr h.1, hindex h.2])
  case field =>
    intro expr name hexpr h
    simp only [Expr.inert, Bool.and_eq_true] at h
    exact form (by decide) (by simp [hexpr h.1, inert_of_isInertName h.2])
  case unary =>
    intro op expr hexpr h
    have hop : (word op.symbol).Inert := (unarySymbol_solid op).inert_word
    exact .list (by simp [hop, hexpr h])
  case binary =>
    intro op left right hleft hright h
    simp only [Expr.inert, Bool.and_eq_true] at h
    have hop : (word op.symbol).Inert := (binarySymbol_solid op).inert_word
    exact .list (by simp [hop, hleft h.1, hright h.2])
  case ternary =>
    intro cond thenExpr elseExpr hcond hthen helse h
    simp only [Expr.inert, Bool.and_eq_true] at h
    exact form (by decide) (by simp [hcond h.1.1, hthen h.1.2, helse h.2])
  case compound =>
    have hdots : (word "...").Inert := (formWord_solid (by decide)).inert_word
    exact fun _ => form (by decide) (by simp [hdots])
  case typeName => exact fun name h => inert_of_isInertName h
  case pointer => exact fun elem helem h => form (by decide) (by simp [helem h])
  case array =>
    intro elem size helem hsize h
    simp only [TypeSpec.inert, Bool.and_eq_true] at h
    exact form (by decide) (by simp [helem h.1, hsize h.2])
  case function =>
    intro args ret hargs hret h
    simp only [TypeSpec.inert, Bool.and_eq_true, TypeSpec.inertList_iff] at h
    have hlist : (SExpr.list (args.map (TypeSpec.sexpr config))).Inert :=
      .list (List.forall_mem_map.2 fun arg harg => hargs arg harg (h.1 arg harg))
    exact form (by decide) (by simp [hlist, hret h.2])

namespace Node

/-- The condition on names and strings, on a tree of either sort. -/
def inert : Node → Bool
  | .expr e => e.inert
  | .typeSpec t => t.inert

/-- The pairs of brackets of a tree of either sort. -/
def brackets : Node → Nat
  | .expr e => e.brackets
  | .typeSpec t => t.brackets

/-- A number, a string or a name. -/
def isLeaf : Node → Bool
  | .expr (.int _) | .expr (.float _) | .expr (.str _) | .expr (.name _) => true
  | .typeSpec (.name _) => true
  | _ => false

def sexpr : Node → SExpr
  | .expr e => e.sexpr config
  | .typeSpec t => t.sexpr config

/-- The text of a tree is that of its S-expression. -/
theorem toList_text (node : Node) : (node.text config).toList = (node.sexpr config).render := by
  cases node with
  | expr e => exact ((Node.render_sexpr config).1 e).symm
  | typeSpec t => exact ((Node.render_sexpr config).2 t).symm

/-- Every node that is no leaf is written as a list. -/
theorem sexpr_eq_list {node : Node} (h : node.isLeaf = false) :
    ∃ items, node.sexpr config = .list items := by
  rcases node with e | t
  · cases e <;> first | exact ⟨_, rfl⟩ | cases h
  · cases t <;> first | exact ⟨_, rfl⟩ | cases h

end Node

/-- The brackets of a text pair up, one pair for each node that is no leaf and one more for each
function type, and the first pair encloses the text of such a node. Spaces stand only between items,
one at a time. -/
theorem text_bracketed_and_spaced {node : Node} (h : node.inert = true) :
    Nested node.brackets (node.text config).toList ∧
      (node.isLeaf = false → Enclosed (node.text config).toList) ∧
      SinglySpaced (node.text config).toList := by
  have hinert : (node.sexpr config).Inert := by
    cases node with
    | expr e => exact (Node.inert_sexpr config).1 e h
    | typeSpec t => exact (Node.inert_sexpr config).2 t h
  have hpairs : (node.sexpr config).pairs = node.brackets := by
    cases node with
    | expr e => exact (Node.pairs_sexpr config).1 e
    | typeSpec t => exact (Node.pairs_sexpr config).2 t
  rw [Node.toList_text]
  refine ⟨hpairs ▸ hinert.nested, fun hleaf => ?_, hinert.item.singlySpaced⟩
  obtain ⟨items, hitems⟩ := Node.sexpr_eq_list config hleaf
  rw [hitems] at hinert ⊢
  exact hinert.enclosed

end Config

/-- A call without arguments whose callee is a cast to a function type without parameters. -/
theorem text_bracketed_and_spaced_call :
    let node : Node := .expr (.call (.cast (.function [] (.name "int")) (.name "f")) [])
    node.inert = true ∧ node.isLeaf = false ∧ Nested 4 (node.text .default).toList ∧
      Enclosed (node.text .default).toList ∧ SinglySpaced (node.text .default).toList := by
  intro node
  have hinert : node.inert = true := by decide
  have hleaf : node.isLeaf = false := rfl
  obtain ⟨hnested, henclosed, hspaced⟩ := text_bracketed_and_spaced .default hinert
  exact ⟨hinert, hleaf, hnested, henclosed hleaf, hspaced⟩

end SyntaxTree
