import SyntaxTree.Proofs.Json.Denotation
import SyntaxTree.Proofs.Json.Position
import SyntaxTree.Proofs.Json.ValueLookahead

/-! # What a refusal depends on

Records and variants look no further than they reach, and so do nodes of any depth. A text that is
refused at some place is therefore refused alike whatever stands after that place. -/

namespace SyntaxTree

namespace Json

open Text (Cursor)
open Text.Cursor (Shares)
open Reader

variable {α β : Type}

/-! ## Records -/

/-- The readers of the fields, one by one. -/
inductive LocalFields (n n' : Nat) : {types : List Type} → Fields types → Fields types → Prop
  | nil : LocalFields n n' .nil .nil
  | cons {α : Type} {types : List Type} {name : String} {absent : Option α} {read read' : Reader α}
      {rest rest' : Fields types} (hread : Local n n' read read')
      (hrest : LocalFields n n' rest rest') :
      LocalFields n n' (.cons name absent read rest) (.cons name absent read' rest')

namespace LocalFields

variable {n n' : Nat} {types : List Type} {fields fields' : Fields types}

theorem names_eq (h : LocalFields n n' fields fields') : fields'.names = fields.names := by
  induction h with
  | nil => rfl
  | cons _ _ ih => rw [Fields.names, Fields.names, ih]

theorem noSlots_eq (h : LocalFields n n' fields fields') : fields'.noSlots = fields.noSlots := by
  induction h with
  | nil => rfl
  | cons _ _ ih => rw [Fields.noSlots, Fields.noSlots, ih]

/-- Fields in their order are read one after another, each after a comma. -/
theorem inOrder (h : LocalFields n n' fields fields') (expected : String) (index : Nat) :
    Local n n' (fields.inOrder expected index) (fields'.inOrder expected index) := by
  induction h generalizing index with
  | nil => exact steady_pure _ _ _
  | @cons _ _ _ absent _ _ _ _ hread _ ih =>
      refine (steady_nextElement _ _ _).bind fun more => ?_
      split
      · exact hread.bind fun _ => (ih (index + 1)).bind fun _ => steady_pure _ _ _
      · cases absent with
        | none => exact steady_failShape _ _ _
        | some value => exact (ih (index + 1)).bind fun _ => steady_pure _ _ _

theorem store? (h : LocalFields n n' fields fields') (slots : Slots types) (key : String) :
    Option.Rel (Local n n') (fields.store? slots key) (fields'.store? slots key) := by
  induction h with
  | nil => exact .none
  | @cons _ _ name _ _ _ rest rest' hread _ ih =>
      obtain ⟨slot, slots⟩ := slots
      simp only [Fields.store?]
      by_cases hkey : key = name
      · rw [if_pos hkey, if_pos hkey]
        cases slot with
        | some _ => exact .some (steady_failShape _ _ _)
        | none =>
            refine .some ((steady_colon _ _).bind fun _ => hread.bind fun value => ?_)
            exact steady_pure _ _ _
      · rw [if_neg hkey, if_neg hkey]
        have hrest := ih slots
        generalize rest.store? slots key = r, rest'.store? slots key = r' at hrest
        cases hrest with
        | none => exact .none
        | some h => exact .some (h.bind fun slots => steady_pure _ _ _)

/-- An entry of an object stores a field or passes over its value. -/
theorem entry (h : LocalFields n n' fields fields') (unknown : UnknownKeys) (slots : Slots types)
    (key : String) :
    Local n n' (fields.entry unknown slots key) (fields'.entry unknown slots key) := by
  have hstore := h.store? slots key
  unfold Fields.entry
  rw [h.names_eq]
  generalize fields.store? slots key = r, fields'.store? slots key = r' at hstore
  cases hstore with
  | some h => exact h
  | none =>
      cases unknown with
      | skipped =>
          refine (steady_colon _ _).bind fun _ => (steady_skipValue _ _).bind fun _ => ?_
          exact steady_pure _ _ _
      | refused => exact steady_failShape _ _ _

/-- What is missing does not depend on how the fields are read. -/
theorem complete_eq (h : LocalFields n n' fields fields') (slots : Slots types) :
    fields'.complete slots = fields.complete slots := by
  induction h with
  | nil => rfl
  | cons _ _ ih =>
      obtain ⟨slot, slots⟩ := slots
      rw [Fields.complete, Fields.complete, ih]

end LocalFields

theorem steady_complete {types : List Type} (fields : Fields types) (slots : Slots types) :
    Steady (fields.complete slots) := by
  induction fields with
  | nil => exact steady_pure ()
  | cons name absent read rest ih =>
      obtain ⟨slot, slots⟩ := slots
      rw [Fields.complete]
      split
      · exact (ih slots).bind fun _ => steady_pure _
      · exact steady_failShape _

/-- A record is read by its order or by its keys, which the opening bracket tells. -/
theorem LocalFields.record {n n' : Nat} {types : List Type} {fields fields' : Fields types}
    (h : LocalFields n n' fields fields') (typeName lengthName : String) (unknown : UnknownKeys) :
    Local n n' (record typeName lengthName fields unknown)
      (record typeName lengthName fields' unknown) := by
  refine .valueStart_bind ⟨wrongType typeName, fun x hx => ?_⟩ fun x => ?_
  · simp [ne_of_high hx]
  · split
    · refine (steady_advance _ _).bind fun _ => ?_
      exact (h.inOrder lengthName 0).enclosed ends_closeList
    · refine (steady_advance _ _).bind fun _ => ?_
      rw [h.noSlots_eq, funext h.complete_eq]
      exact .objectOf (h.entry unknown) (steady_complete fields) _
    · exact steady_wrongType _ _ _

/-! ## Variants -/

/-- What the two contents read, for variants of the same sort. -/
inductive LocalContents (n n' : Nat) : Contents α → Contents α → Prop
  | none (a : α) : LocalContents n n' (.none a) (.none a)
  | value {r r' : Reader α} (h : Local n n' r r') : LocalContents n n' (.value r) (.value r')
  | record {r r' : Reader α} (h : Local n n' r r') : LocalContents n n' (.record r) (.record r')

/-- Two variants of the same name whose contents look equally far. -/
structure LocalVariant (n n' : Nat) (variant variant' : Variant α) : Prop where
  name_eq : variant'.name = variant.name
  contents : LocalContents n n' variant.contents variant'.contents

section Variants

variable {n n' : Nat} {variants variants' : List (Variant α)}

theorem names_of_forall₂ (h : List.Forall₂ (LocalVariant n n') variants variants') :
    variants'.map (·.name) = variants.map (·.name) := by
  induction h with
  | nil => rfl
  | cons h _ ih => rw [List.map_cons, List.map_cons, h.name_eq, ih]

theorem find_of_forall₂ (h : List.Forall₂ (LocalVariant n n') variants variants') (name : String) :
    Option.Rel (LocalVariant n n') (variants.find? (·.name == name))
      (variants'.find? (·.name == name)) := by
  induction h with
  | nil => exact .none
  | @cons variant variant' _ _ h _ ih =>
      rw [List.find?_cons, List.find?_cons, h.name_eq]
      cases variant.name == name with
      | true => exact .some h
      | false => exact ih

/-- The name of a variant, without what stands beside it. -/
def knownName (names : List String) : Reader String := located do
  let name ← string
  if name ∈ names then pure name else failShape (.unknownVariant name names)

theorem steady_knownName (names : List String) : Steady (knownName names) := by
  refine (steady_string.bind fun name => ?_).located
  split
  · exact steady_pure _
  · exact steady_failShape _

/-- The name decides by itself whether it is taken. -/
theorem variantName_bind (variants : List (Variant α)) (f : Contents α → Reader β) :
    (variantName variants >>= f) = knownName (variants.map (·.name)) >>= fun name =>
      match variants.find? (·.name == name) with
      | some variant => f variant.contents
      | none => failShape (.unknownVariant name (variants.map (·.name))) := by
  funext c
  change (variantName variants >>= f).on c = Reader.on _ c
  rw [on_bind, on_bind, variantName, knownName, on_located, on_located, on_bind, on_bind]
  rcases string.on c with ⟨fault | name, m⟩
  · rfl
  · dsimp only
    cases hfind : variants.find? (·.name == name) with
    | some variant =>
        have hname := List.find?_some hfind
        have hmem : name ∈ variants.map (·.name) :=
          List.mem_map.2 ⟨variant, List.mem_of_find?_eq_some hfind, beq_iff_eq.1 hname⟩
        rw [if_pos hmem]
        dsimp only [on_pure, locate, mapError_ok]
        rw [hfind]
    | none =>
        have hmem : name ∉ variants.map (·.name) := by
          simpa using hfind
        rw [if_neg hmem]
        rfl

/-- The name of a variant is a string, and what it names is looked up without looking on. -/
theorem Local.variantName_bind {k k' : Nat}
    (h : List.Forall₂ (LocalVariant n n') variants variants') {f f' : Contents α → Reader β}
    (hf : ∀ contents contents', LocalContents n n' contents contents' →
      Local k k' (f contents) (f' contents')) :
    Local k k' (variantName variants >>= f) (variantName variants' >>= f') := by
  rw [Json.variantName_bind, Json.variantName_bind, names_of_forall₂ h]
  refine (steady_knownName _ _ _).bind fun name => ?_
  have hfind := find_of_forall₂ h name
  generalize variants.find? (·.name == name) = v, variants'.find? (·.name == name) = v' at hfind
  cases hfind with
  | none => exact steady_failShape _ _ _
  | some hvariant => exact hf _ _ hvariant.contents

theorem LocalContents.reader {contents contents' : Contents α}
    (h : LocalContents n n' contents contents') : Local n n' contents.reader contents'.reader := by
  cases h with
  | none a => exact (steady_null _ _).bind fun _ => steady_pure a _ _
  | value h => exact h
  | record h => exact h

/-- A choice is one level of nesting above its variants. -/
theorem Local.oneOf (h : List.Forall₂ (LocalVariant n n') variants variants') :
    Local (n + 1) (n' + 1) (oneOf variants) (oneOf variants') := by
  refine .valueStart_bind ⟨failAhead .expectedValue, fun x hx => ?_⟩ fun x => ?_
  · simp [ne_of_high hx]
  · split
    · refine (steady_advance _ _).bind_consumes consumes_advance consumes_advance fun _ => ?_
      refine (steady_skipBlanks _ _).bind fun _ => ?_
      refine .peek_bind ⟨failAhead .keyNotString, fun x hx => ?_⟩ fun next => ?_
      · simp [ne_of_high hx]
      · split
        · refine .variantName_bind h fun contents contents' hcontents => ?_
          refine (steady_colon _ _).bind fun _ => hcontents.reader.bind fun value => ?_
          exact (steady_closeVariant _ _).bind fun _ => steady_pure value _ _
        · exact steady_failAhead _ _ _
        · exact steady_failAhead _ _ _
        · exact steady_failAhead _ _ _
    · refine .variantName_bind h fun contents contents' hcontents => ?_
      cases hcontents with
      | none value => exact steady_pure value _ _
      | value _ => exact steady_failShape _ _ _
      | record _ => exact steady_failShape _ _ _
    · exact steady_failAhead _ _ _

end Variants

/-! ## Nodes -/

section Nodes

variable {n n' : Nat} {parts parts' : NodeReaders}

theorem steady_operator (all : List α) (name : α → String) : Steady (operator all name) := by
  intro n n'
  have hvariants : ∀ all : List α, List.Forall₂ (LocalVariant n n')
      (all.map fun op => ⟨name op, .none op⟩) (all.map fun op => ⟨name op, .none op⟩) := by
    intro all
    induction all with
    | nil => exact .nil
    | cons op all ih => exact .cons ⟨rfl, .none op⟩ ih
  exact (Local.oneOf (hvariants all)).mono (Nat.le_succ n) (Nat.le_succ n')

theorem localVariant_value {r r' : Reader α} (h : Local n n' r r') (name : String) :
    LocalVariant n n' ⟨name, .value r⟩ ⟨name, .value r'⟩ := ⟨rfl, .value h⟩

/-- A variant with fields looks as far as the fields do. -/
theorem localVariant_fielded {types : List Type} {fields fields' : Fields types}
    (h : LocalFields n n' fields fields') (typeName name : String) (build : Values types → α) :
    LocalVariant n n' (fielded typeName name fields build)
      (fielded typeName name fields' build) := by
  refine ⟨rfl, ?_⟩
  unfold fielded
  rw [h.names_eq]
  exact .record ((h.record _ _ _).map build)

theorem localFields_field {α : Type} {types : List Type} {r r' : Reader α}
    {rest rest' : Fields types} (name : String) (h : Local n n' r r')
    (hrest : LocalFields n n' rest rest') :
    LocalFields n n' (Fields.field name r rest) (Fields.field name r' rest') := .cons h hrest

variable (he : Local n n' parts.expr parts'.expr)
  (ht : Local n n' parts.typeSpec parts'.typeSpec)

include he ht

theorem local_exprVariants (hc : Consumes parts.expr) (hc' : Consumes parts'.expr) :
    List.Forall₂ (LocalVariant n n') (exprVariants parts) (exprVariants parts') := by
  have htext : Local n n' text text := steady_text _ _
  unfold exprVariants
  refine .cons (localVariant_value ((steady_natural _ _ _).map _) _) ?_
  refine .cons (localVariant_value ((steady_float _ _).map _) _) ?_
  refine .cons (localVariant_value (htext.map _) _) ?_
  refine .cons (localVariant_value (htext.map _) _) ?_
  refine .cons (localVariant_fielded
    (localFields_field _ ht <| localFields_field _ he .nil) _ _ _) ?_
  refine .cons (localVariant_fielded
    (localFields_field _ he <| localFields_field _ (he.list hc hc') .nil) _ _ _) ?_
  refine .cons (localVariant_fielded
    (localFields_field _ he <| localFields_field _ he .nil) _ _ _) ?_
  refine .cons (localVariant_fielded
    (localFields_field _ he <| localFields_field _ htext .nil) _ _ _) ?_
  refine .cons (localVariant_fielded
    (localFields_field _ (steady_operator _ _ _ _) <| localFields_field _ he .nil) _ _ _) ?_
  refine .cons (localVariant_fielded
    (localFields_field _ (steady_operator _ _ _ _) <|
      localFields_field _ he <| localFields_field _ he .nil) _ _ _) ?_
  refine .cons (localVariant_fielded
    (localFields_field _ he <| localFields_field _ he <| localFields_field _ he .nil) _ _ _) ?_
  exact .cons ⟨rfl, .none _⟩ .nil

theorem local_typeSpecVariants (hc : Consumes parts.typeSpec) (hc' : Consumes parts'.typeSpec) :
    List.Forall₂ (LocalVariant n n') (typeSpecVariants parts) (typeSpecVariants parts') := by
  unfold typeSpecVariants
  refine .cons (localVariant_value ((steady_text _ _).map _) _) ?_
  refine .cons (localVariant_fielded (localFields_field _ ht .nil) _ _ _) ?_
  refine .cons (localVariant_fielded
    (localFields_field _ ht <| localFields_field _ he .nil) _ _ _) ?_
  refine .cons (localVariant_fielded
    (localFields_field _ (ht.list hc hc') <| localFields_field _ ht .nil) _ _ _) ?_
  exact .nil

end Nodes

/-- A reader of a grammar takes a character, because no text of the grammar is empty. -/
theorem Accepts.consumes {n : Nat} {r : Reader α} {L : List Char → α → Prop}
    (h : Accepts n r L) : Consumes r := by
  intro c a d hread _
  obtain ⟨p, hp, hc⟩ := h.sound hread
  obtain ⟨x, rest, rfl, -⟩ := h.opens hp
  exact hc.length_lt

/-- The nodes of one bound, against those of another. -/
def LocalNodes (n n' : Nat) : Prop :=
  Local n n' (exprWithin n) (exprWithin n') ∧ Local n n' (typeSpecWithin n) (typeSpecWithin n')

/-- One level of nesting. -/
theorem LocalNodes.succ {n n' : Nat} (h : LocalNodes n n') : LocalNodes (n + 1) (n' + 1) := by
  obtain ⟨he, ht⟩ := h
  obtain ⟨hexpr, htype⟩ := nodes_accept n
  obtain ⟨hexpr', htype'⟩ := nodes_accept n'
  constructor
  · exact .oneOf (local_exprVariants he ht hexpr.consumes hexpr'.consumes)
  · exact .oneOf (local_typeSpecVariants he ht htype.consumes htype'.consumes)

/-- With the same bound on both sides. The induction is on that bound. -/
theorem localNodes_self (n : Nat) : LocalNodes n n := by
  induction n with
  | zero => exact ⟨steady_failAhead _ 0 0, steady_failAhead _ 0 0⟩
  | succ n ih => exact ih.succ

/-- With any two bounds. What one side has beyond the other is never used, so the induction may stop
at the smaller one. -/
theorem localNodes (n n' : Nat) : LocalNodes n n' := by
  induction n generalizing n' with
  | zero =>
      obtain ⟨he, ht⟩ := localNodes_self n'
      exact ⟨local_zero he.forward, local_zero ht.forward⟩
  | succ n ih =>
      cases n' with
      | zero =>
          obtain ⟨he, ht⟩ := localNodes_self (n + 1)
          exact ⟨local_zero_right he.forward, local_zero_right ht.forward⟩
      | succ n' => exact (ih n').succ

theorem steady_expr : Steady expr := steady_of_within fun n n' => (localNodes n n').1

theorem steady_typeSpec : Steady typeSpec := steady_of_within fun n n' => (localNodes n n').2

/-! ## Documents -/

section Document

variable {r : Reader α} {s s' : String} {k : Nat}

/-- A whole document looks for its end, which is one byte more. -/
theorem steady_document (hr : Steady r) : Steady (document r) := by
  refine hr.bind fun value => steady_skipBlanks.bind fun _ => ?_
  refine .peek_bind ⟨failAhead .trailingCharacters, fun _ _ => rfl⟩ fun next => ?_
  split
  · exact steady_pure value
  · exact steady_failAhead _

/-- Sources with the same first bytes share them as characters up to there. -/
theorem shares_start (hk : k ≤ s.utf8ByteSize)
    (h : s'.toUTF8.toList.take k = s.toUTF8.toList.take k) :
    Shares k (.start s) (.start s') := by
  have hlength := congrArg List.length h
  rw [List.length_take, List.length_take, Text.length_toUTF8, Text.length_toUTF8] at hlength
  rw [Text.toList_toUTF8, Text.toList_toUTF8] at h
  refine ⟨rfl, h.symm, ?_, ?_⟩
  · change k ≤ Text.byteLength s.toList
    rw [Text.byteLength_toList]
    exact hk
  · change k ≤ Text.byteLength s'.toList
    rw [Text.byteLength_toList]
    omega

theorem error_of_map {ε : Type} {e : ε} {x : Except ε α} {f : α → β}
    (h : x.map f = .error e) : x = .error e := by
  cases x with
  | error e' => exact congrArg Except.error (Except.error.inj h)
  | ok a => nomatch h

/-- A located fault of a document is the fault of every text that goes the same way up to it. -/
theorem readDocument_error_local (hr : Steady r) {failure : Failure} {place : Position}
    (h : readDocument r s = .error failure) (hplace : failure.position = some place) :
    ∃ k, place.Denotes s k ∧ (k < s.utf8ByteSize → ∀ s' : String,
      s'.toUTF8.toList.take (k + 1) = s.toUTF8.toList.take (k + 1) →
        readDocument r s' = .error failure) := by
  have hsteady := steady_document hr
  rcases hrun : (document r).on (.start s) with ⟨⟨cause, offset⟩ | a, stop⟩
  · rw [readDocument, hrun] at h
    obtain rfl : Fault.toFailure s ⟨cause, offset⟩ = failure := Except.error.inj h
    obtain ⟨k, rfl, rfl⟩ := Option.map_eq_some_iff.1 hplace
    have hreach := (hsteady.forward (.start s)).reach_le
    rw [hrun, Cursor.finish] at hreach
    have hk : k ≤ s.utf8ByteSize := by
      simpa [reach, Cursor.start, Text.byteLength_toList] using hreach
    refine ⟨k, Position.ofOffset_denotes hk, fun hlt s' hs' => ?_⟩
    have hmirrors := (hsteady _ _).mirrors (shares_start hlt hs') (Nat.le_refl _) (Nat.le_refl _)
    rw [hrun] at hmirrors
    have hsame := hmirrors (Nat.lt_succ_self k)
    generalize hrun' : (document r).on (.start s') = outcome at hsame
    cases hsame with
    | located =>
        have htake : s'.toUTF8.toList.take k = s.toUTF8.toList.take k := by
          have h := congrArg (List.take k) hs'
          rwa [List.take_take, List.take_take, Nat.min_eq_left (Nat.le_succ k)] at h
        rw [readDocument, hrun']
        simp only [mapError_error, Fault.toFailure, Option.map_some, Position.ofOffset_eq, htake]
  · rw [readDocument, hrun] at h
    cases h

end Document

end Json

open Json

/-- The place of a refused text is an offset in it, and nothing after the byte at that offset has
to do with the refusal: every text with the same bytes up to there is refused alike. -/
theorem Node.ofJson_error_of_agree {sort : NodeSort} {s : String} {failure : Failure}
    {place : Position} (h : Node.ofJson sort s = .error failure)
    (hplace : failure.position = some place) :
    ∃ k, place.Denotes s k ∧ (k < s.utf8ByteSize → ∀ s' : String,
      s'.toUTF8.toList.take (k + 1) = s.toUTF8.toList.take (k + 1) →
        Node.ofJson sort s' = .error failure) := by
  cases sort with
  | expr =>
      have hread : readDocument Json.expr s = .error failure := error_of_map h
      obtain ⟨k, hk, hsame⟩ := readDocument_error_local steady_expr hread hplace
      exact ⟨k, hk, fun hlt s' hs' => congrArg (Except.map Node.expr) (hsame hlt s' hs')⟩
  | typeSpec =>
      have hread : readDocument Json.typeSpec s = .error failure := error_of_map h
      obtain ⟨k, hk, hsame⟩ := readDocument_error_local steady_typeSpec hread hplace
      exact ⟨k, hk, fun hlt s' hs' => congrArg (Except.map Node.typeSpec) (hsame hlt s' hs')⟩

/-- A string where a natural number is expected is refused just after its closing quote. -/
theorem Node.ofJson_error_of_agree_string :
    let failure : Failure := ⟨.mismatch (.invalidType (.string "x") "u64"), some ⟨1, 10⟩⟩
    Node.ofJson .expr "\x7b\"Int\":\"x\"\x7d" = .error failure ∧
      ∃ k, Position.Denotes ⟨1, 10⟩ "\x7b\"Int\":\"x\"\x7d" k ∧
        (k < "\x7b\"Int\":\"x\"\x7d".utf8ByteSize → ∀ s' : String,
          s'.toUTF8.toList.take (k + 1) =
            "\x7b\"Int\":\"x\"\x7d".toUTF8.toList.take (k + 1) →
              Node.ofJson .expr s' = .error failure) :=
  ⟨rfl, Node.ofJson_error_of_agree rfl rfl⟩

end SyntaxTree
