import SyntaxTree.Proofs.Json.Skip

/-! # Reading records

A record is read either in order or by keys, and both readings succeed exactly on the texts that
give every field once. The reading by keys is a walk through the slots, which is taken apart field
by field. -/

namespace SyntaxTree

namespace Json

open Text (Cursor)
open Reader Grammar

variable {α : Type} {types : List Type}

/-- A language for the values of each type. -/
inductive Langs : List Type → Type 1 where
  | nil : Langs []
  | cons {α : Type} {types : List Type} (L : List Char → α → Prop) (rest : Langs types) :
      Langs (α :: types)

namespace Langs

/-- The texts stand for the values, each in its own language. -/
def Holds : {types : List Type} → Langs types → List (List Char) → Values types → Prop
  | _, .nil, texts, _ => texts = []
  | _, .cons L rest, texts, (value, values) =>
      ∃ p ps, texts = p :: ps ∧ L p value ∧ rest.Holds ps values

/-- What reading the value of a key does to the slots. -/
def Stores : {types : List Type} → Fields types → Langs types → Slots types → String →
    List Char → Slots types → Prop
  | _, .nil, _, _, _, p, _ => AnyText p
  | _, .cons name _ _ fields, .cons L rest, (slot, slots), key, p, (slot', slots') =>
      if key = name then slot = none ∧ (∃ value, L p value ∧ slot' = some value) ∧ slots' = slots
      else slot' = slot ∧ rest.Stores fields slots key p slots'

end Langs

/-- Every field has to be there, and its reader accepts its language. -/
def FieldsAccept (n : Nat) : {types : List Type} → Fields types → Langs types → Prop
  | _, .nil, .nil => True
  | _, .cons _ absent read fields, .cons L rest =>
      absent = none ∧ Accepts n read L ∧ FieldsAccept n fields rest

/-- The slots that hold all values. -/
def filled : {types : List Type} → Values types → Slots types
  | [], _ => ()
  | _ :: _, (value, values) => (some value, filled values)

theorem Langs.Holds.length_eq {fields : Fields types} {langs : Langs types}
    {texts : List (List Char)} {values : Values types} (h : langs.Holds texts values) :
    texts.length = fields.names.length := by
  induction fields generalizing texts with
  | nil =>
      cases langs
      obtain rfl : texts = [] := h
      rfl
  | cons name absent read rest ih =>
      cases langs with
      | cons L langs =>
          obtain ⟨value, values⟩ := values
          obtain ⟨p, ps, rfl, -, h⟩ := h
          simp [Fields.names, ih h]

/-! ## Fields in order -/

theorem inOrder_sound {n : Nat} {fields : Fields types} {langs : Langs types}
    (hf : FieldsAccept n fields langs) {expected : String} {index : Nat} {values : Values types}
    {c m d : Cursor} (h : (fields.inOrder expected index).Reads c values m)
    (hclose : closeList.Reads m () d) :
    ∃ texts, langs.Holds texts values ∧
      Crosses c (chained (index == 0) (texts.map fun p => [p]) ++ [[']']]) d := by
  induction fields generalizing index c with
  | nil =>
      cases langs
      obtain ⟨-, rfl⟩ := reads_pure.1 h
      exact ⟨[], rfl, reads_closeList.1 hclose⟩
  | cons name absent read rest ih =>
      cases langs with
      | cons L langs =>
          obtain ⟨rfl, hread, hrest⟩ := hf
          obtain ⟨more, k, hnext, h⟩ := reads_bind.1 h
          cases more with
          | true =>
              obtain ⟨value, k', hvalue, h⟩ := reads_bind.1 h
              obtain ⟨values, k'', hvalues, h⟩ := reads_bind.1 h
              obtain ⟨rfl, rfl⟩ := reads_pure.1 h
              obtain ⟨p, hp, hpc⟩ := hread.sound hvalue
              obtain ⟨ps, hps, hc⟩ := ih hrest hvalues
              refine ⟨p :: ps, ⟨p, ps, rfl, hp, hps⟩, ?_⟩
              have := nextElement_sound hnext (crosses_cons_iff.2 ⟨k', hpc, hc⟩)
              simpa [chained] using this
          | false => exact absurd h not_reads_failShape

theorem inOrder_complete {n : Nat} {fields : Fields types} {langs : Langs types}
    (hf : FieldsAccept n fields langs) {expected : String} {index : Nat} {values : Values types}
    {texts : List (List Char)} (hl : langs.Holds texts values)
    (hlength : ∀ p ∈ texts, p.length ≤ n) {c d : Cursor}
    (hc : Crosses c (chained (index == 0) (texts.map fun p => [p]) ++ [[']']]) d) :
    ∃ m, (fields.inOrder expected index).Reads c values m ∧ closeList.Reads m () d := by
  induction fields generalizing index c texts with
  | nil =>
      cases langs
      obtain rfl : texts = [] := hl
      exact ⟨c, reads_pure.2 ⟨rfl, rfl⟩, reads_closeList.2 hc⟩
  | cons name absent read rest ih =>
      cases langs with
      | cons L langs =>
          obtain ⟨rfl, hread, hrest⟩ := hf
          obtain ⟨value, values⟩ := values
          obtain ⟨p, ps, rfl, hp, hps⟩ := hl
          obtain ⟨x, tail, rfl, hx⟩ := hread.opens hp
          rw [List.map_cons, chained, List.append_assoc] at hc
          obtain ⟨e, hlead, hc⟩ := crosses_append.1 hc
          obtain ⟨m, hnext, hm⟩ := nextElement_item hx hlead
          have hvalue : read.Reads m value e :=
            hread.complete hp (hlength _ List.mem_cons_self) hm (delimited_of_chained (.inl rfl) hc)
          have hlater : (index + 1 == 0) = false := by simp
          rw [← hlater] at hc
          obtain ⟨k, hk, hclose⟩ :=
            ih hrest hps (fun q hq => hlength q (List.mem_cons_of_mem _ hq)) hc
          refine ⟨k, ?_, hclose⟩
          refine reads_bind.2 ⟨true, m, hnext, reads_bind.2 ⟨value, e, hvalue, ?_⟩⟩
          exact reads_bind.2 ⟨values, k, hk, reads_pure.2 ⟨rfl, rfl⟩⟩

/-! ## Fields by key -/

theorem reads_entry_nil {slots slots' : Slots []} {key : String} {c d : Cursor} :
    (Fields.nil.entry .skipped slots key).Reads c slots' d ↔
      ∃ m, colon.Reads c () m ∧ skipValue.Reads m () d := by
  constructor
  · intro h
    obtain ⟨_, m, hm, h⟩ := reads_bind.1 h
    obtain ⟨_, k, hk, h⟩ := reads_bind.1 h
    obtain ⟨-, rfl⟩ := reads_pure.1 h
    exact ⟨m, hm, hk⟩
  · rintro ⟨m, hm, hk⟩
    exact reads_bind.2 ⟨(), m, hm, reads_bind.2 ⟨(), d, hk, reads_pure.2 ⟨rfl, rfl⟩⟩⟩

/-- A key that names the first field fills its slot, which has to be empty. -/
theorem reads_entry_head {name : String} {absent : Option α} {read : Reader α}
    {rest : Fields types} {slot : Option α} {slots : Slots types} {slots' : Slots (α :: types)}
    {c d : Cursor} :
    ((Fields.cons name absent read rest).entry .skipped (slot, slots) name).Reads c slots' d ↔
      slot = none ∧ ∃ value m, colon.Reads c () m ∧ read.Reads m value d ∧
        slots' = (some value, slots) := by
  simp only [Fields.entry, Fields.store?, if_true]
  cases slot with
  | some value =>
      constructor
      · intro h
        exact absurd h not_reads_failShape
      · rintro ⟨h, -⟩
        exact absurd h (by simp)
  | none =>
      constructor
      · intro h
        obtain ⟨_, m, hm, h⟩ := reads_bind.1 h
        obtain ⟨value, k, hk, h⟩ := reads_bind.1 h
        obtain ⟨rfl, rfl⟩ := reads_pure.1 h
        exact ⟨rfl, value, m, hm, hk, rfl⟩
      · rintro ⟨-, value, m, hm, hk, rfl⟩
        exact reads_bind.2 ⟨(), m, hm, reads_bind.2 ⟨value, d, hk, reads_pure.2 ⟨rfl, rfl⟩⟩⟩

/-- Any other key is left to the fields after the first. -/
theorem reads_entry_tail {name key : String} {absent : Option α} {read : Reader α}
    {rest : Fields types} {slot : Option α} {slots : Slots types} {slots' : Slots (α :: types)}
    {c d : Cursor} (hne : key ≠ name) :
    ((Fields.cons name absent read rest).entry .skipped (slot, slots) key).Reads c slots' d ↔
      ∃ tail, (rest.entry .skipped slots key).Reads c tail d ∧ slots' = (slot, tail) := by
  simp only [Fields.entry, Fields.store?, hne, if_false]
  cases rest.store? slots key with
  | some reader =>
      constructor
      · intro h
        obtain ⟨tail, m, hm, h⟩ := reads_bind.1 h
        obtain ⟨rfl, rfl⟩ := reads_pure.1 h
        exact ⟨tail, hm, rfl⟩
      · rintro ⟨tail, h, rfl⟩
        exact reads_bind.2 ⟨tail, d, h, reads_pure.2 ⟨rfl, rfl⟩⟩
  | none =>
      constructor
      · intro h
        obtain ⟨_, m, hm, h⟩ := reads_bind.1 h
        obtain ⟨_, k, hk, h⟩ := reads_bind.1 h
        obtain ⟨rfl, rfl⟩ := reads_pure.1 h
        exact ⟨slots, reads_bind.2 ⟨(), m, hm, reads_bind.2 ⟨(), d, hk, reads_pure.2 ⟨rfl, rfl⟩⟩⟩,
          rfl⟩
      · rintro ⟨tail, h, rfl⟩
        obtain ⟨_, m, hm, h⟩ := reads_bind.1 h
        obtain ⟨_, k, hk, h⟩ := reads_bind.1 h
        obtain ⟨rfl, rfl⟩ := reads_pure.1 h
        exact reads_bind.2 ⟨(), m, hm, reads_bind.2 ⟨(), d, hk, reads_pure.2 ⟨rfl, rfl⟩⟩⟩

theorem entry_accepts {n : Nat} {fields : Fields types} {langs : Langs types}
    (hf : FieldsAccept n fields langs) :
    AcceptsEntry n (fields.entry .skipped) (langs.Stores fields) where
  sound := by
    intro slots key slots' c d h
    induction fields with
    | nil =>
        cases langs
        obtain ⟨m, hm, hv⟩ := reads_entry_nil.1 h
        obtain ⟨p, hp, hc⟩ := (skipValue_accepts n).sound hv
        exact ⟨p, hp, crosses_cons_iff.2 ⟨m, reads_colon.1 hm, hc⟩⟩
    | cons name absent read rest ih =>
        cases langs with
        | cons L langs =>
            obtain ⟨-, hread, hrest⟩ := hf
            obtain ⟨slot, slots⟩ := slots
            rcases eq_or_ne key name with rfl | hne
            · obtain ⟨rfl, value, m, hm, hv, rfl⟩ := reads_entry_head.1 h
              obtain ⟨p, hp, hc⟩ := hread.sound hv
              refine ⟨p, ?_, crosses_cons_iff.2 ⟨m, reads_colon.1 hm, hc⟩⟩
              simp only [Langs.Stores, if_true]
              exact ⟨trivial, ⟨value, hp, rfl⟩, trivial⟩
            · obtain ⟨tail, htail, rfl⟩ := (reads_entry_tail hne).1 h
              obtain ⟨p, hp, hc⟩ := ih hrest htail
              refine ⟨p, ?_, hc⟩
              simp only [Langs.Stores, hne, if_false]
              exact ⟨trivial, hp⟩
  complete := by
    intro slots key slots' c p d hstep hlength hc hd
    induction fields with
    | nil =>
        cases langs
        obtain ⟨m, hm, hv⟩ := crosses_cons_iff.1 hc
        refine reads_entry_nil.2 ⟨m, reads_colon.2 hm, ?_⟩
        exact (skipValue_accepts n).complete (a := ()) hstep hlength hv hd
    | cons name absent read rest ih =>
        cases langs with
        | cons L langs =>
            obtain ⟨-, hread, hrest⟩ := hf
            obtain ⟨slot, slots⟩ := slots
            obtain ⟨slot', slots'⟩ := slots'
            rcases eq_or_ne key name with rfl | hne
            · simp only [Langs.Stores, if_true] at hstep
              obtain ⟨rfl, ⟨value, hp, rfl⟩, rfl⟩ := hstep
              obtain ⟨m, hm, hv⟩ := crosses_cons_iff.1 hc
              refine reads_entry_head.2 ⟨rfl, value, m, reads_colon.2 hm, ?_, rfl⟩
              exact hread.complete hp hlength hv hd
            · simp only [Langs.Stores, hne, if_false] at hstep
              obtain ⟨rfl, hstep⟩ := hstep
              exact (reads_entry_tail hne).2 ⟨slots', ih hrest hstep, rfl⟩

/-- Only full slots make a record. -/
theorem reads_complete {n : Nat} {fields : Fields types} {langs : Langs types}
    (hf : FieldsAccept n fields langs) {slots : Slots types} {values : Values types}
    {c d : Cursor} :
    (fields.complete slots).Reads c values d ↔ slots = filled values ∧ d = c := by
  induction fields generalizing c d with
  | nil =>
      constructor
      · intro h
        exact ⟨rfl, (reads_pure.1 h).2⟩
      · rintro ⟨-, rfl⟩
        exact reads_pure.2 ⟨rfl, rfl⟩
  | cons name absent read rest ih =>
      cases langs with
      | cons L langs =>
          obtain ⟨rfl, -, hrest⟩ := hf
          obtain ⟨slot, slots⟩ := slots
          obtain ⟨value, values⟩ := values
          cases slot with
          | none =>
              constructor
              · intro h
                exact absurd h not_reads_failShape
              · rintro ⟨h, -⟩
                exact absurd (congrArg Prod.fst h) (by simp [filled])
          | some found =>
              constructor
              · intro h
                obtain ⟨tail, m, hm, h⟩ := reads_bind.1 h
                obtain ⟨hv, rfl⟩ := reads_pure.1 h
                obtain ⟨rfl, rfl⟩ := Prod.mk.inj hv
                obtain ⟨rfl, rfl⟩ := (ih hrest).1 hm
                exact ⟨rfl, rfl⟩
              · rintro ⟨h, rfl⟩
                obtain ⟨hfound, rfl⟩ := Prod.mk.inj h
                obtain rfl := Option.some.inj hfound
                exact reads_bind.2 ⟨values, d, (ih hrest).2 ⟨rfl, rfl⟩, reads_pure.2 ⟨rfl, rfl⟩⟩

/-! ## Walks through the slots -/

/-- The keys are spelled by their texts. -/
def Spelled (es : List Entry) : Prop := ∀ e ∈ es, StringText e.key e.name

theorem Steps.spelled {σ : Type} {Step : σ → String → List Char → σ → Prop} {start last : σ}
    {es : List Entry} (h : Steps Step start es last) : Spelled es := by
  induction h with
  | nil => exact fun e he => absurd he List.not_mem_nil
  | cons hkey _ _ ih => exact List.forall_mem_cons.2 ⟨hkey, ih⟩

theorem steps_nil_iff {slots slots' : Slots []} {es : List Entry} :
    Steps (Langs.nil.Stores .nil) slots es slots' ↔ Spelled es ∧ ∀ e ∈ es, AnyText e.value := by
  constructor
  · intro h
    refine ⟨h.spelled, ?_⟩
    induction h with
    | nil => exact fun e he => absurd he List.not_mem_nil
    | cons _ hvalue _ ih => exact List.forall_mem_cons.2 ⟨hvalue, ih⟩
  · rintro ⟨hspelled, hvalues⟩
    induction es with
    | nil => exact .nil
    | cons e es ih =>
        obtain ⟨hkey, hspelled⟩ := List.forall_mem_cons.1 hspelled
        obtain ⟨hvalue, hvalues⟩ := List.forall_mem_cons.1 hvalues
        have hrest : Steps (Langs.nil.Stores .nil) slots es slots' := ih hspelled hvalues
        exact .cons hkey hvalue hrest

/-- What the entries of one name do to the slot of that name. -/
def Fills (L : List Char → α → Prop) (slot : Option α) (es : List Entry) (slot' : Option α) :
    Prop :=
  es = [] ∧ slot' = slot ∨
    slot = none ∧ ∃ e value, es = [e] ∧ L e.value value ∧ slot' = some value

/-- A walk through the slots is a walk through the first slot by the entries of its name, and one
through the other slots by the other entries. -/
theorem steps_cons_iff {name : String} {absent : Option α} {read : Reader α}
    {fields : Fields types} {L : List Char → α → Prop} {langs : Langs types}
    {slot slot' : Option α} {slots slots' : Slots types} {es : List Entry} :
    Steps ((Langs.cons L langs).Stores (.cons name absent read fields)) (slot, slots) es
        (slot', slots') ↔
      Spelled es ∧ Fills L slot (es.filter (·.name == name)) slot' ∧
        Steps (langs.Stores fields) slots (es.filter (·.name != name)) slots' := by
  constructor
  · intro h
    refine ⟨h.spelled, ?_⟩
    generalize hstart : ((slot, slots) : Slots (α :: types)) = start at h
    generalize hlast : ((slot', slots') : Slots (α :: types)) = last at h
    induction h generalizing slot slots with
    | nil =>
        obtain ⟨rfl, rfl⟩ := Prod.mk.inj (hstart.trans hlast.symm)
        exact ⟨.inl ⟨rfl, rfl⟩, .nil⟩
    | @cons _ mid _ e es hkey hstep hes ih =>
        subst hstart
        obtain ⟨slot₁, slots₁⟩ := mid
        obtain ⟨hfills, hsteps⟩ := ih rfl hlast
        rcases eq_or_ne e.name name with heq | hne
        · simp only [Langs.Stores, heq, if_true] at hstep
          obtain ⟨rfl, ⟨value, hvalue, rfl⟩, rfl⟩ := hstep
          rcases hfills with ⟨hfilter, rfl⟩ | ⟨hnone, -⟩
          · refine ⟨.inr ⟨rfl, e, value, ?_, hvalue, rfl⟩, ?_⟩
            · simp [heq, hfilter]
            · simpa [heq] using hsteps
          · simp at hnone
        · simp only [Langs.Stores, hne, if_false] at hstep
          obtain ⟨rfl, hstep⟩ := hstep
          refine ⟨by simpa [hne] using hfills, ?_⟩
          simpa [hne] using Steps.cons hkey hstep hsteps
  · rintro ⟨hspelled, hfills, hsteps⟩
    induction es generalizing slot slots with
    | nil =>
        rcases hfills with ⟨-, rfl⟩ | ⟨-, _, _, h, -⟩
        · cases hsteps
          exact .nil
        · simp at h
    | cons e es ih =>
        obtain ⟨hkey, hspelled⟩ := List.forall_mem_cons.1 hspelled
        rcases eq_or_ne e.name name with heq | hne
        · simp only [heq, beq_self_eq_true, List.filter_cons_of_pos, bne_self_eq_false,
            Bool.false_eq_true, not_false_eq_true, List.filter_cons_of_neg] at hfills hsteps
          rcases hfills with ⟨h, -⟩ | ⟨rfl, e', value, h, hvalue, rfl⟩
          · simp at h
          · obtain ⟨rfl, hrest⟩ := List.cons.inj h
            refine .cons hkey ?_ (ih hspelled (.inl ⟨hrest, rfl⟩) hsteps)
            simp only [Langs.Stores, heq, if_true]
            exact ⟨trivial, ⟨value, hvalue, rfl⟩, trivial⟩
        · have hfills' : Fills L slot (es.filter (·.name == name)) slot' := by
            simpa [hne] using hfills
          rw [List.filter_cons_of_pos (by simpa using hne)] at hsteps
          cases hsteps with
          | @cons _ mid _ _ _ _ hstep hrest =>
              refine .cons hkey ?_ (ih hspelled hfills' hrest)
              simp only [Langs.Stores, hne, if_false]
              exact ⟨trivial, hstep⟩

theorem covers_nil_iff {es : List Entry} :
    Covers es [] ↔ Spelled es ∧ ∀ e ∈ es, AnyText e.value := by
  constructor
  · intro h
    exact ⟨h.spelled, fun e he => h.other e he List.not_mem_nil⟩
  · rintro ⟨hspelled, hvalues⟩
    exact ⟨hspelled, fun f hf => absurd hf List.not_mem_nil, fun e he _ => hvalues e he⟩

theorem filter_filter_of_ne {name other : String} (h : other ≠ name) (es : List Entry) :
    (es.filter (·.name != name)).filter (·.name == other) = es.filter (·.name == other) := by
  rw [List.filter_filter]
  refine List.filter_congr fun e _ => ?_
  rcases eq_or_ne e.name other with heq | hne
  · simp [heq, h]
  · simp [hne]

/-- Covering is decided field by field, as the names of the fields are distinct. -/
theorem covers_cons_iff {es : List Entry} {name : String} {p : List Char}
    {fields : List (String × List Char)} (hname : name ∉ fields.map Prod.fst) :
    Covers es ((name, p) :: fields) ↔
      Spelled es ∧ (es.filter (·.name == name)).map (fun e => e.value) = [p] ∧
        Covers (es.filter (·.name != name)) fields := by
  have hother : ∀ f ∈ fields, f.1 ≠ name := by
    rintro f hf rfl
    exact hname (List.mem_map_of_mem hf)
  constructor
  · rintro ⟨hspelled, honce, hrest⟩
    refine ⟨hspelled, honce _ List.mem_cons_self, ?_, ?_, ?_⟩
    · exact fun e he => hspelled e (List.mem_of_mem_filter he)
    · intro f hf
      rw [filter_filter_of_ne (hother f hf)]
      exact honce f (List.mem_cons_of_mem _ hf)
    · intro e he hne
      obtain ⟨he, hen⟩ := List.mem_filter.1 he
      refine hrest e he ?_
      rw [List.map_cons, List.mem_cons, not_or]
      exact ⟨by simpa using hen, hne⟩
  · rintro ⟨hspelled, hfirst, hrest⟩
    refine ⟨hspelled, List.forall_mem_cons.2 ⟨hfirst, fun f hf => ?_⟩, fun e he hne => ?_⟩
    · rw [← filter_filter_of_ne (hother f hf)]
      exact hrest.once f hf
    · rw [List.map_cons, List.mem_cons, not_or] at hne
      exact hrest.other e (List.mem_filter.2 ⟨he, by simpa using hne.1⟩) hne.2

/-- The walks that fill all slots are those over the entries that cover the fields. -/
theorem steps_filled_iff {fields : Fields types} (hnames : fields.names.Nodup)
    {langs : Langs types} {values : Values types} {es : List Entry} :
    Steps (langs.Stores fields) fields.noSlots es (filled values) ↔
      ∃ texts, Covers es (fields.names.zip texts) ∧ langs.Holds texts values := by
  induction fields generalizing es with
  | nil =>
      cases langs
      constructor
      · intro h
        exact ⟨[], covers_nil_iff.2 (steps_nil_iff.1 h), rfl⟩
      · rintro ⟨texts, h, rfl⟩
        exact steps_nil_iff.2 (covers_nil_iff.1 h)
  | cons name absent read fields ih =>
      cases langs with
      | cons L langs =>
          obtain ⟨value, values⟩ := values
          obtain ⟨hname, hnames⟩ := List.nodup_cons.1 hnames
          have hfst : ∀ {texts}, langs.Holds texts values →
              name ∉ (fields.names.zip texts).map Prod.fst := by
            intro texts h
            rw [List.map_fst_zip (Nat.le_of_eq h.length_eq.symm)]
            exact hname
          rw [Fields.noSlots, filled, steps_cons_iff, ih hnames]
          constructor
          · rintro ⟨hspelled, hfills, texts, hcovers, hholds⟩
            rcases hfills with ⟨-, h⟩ | ⟨-, e, v, hfilter, hv, h⟩
            · simp at h
            · obtain rfl := Option.some.inj h
              refine ⟨e.value :: texts, ?_, ⟨e.value, texts, rfl, hv, hholds⟩⟩
              rw [Fields.names, List.zip_cons_cons, covers_cons_iff (hfst hholds)]
              exact ⟨hspelled, by simp [hfilter], hcovers⟩
          · rintro ⟨_, hcovers, p, texts, rfl, hv, hholds⟩
            rw [Fields.names, List.zip_cons_cons, covers_cons_iff (hfst hholds)] at hcovers
            obtain ⟨hspelled, hfirst, hcovers⟩ := hcovers
            obtain ⟨e, hfilter, rfl⟩ := List.map_eq_singleton_iff.1 hfirst
            exact ⟨hspelled, .inr ⟨rfl, e, value, hfilter, hv, rfl⟩, texts, hcovers, hholds⟩

/-! ## Records -/

/-- The texts of a record whose fields are in the languages. -/
def RecordOf (fields : Fields types) (langs : Langs types) (p : List Char)
    (values : Values types) : Prop :=
  ∃ texts, RecordText (fields.names.zip texts) p ∧ langs.Holds texts values

theorem record_accepts {n : Nat} {fields : Fields types} {langs : Langs types}
    (hf : FieldsAccept n fields langs) (hnames : fields.names.Nodup) (typeName lengthName : String) :
    Accepts n (record typeName lengthName fields .skipped) (RecordOf fields langs) where
  sound := by
    intro c values d h
    obtain ⟨x, m, hs, hx, h⟩ := reads_dispatch.1 h
    split at h
    · rw [reads_advance_bind, reads_enclosed] at h
      obtain ⟨k, h, hclose⟩ := h
      obtain ⟨texts, hl, hc⟩ := inOrder_sound hf h hclose
      rw [beq_self_eq_true, chained_true] at hc
      obtain ⟨inner, hinner, hc⟩ := (crosses_bracket (by decide)).2 ⟨m, hs, hx, hc⟩
      refine ⟨_, ⟨texts, .array ⟨inner, rfl, ?_⟩, hl⟩, hc⟩
      rwa [List.map_snd_zip (Nat.le_of_eq hl.length_eq)]
    · obtain ⟨es, last, hes, rfl, hc⟩ :=
        objectOf_sound (entry_accepts hf) (reads_complete hf).1 (reads_advance_bind.1 h)
      obtain ⟨texts, hcovers, hl⟩ := (steps_filled_iff hnames).1 hes
      obtain ⟨inner, hinner, hc⟩ := (crosses_bracket (by decide)).2 ⟨m, hs, hx, hc⟩
      refine ⟨_, ⟨texts, .object ⟨inner, rfl, ?_⟩ hcovers, hl⟩, hc⟩
      rwa [List.map_map]
    · exact absurd h not_reads_wrongType
  complete := by
    rintro c p values d ⟨texts, hrecord, hl⟩ hlength hc _
    cases hrecord with
    | array harray =>
        rw [List.map_snd_zip (Nat.le_of_eq hl.length_eq)] at harray
        obtain ⟨inner, rfl, hinner⟩ := id harray
        obtain ⟨m, hs, hx, hm⟩ := (crosses_bracket (by decide)).1 ⟨inner, hinner, hc⟩
        refine reads_dispatch.2 ⟨'[', m, hs, hx, reads_advance_bind.2 (reads_enclosed.2 ?_)⟩
        refine inOrder_complete hf hl (fun q hq => ?_) (by rwa [beq_self_eq_true, chained_true])
        exact Nat.le_of_lt (Nat.lt_of_lt_of_le (harray.length_lt hq) hlength)
    | @object es hobject hcovers =>
        obtain ⟨inner, rfl, hinner⟩ := id hobject
        rw [List.map_map] at hinner
        obtain ⟨m, hs, hx, hm⟩ := (crosses_bracket (by decide)).1 ⟨inner, hinner, hc⟩
        refine reads_dispatch.2 ⟨'\x7b', m, hs, hx, reads_advance_bind.2 ?_⟩
        have hes : Steps (langs.Stores fields) fields.noSlots es (filled values) :=
          (steps_filled_iff hnames).2 ⟨texts, hcovers, hl⟩
        have hvalues : ∀ e ∈ es, e.value.length ≤ n := by
          intro e he
          have hvalue : e.value ∈ e.pieces := by simp [Member.pieces]
          exact Nat.le_of_lt
            (Nat.lt_of_lt_of_le (hobject.length_lt (List.mem_map_of_mem he) hvalue) hlength)
        exact objectOf_complete (entry_accepts hf) hes (fun k => (reads_complete hf).2 ⟨rfl, rfl⟩)
          hvalues hm
  opens := by
    rintro p values ⟨texts, hrecord, -⟩
    cases hrecord with
    | array h =>
        obtain ⟨inner, rfl, -⟩ := h
        exact ⟨_, _, rfl, by decide⟩
    | object h _ =>
        obtain ⟨inner, rfl, -⟩ := h
        exact ⟨_, _, rfl, by decide⟩

end Json

end SyntaxTree
