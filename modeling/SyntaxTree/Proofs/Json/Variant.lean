import SyntaxTree.Proofs.Json.Record

/-! # Reading variants

A reader of variants accepts, for each variant, its tagged payload and, if it has no contents, its
bare name. Operators are such variants, and none of them has contents. -/

namespace SyntaxTree

namespace Json

open Text (Cursor)
open Reader Grammar

variable {α β : Type} {n : Nat}

/-! ## Languages -/

/-- A reader accepts any other description of the same texts. -/
theorem Accepts.of_iff {r : Reader α} {L M : List Char → α → Prop} (h : Accepts n r L)
    (hiff : ∀ p a, L p a ↔ M p a) : Accepts n r M where
  sound := fun hr => by
    obtain ⟨p, hp, hc⟩ := h.sound hr
    exact ⟨p, (hiff p _).1 hp, hc⟩
  complete := fun hp => h.complete ((hiff _ _).2 hp)
  opens := fun hp => h.opens ((hiff _ _).2 hp)

/-- What holds of texts up to a length holds of shorter ones. -/
theorem Accepts.mono {m : Nat} {r : Reader α} {L : List Char → α → Prop} (h : Accepts n r L)
    (hle : m ≤ n) : Accepts m r L where
  sound := h.sound
  complete := fun hp hlength => h.complete hp (Nat.le_trans hlength hle)
  opens := h.opens

/-- A value that is made from what was read has the texts of the latter. -/
theorem Accepts.map {r : Reader α} {L : List Char → α → Prop} (h : Accepts n r L) (f : α → β) :
    Accepts n (f <$> r) fun p b => ∃ a, L p a ∧ b = f a where
  sound := by
    intro c b d hr
    obtain ⟨a, ha, rfl⟩ := reads_map.1 hr
    obtain ⟨p, hp, hc⟩ := h.sound ha
    exact ⟨p, ⟨a, hp, rfl⟩, hc⟩
  complete := by
    rintro c p b d ⟨a, hp, rfl⟩ hlength hc hd
    exact reads_map.2 ⟨a, h.complete hp hlength hc hd, rfl⟩
  opens := by
    rintro p b ⟨a, hp, -⟩
    exact h.opens hp

/-- The payload of a variant without contents is a null. -/
theorem null_accepts (a : α) :
    Accepts n (do null; pure a) fun p b => p = ['n', 'u', 'l', 'l'] ∧ b = a where
  sound := by
    intro c b d h
    obtain ⟨_, m, hm, h⟩ := reads_bind.1 h
    obtain ⟨rfl, rfl⟩ := reads_pure.1 h
    exact ⟨_, ⟨rfl, rfl⟩, reads_null.1 hm⟩
  complete := by
    rintro c p b d ⟨rfl, rfl⟩ _ hc _
    exact reads_bind.2 ⟨(), d, reads_null.2 hc, reads_pure.2 ⟨rfl, rfl⟩⟩
  opens := by
    rintro p b ⟨rfl, -⟩
    exact ⟨_, _, rfl, by decide⟩

/-! ## Variants -/

/-- The texts of a variant: what its bare name stands for, and its payloads. -/
structure VariantText (α : Type) where
  name : String
  bare : Option α
  payload : List Char → α → Prop

/-- The texts of a value of the variant: its name alone, if it may stand so, or an object with the
name as its only key. -/
def VariantText.Text (v : VariantText α) (p : List Char) (a : α) : Prop :=
  (∃ q, TaggedText v.name q p ∧ v.payload q a) ∨ v.bare = some a ∧ StringText p v.name

/-- The variant of a reader has the name of its text and reads its payloads. -/
structure VariantAccepts (n : Nat) (v : Variant α) (t : VariantText α) : Prop where
  name : t.name = v.name
  bare : ∀ a, v.contents = .none a ↔ t.bare = some a
  payload : Accepts n v.contents.reader t.payload

/-- A name picks out one variant, because no two have the same. -/
theorem find?_name {variants : List (Variant α)} (hnames : (variants.map (·.name)).Nodup)
    {v : Variant α} (hv : v ∈ variants) : variants.find? (·.name == v.name) = some v := by
  induction variants with
  | nil => exact absurd hv List.not_mem_nil
  | cons first rest ih =>
      obtain ⟨hfirst, hnames⟩ := List.nodup_cons.1 hnames
      rcases List.mem_cons.1 hv with rfl | hv
      · simp
      · have hne : first.name ≠ v.name := fun h => hfirst (List.mem_map.2 ⟨v, hv, h.symm⟩)
        rw [List.find?_cons_of_neg (by simpa using hne)]
        exact ih hnames hv

/-- The name of a variant is a string that spells it, in whatever escapes. -/
theorem reads_variantName {variants : List (Variant α)} (hnames : (variants.map (·.name)).Nodup)
    {contents : Contents α} {c d : Cursor} (hq : c.rest.head? = some '"') :
    (variantName variants).Reads c contents d ↔
      ∃ v ∈ variants, v.contents = contents ∧
        ∃ text, StringText text v.name ∧ c.Passes text d := by
  rw [variantName, reads_located, reads_bind]
  constructor
  · rintro ⟨name, m, hname, h⟩
    split at h
    · rename_i v hv
      obtain ⟨rfl, rfl⟩ := reads_pure.1 h
      have hv' : v.name = name := by simpa using List.find?_some hv
      exact ⟨v, List.mem_of_find?_eq_some hv, rfl, hv' ▸ (reads_string hq).1 hname⟩
    · exact absurd h not_reads_failShape
  · rintro ⟨v, hv, rfl, htext⟩
    refine ⟨v.name, d, (reads_string hq).2 htext, ?_⟩
    rw [find?_name hnames hv]
    exact reads_pure.2 ⟨rfl, rfl⟩

/-- A tagged text goes from an opening brace through one key, a colon and the payload to the closing
brace. -/
theorem crosses_tagged {name : String} {q : List Char} {c d : Cursor} :
    (∃ p, TaggedText name q p ∧ Crosses c [p] d) ↔
      ∃ key m, StringText key name ∧ skipBlanks.Reads c () m ∧ m.rest.head? = some '\x7b' ∧
        Crosses m.next [key, [':'], q, ['\x7d']] d := by
  constructor
  · rintro ⟨p, ⟨key, hkey, inner, rfl, hinner⟩, hc⟩
    obtain ⟨m, hs, hx, hm⟩ := (crosses_bracket (by decide)).1 ⟨inner, hinner, hc⟩
    exact ⟨key, m, hkey, hs, hx, hm⟩
  · rintro ⟨key, m, hkey, hs, hx, hm⟩
    obtain ⟨inner, hinner, hc⟩ := (crosses_bracket (by decide)).2 ⟨m, hs, hx, hm⟩
    exact ⟨_, ⟨key, hkey, inner, rfl, hinner⟩, hc⟩

/-- The payload is shorter than its node, which is what the bound on the nesting counts. -/
theorem taggedText_length_lt {name : String} {q p : List Char} (h : TaggedText name q p) :
    q.length < p.length := by
  obtain ⟨key, -, hobject⟩ := h
  exact hobject.length_lt List.mem_cons_self (by simp [Member.pieces])

theorem variantText_opens {t : VariantText α} {p : List Char} {a : α} (h : t.Text p a) :
    ∃ x rest, p = x :: rest ∧ OpensValue x := by
  rcases h with ⟨q, ⟨key, -, inner, rfl, -⟩, -⟩ | ⟨-, body, rfl, -⟩
  · exact ⟨_, _, rfl, by decide⟩
  · exact ⟨_, _, rfl, opensValue_quote⟩

/-- A node that is read is the text of one of the variants. -/
theorem oneOf_sound {variants : List (Variant α)} {texts : List (VariantText α)}
    (h : List.Forall₂ (VariantAccepts n) variants texts)
    (hnames : (variants.map (·.name)).Nodup) {a : α} {c d : Cursor}
    (hr : (oneOf variants).Reads c a d) : ∃ p, (∃ t ∈ texts, t.Text p a) ∧ Crosses c [p] d := by
  have hpair : ∀ v ∈ variants, ∃ t ∈ texts, VariantAccepts n v t := by
    intro v hv
    obtain ⟨i, hi, rfl⟩ := List.getElem_of_mem hv
    exact ⟨_, List.getElem_mem (h.length_eq ▸ hi), h.get hi _⟩
  obtain ⟨x, m, hs, hx, hr⟩ := reads_dispatch.1 hr
  split at hr
  · obtain ⟨_, k, hk, hr⟩ := reads_bind.1 (reads_advance_bind.1 hr)
    rw [reads_peek_bind] at hr
    split at hr
    · rename_i hquote
      obtain ⟨contents, k₁, hname, hr⟩ := reads_bind.1 hr
      obtain ⟨_, k₂, hcolon, hr⟩ := reads_bind.1 hr
      obtain ⟨_, k₃, hvalue, hr⟩ := reads_bind.1 hr
      obtain ⟨_, k₄, hclose, hr⟩ := reads_bind.1 hr
      obtain ⟨rfl, rfl⟩ := reads_pure.1 hr
      obtain ⟨v, hv, rfl, key, hkey, hpass⟩ := (reads_variantName hnames hquote).1 hname
      obtain ⟨t, ht, htv⟩ := hpair v hv
      obtain ⟨q, hq, hqc⟩ := htv.payload.sound hvalue
      obtain ⟨p, hp, hc⟩ := crosses_tagged.2 ⟨key, m, htv.name ▸ hkey, hs, hx,
        crosses_cons_iff.2 ⟨k₁, crosses_of_skipBlanks hk hpass,
          crosses_cons_iff.2 ⟨k₂, reads_colon.1 hcolon,
            crosses_cons_iff.2 ⟨k₃, hqc, reads_closeVariant.1 hclose⟩⟩⟩⟩
      exact ⟨p, ⟨t, ht, .inl ⟨q, hp, hq⟩⟩, hc⟩
    · simp at hr
    · simp at hr
    · simp at hr
  · obtain ⟨contents, k, hname, hr⟩ := reads_bind.1 hr
    obtain ⟨v, hv, rfl, key, hkey, hpass⟩ := (reads_variantName hnames hx).1 hname
    obtain ⟨t, ht, htv⟩ := hpair v hv
    split at hr
    · rename_i hcontents
      obtain ⟨rfl, rfl⟩ := reads_pure.1 hr
      refine ⟨key, ⟨t, ht, .inr ⟨(htv.bare _).1 hcontents, htv.name ▸ hkey⟩⟩, ?_⟩
      exact crosses_of_skipBlanks hs hpass
    · simp at hr
    · simp at hr
  · simp at hr

/-- Where the name of a variant has been read, what is left to read is its payload. -/
theorem on_oneOf_of_tagged {variants : List (Variant α)}
    (hnames : (variants.map (·.name)).Nodup) {v : Variant α} (hv : v ∈ variants)
    {key : List Char} (hkey : StringText key v.name) {c m d : Cursor}
    (hs : skipBlanks.Reads c () m) (hx : m.rest.head? = some '\x7b')
    (hc : Crosses m.next [key, [':']] d) : (oneOf variants).on c =
      (do let value ← v.contents.reader; closeVariant; pure value : Reader α).on d := by
  obtain ⟨e, hname, hcolon⟩ := crosses_cons_iff.1 hc
  obtain ⟨body, hbody, -⟩ := id hkey
  obtain ⟨k, hk, hquote, hpass⟩ := crosses_start (by decide) (hbody ▸ hname)
  have hcontents : (variantName variants).Reads k v.contents e :=
    (reads_variantName hnames hquote).2 ⟨v, hv, rfl, key, hkey, hbody ▸ hpass⟩
  rw [oneOf, on_bind_of_reads (reads_valueStart.2 ⟨hs, hx⟩)]
  change (advance >>= fun _ => skipBlanks >>= fun _ => peek >>= _).on m = _
  rw [on_advance_bind, on_bind_of_reads hk, on_peek_bind, hquote]
  change (variantName variants >>= fun contents => colon >>= fun _ => _).on k = _
  rw [on_bind_of_reads hcontents, on_bind_of_reads (reads_colon.2 hcolon)]

/-- The text of a variant is read as that variant, provided its payload is within the bound. -/
theorem oneOf_complete {variants : List (Variant α)} {texts : List (VariantText α)}
    (h : List.Forall₂ (VariantAccepts n) variants texts)
    (hnames : (variants.map (·.name)).Nodup) {t : VariantText α} (ht : t ∈ texts) {a : α}
    {p : List Char} {c d : Cursor} (hp : t.Text p a) (hlength : p.length ≤ n + 1)
    (hc : Crosses c [p] d) : (oneOf variants).Reads c a d := by
  obtain ⟨v, hv, htv⟩ : ∃ v ∈ variants, VariantAccepts n v t := by
    obtain ⟨i, hi, rfl⟩ := List.getElem_of_mem ht
    exact ⟨_, List.getElem_mem (h.length_eq ▸ hi), h.get _ hi⟩
  rcases hp with ⟨q, htagged, hq⟩ | ⟨hbare, hkey⟩
  · have hlt := taggedText_length_lt htagged
    obtain ⟨key, m, hkey, hs, hx, hm⟩ := crosses_tagged.1 ⟨p, htagged, hc⟩
    obtain ⟨k, hname, hm⟩ := (@crosses_append _ _ [key, [':']] _).1 hm
    obtain ⟨e, hvalue, hclose⟩ := crosses_cons_iff.1 hm
    have hread : v.contents.reader.Reads k a e :=
      htv.payload.complete hq (by omega) hvalue (delimited_of_crosses (.inr (.inr rfl)) hclose)
    rw [Reads, on_oneOf_of_tagged hnames hv (htv.name ▸ hkey) hs hx hname]
    exact reads_bind.2
      ⟨a, e, hread, reads_bind.2 ⟨(), d, reads_closeVariant.2 hclose, reads_pure.2 ⟨rfl, rfl⟩⟩⟩
  · obtain ⟨body, rfl, -⟩ := id hkey
    obtain ⟨m, hs, hquote, hpass⟩ := crosses_start (by decide) hc
    refine reads_dispatch.2 ⟨'"', m, hs, hquote, reads_bind.2 ⟨.none a, d, ?_, ?_⟩⟩
    · exact (reads_variantName hnames hquote).2
        ⟨v, hv, (htv.bare a).2 hbare, _, htv.name ▸ hkey, hpass⟩
    · exact reads_pure.2 ⟨rfl, rfl⟩

/-- The names of the readers are those of their texts. -/
theorem names_eq {variants : List (Variant α)} {texts : List (VariantText α)}
    (h : List.Forall₂ (VariantAccepts n) variants texts) :
    variants.map (·.name) = texts.map (·.name) := by
  induction h with
  | nil => rfl
  | cons hv _ ih => rw [List.map_cons, List.map_cons, ih, hv.name]

/-- The reader of a choice accepts the texts of its variants and no others. -/
theorem oneOf_accepts {variants : List (Variant α)} {texts : List (VariantText α)}
    (h : List.Forall₂ (VariantAccepts n) variants texts) (hnames : (texts.map (·.name)).Nodup) :
    Accepts (n + 1) (oneOf variants) fun p a => ∃ t ∈ texts, t.Text p a where
  sound := oneOf_sound h (names_eq h ▸ hnames)
  complete := fun ⟨_, ht, hp⟩ hlength hc _ =>
    oneOf_complete h (names_eq h ▸ hnames) ht hp hlength hc
  opens := fun ⟨_, _, hp⟩ => variantText_opens hp

/-! ## Operators -/

/-- An operator is its name, bare or as the key of a null. -/
theorem operator_accepts {all : List α} {name : α → String} (hnames : (all.map name).Nodup)
    (hall : ∀ op, op ∈ all) : Accepts n (operator all name) fun p op => UnitText (name op) p := by
  let texts : List (VariantText α) :=
    all.map fun op => ⟨name op, some op, fun q a => q = ['n', 'u', 'l', 'l'] ∧ a = op⟩
  have h : List.Forall₂ (VariantAccepts n) (all.map fun op => ⟨name op, .none op⟩) texts := by
    rw [List.forall₂_map_left_iff, List.forall₂_map_right_iff, List.forall₂_same]
    intro op _
    exact ⟨rfl, fun a => by simp, null_accepts op⟩
  refine ((oneOf_accepts h ?_).mono (Nat.le_succ n)).of_iff fun p op => ?_
  · rwa [List.map_map]
  · simp only [texts, List.mem_map, exists_exists_and_eq_and, VariantText.Text, UnitText]
    constructor
    · rintro ⟨op', -, ⟨q, hq, rfl, rfl⟩ | ⟨hop, hp⟩⟩
      · exact .inr hq
      · exact .inl (Option.some.inj hop ▸ hp)
    · rintro (hp | hp)
      · exact ⟨op, hall op, .inr ⟨rfl, hp⟩⟩
      · exact ⟨op, hall op, .inl ⟨_, hp, rfl, rfl⟩⟩

end Json

end SyntaxTree
