import SyntaxTree.Proofs.Toml.Document
import SyntaxTree.PrintConfig.Load

/-! # What a configuration file may say

Which root tables describe a configuration is said by the keys that they hold and the values under
them, without an order of the entries. Keys of a document are distinct, so reading the entries one
after another finds the same. -/

namespace SyntaxTree

namespace Toml

/-- The elements of an array, whether it is written between brackets or by headers. -/
def Value.elements? : Value → Option (List Value)
  | .array _ elements => some elements
  | .tables elements => some (elements.map .table)
  | .scalar _ _ => none
  | .table _ => none

/-- The table holds no other key than the given one. -/
def Table.HoldsOnly (table : Table) (name : String) : Prop :=
  ∀ entry ∈ table.entries, entry.1.name = name

end Toml

namespace PrintConfig

open Toml (Key Value Table Misfit Span)

/-- The precision that a value writes; a missing value stands for the default. -/
inductive PrecisionValue : Option Value → Nat → Prop
  | missing : PrecisionValue none defaultPrecision
  | integer (span : Span) (n : Nat) : PrecisionValue (some (.scalar span (.integer n))) n

/-- The precision that the value of the printer's key writes, as a table or by the position in an
array. -/
inductive PrinterValue : Option Value → Nat → Prop
  | missing : PrinterValue none defaultPrecision
  | table {table : Table} {n : Nat} : table.HoldsOnly precisionKey →
      PrecisionValue (table.find? precisionKey) n → PrinterValue (some (.table table)) n
  | array {value : Value} {elements : List Value} {n : Nat} : value.elements? = some elements →
      PrecisionValue elements.head? n → PrinterValue (some value) n

/-- The root table of a configuration file with the given precision, which may be above the cap. -/
structure Describes (root : Table) (n : Nat) : Prop where
  holdsOnly : root.HoldsOnly "printer"
  printer : PrinterValue (root.find? "printer") n

/-- The text is no document, or the document has another shape than that of a configuration. -/
def LoadError.IsParse : LoadError → Prop
  | .notToml => True
  | .misfit _ _ => True
  | .missingFile => False
  | .notUtf8 => False
  | .precisionOutOfRange _ => False

/-! ## Reading entries -/

/-- The reader of a precision accepts exactly the natural numbers. -/
theorem precisionOfValue_eq_ok_iff {value : Value} {n : Nat} :
    precisionOfValue value = .ok n ↔ PrecisionValue (some value) n := by
  constructor
  · intro h
    unfold precisionOfValue at h
    split at h
    · next span k =>
      split at h
      · cases h
      · next hsign =>
        obtain rfl := Except.ok.inj h
        have hk : k = (k.toNat : Int) := (Int.toNat_of_nonneg (Int.not_lt.1 hsign)).symm
        rw [hk, Int.toNat_natCast]
        exact .integer span _
    · cases h
  · intro h
    cases h with
    | integer span n =>
        have hsign : ¬(n : Int) < 0 := by omega
        simp [precisionOfValue, hsign]

/-- What every step of a fold asks of its item holds of all items, once the fold succeeds. -/
theorem forall_mem_of_foldlM_eq_ok {ε σ α : Type} {step : σ → α → Except ε σ} {P : α → Prop}
    (hstep : ∀ {s a s'}, step s a = .ok s' → P a) {items : List α} {s s' : σ}
    (h : items.foldlM step s = .ok s') : ∀ a ∈ items, P a := by
  induction items generalizing s with
  | nil => exact fun a ha => absurd ha List.not_mem_nil
  | cons item items ih =>
      rw [List.foldlM_cons] at h
      cases hitem : step s item with
      | ok middle =>
          rw [hitem] at h
          exact List.forall_mem_cons.2 ⟨hstep hitem, ih h⟩
      | error fault =>
          rw [hitem] at h
          cases h

theorem map_eq_ok_iff {ε α β : Type} {f : α → β} {x : Except ε α} {b : β} :
    f <$> x = .ok b ↔ ∃ a, x = .ok a ∧ f a = b := by
  cases x with
  | ok a => simp [Functor.map, Except.map]
  | error fault => exact iff_of_false nofun nofun

section OnlyEntry

variable {α : Type} {known : String} {read : Value → Except Misfit α}

theorem holdsOnly_of_onlyEntry {table : Table} {result : Option α}
    (h : onlyEntry known read table.entries = .ok result) : table.HoldsOnly known := by
  refine forall_mem_of_foldlM_eq_ok (fun {s entry s'} hstep => ?_) h
  dsimp only at hstep
  split at hstep
  · next hname => exact hname
  · cases hstep

/-- Names that are all the same and all different belong to one entry at most. -/
theorem entries_of_holdsOnly {table : Table} (h : table.Distinct) (honly : table.HoldsOnly known) :
    table.entries = [] ∨ ∃ key value, table.entries = [(key, value)] ∧ key.name = known := by
  have hnodup := h.nodup
  rw [Table.HoldsOnly] at honly
  match hentries : table.entries with
  | [] => exact .inl rfl
  | [(key, value)] =>
      exact .inr ⟨key, value, rfl, honly (key, value) (by simp [hentries])⟩
  | first :: second :: entries =>
      have hfirst := honly first (by simp [hentries])
      have hsecond := honly second (by simp [hentries])
      simp [hentries, hfirst, hsecond] at hnodup

/-- With the one key that may be there, its value decides. -/
theorem onlyEntry_singleton_eq_ok_iff {key : Key} {value : Value} {result : Option α} :
    onlyEntry key.name read [(key, value)] = .ok result ↔
      ∃ a, read value = .ok a ∧ some a = result := by
  cases hread : read value <;> simp [onlyEntry, hread]

/-- Reading the entries in order finds the value of the one key, because no key occurs twice. The
fallback stands for a missing value. -/
theorem onlyEntry_getD_eq_ok_iff {table : Table} (h : table.Distinct) {fallback a : α} :
    (∃ result, onlyEntry known read table.entries = .ok result ∧ result.getD fallback = a) ↔
      table.HoldsOnly known ∧ (table.find? known).elim (fallback = a) (read · = .ok a) := by
  by_cases honly : table.HoldsOnly known
  · rw [and_iff_right honly]
    rcases entries_of_holdsOnly h honly with hentries | ⟨key, value, hentries, rfl⟩
    · have hfind : table.find? known = none := by rw [Table.find?, hentries]; rfl
      rw [hentries, hfind]
      constructor
      · rintro ⟨result, hread, ha⟩
        obtain rfl := Except.ok.inj hread
        exact ha
      · exact fun ha => ⟨none, rfl, ha⟩
    · have hfind : table.find? key.name = some value := by simp [Table.find?, hentries]
      rw [hentries, hfind]
      constructor
      · rintro ⟨result, hread, rfl⟩
        obtain ⟨a, hvalue, rfl⟩ := onlyEntry_singleton_eq_ok_iff.1 hread
        exact hvalue
      · exact fun hread => ⟨some a, onlyEntry_singleton_eq_ok_iff.2 ⟨a, hread, rfl⟩, rfl⟩
  · refine iff_of_false ?_ fun hread => honly hread.1
    rintro ⟨result, hread, -⟩
    exact honly (holdsOnly_of_onlyEntry hread)

end OnlyEntry

/-! ## Configurations -/

/-- The description of a precision and its reader agree, the default included. -/
theorem precisionValue_iff {value : Option Value} {n : Nat} :
    PrecisionValue value n ↔ value.elim (defaultPrecision = n) (precisionOfValue · = .ok n) := by
  cases value with
  | none =>
      constructor
      · intro h
        cases h
        rfl
      · rintro rfl
        exact .missing
  | some value => exact precisionOfValue_eq_ok_iff.symm

theorem ofElement?_eq_ok_iff {first : Option Value} {n : Nat} :
    ofElement? first = .ok ⟨n⟩ ↔ PrecisionValue first n := by
  rw [precisionValue_iff]
  cases first with
  | none => simp [ofElement?, default]
  | some value => simp [ofElement?, map_eq_ok_iff]

/-- A table is described by the value under the key, and by nothing else being there. That its names
are distinct makes the key's value the one the reader keeps. -/
theorem ofTable_eq_ok_iff {table : Table} (h : table.Distinct) {n : Nat} :
    ofValue (.table table) = .ok ⟨n⟩ ↔
      table.HoldsOnly precisionKey ∧ PrecisionValue (table.find? precisionKey) n := by
  have hmap : ofValue (.table table) = (fun precision => ⟨precision.getD defaultPrecision⟩) <$>
      onlyEntry precisionKey precisionOfValue table.entries := by
    rw [ofValue]
    cases onlyEntry precisionKey precisionOfValue table.entries with
    | ok precision => cases precision <;> rfl
    | error misfit => rfl
  rw [hmap, map_eq_ok_iff, precisionValue_iff, ← onlyEntry_getD_eq_ok_iff h]
  simp only [PrintConfig.mk.injEq]

theorem printerValue_iff_of_elements {value : Value} {elements : List Value} {n : Nat}
    (h : value.elements? = some elements) :
    PrinterValue (some value) n ↔ PrecisionValue elements.head? n := by
  constructor
  · intro hprinter
    cases hprinter with
    | table _ _ => cases h
    | array helements hprecision =>
        obtain rfl := Option.some.inj (helements.symm.trans h)
        exact hprecision
  · exact .array h

/-- The reader of the whole value agrees with its description, by the form of the value. -/
theorem ofValue_eq_ok_iff {value : Value} (h : value.Distinct) {n : Nat} :
    ofValue value = .ok ⟨n⟩ ↔ PrinterValue (some value) n := by
  cases value with
  | scalar span value =>
      refine iff_of_false ?_ ?_
      · cases value <;> exact nofun
      · intro hprinter
        cases hprinter with
        | array helements _ => cases helements
  | array span elements =>
      have helements : Value.elements? (.array span elements) = some elements := rfl
      rw [ofValue, ofElement?_eq_ok_iff, printerValue_iff_of_elements helements]
  | tables elements =>
      have helements : Value.elements? (.tables elements) = some (elements.map .table) := rfl
      rw [ofValue, ofElement?_eq_ok_iff, ← List.head?_map, printerValue_iff_of_elements helements]
  | table table =>
      rw [ofTable_eq_ok_iff h.of_table]
      constructor
      · rintro ⟨honly, hprecision⟩
        exact .table honly hprecision
      · intro hprinter
        cases hprinter with
        | table honly hprecision => exact ⟨honly, hprecision⟩
        | array helements _ => cases helements

/-- The root table is read as a configuration exactly if it describes one. -/
theorem ofRoot_eq_ok_iff {root : Table} (h : root.Distinct) {n : Nat} :
    ofRoot root = .ok ⟨n⟩ ↔ Describes root n := by
  have hmap : ofRoot root =
      (fun printer => printer.getD default) <$> onlyEntry "printer" ofValue root.entries := rfl
  have hprinter : PrinterValue (root.find? "printer") n ↔
      (root.find? "printer").elim (default = ⟨n⟩) (ofValue · = .ok ⟨n⟩) := by
    cases hfind : root.find? "printer" with
    | none =>
        constructor
        · intro hprinter
          cases hprinter
          rfl
        · intro hdefault
          cases hdefault
          exact .missing
    | some value => exact (ofValue_eq_ok_iff (h.find? hfind)).symm
  rw [hmap, map_eq_ok_iff, onlyEntry_getD_eq_ok_iff h, ← hprinter]
  exact ⟨fun hroot => ⟨hroot.1, hroot.2⟩, fun hroot => ⟨hroot.holdsOnly, hroot.printer⟩⟩

/-- A root table describes one configuration at most. -/
theorem Describes.unique {root : Table} (hdistinct : root.Distinct) {n m : Nat}
    (hn : Describes root n) (hm : Describes root m) : n = m := by
  have hread := (ofRoot_eq_ok_iff hdistinct).2 hn
  cases hread.symm.trans ((ofRoot_eq_ok_iff hdistinct).2 hm)
  rfl

/-! ## Texts -/

/-- The text is a document that describes a configuration of the given precision. -/
def DescribedBy (source : String) (n : Nat) : Prop :=
  ∃ root, Toml.parse? source = some root ∧ Describes root n

section Texts

variable {source : String} {n m : Nat}

/-- A text describes one precision at most. -/
theorem DescribedBy.unique (hn : DescribedBy source n) (hm : DescribedBy source m) : n = m := by
  obtain ⟨root, hparse, hn⟩ := hn
  obtain ⟨root', hparse', hm⟩ := hm
  obtain rfl := Option.some.inj (hparse.symm.trans hparse')
  exact hn.unique (Toml.parse?_distinct hparse) hm

/-- A text that describes a precision is loaded up to the cap. -/
theorem ofToml_of_describedBy (h : DescribedBy source n) : ofToml source = validated ⟨n⟩ := by
  obtain ⟨root, hparse, h⟩ := h
  rw [ofToml_eq, hparse]
  dsimp only
  rw [(ofRoot_eq_ok_iff (Toml.parse?_distinct hparse)).2 h]

/-- Any other text is refused when it is parsed, before the cap is looked at. -/
theorem ofToml_of_not_describedBy (h : ∀ n, ¬ DescribedBy source n) :
    ∃ error, ofToml source = .error error ∧ error.IsParse := by
  rw [ofToml_eq]
  cases hparse : Toml.parse? source with
  | none => exact ⟨.notToml, rfl, trivial⟩
  | some root =>
      dsimp only
      cases hroot : ofRoot root with
      | ok config =>
          have hdescribes := (ofRoot_eq_ok_iff (Toml.parse?_distinct hparse)).1 hroot
          exact absurd ⟨root, hparse, hdescribes⟩ (h config.floatPrecision)
      | error misfit => exact ⟨.misfit source misfit, rfl, trivial⟩

theorem ofToml_eq_ok_iff {config : PrintConfig} :
    ofToml source = .ok config ↔
      DescribedBy source config.floatPrecision ∧ config.floatPrecision ≤ maxPrecision := by
  constructor
  · intro hload
    by_cases h : ∃ n, DescribedBy source n
    · obtain ⟨n, h⟩ := h
      obtain ⟨rfl, hvalid⟩ := validated_eq_ok_iff.1 ((ofToml_of_describedBy h).symm.trans hload)
      exact ⟨h, hvalid⟩
    · obtain ⟨error, herror, -⟩ := ofToml_of_not_describedBy (not_exists.1 h)
      cases herror.symm.trans hload
  · rintro ⟨h, hle⟩
    exact (ofToml_of_describedBy h).trans (validated_eq_ok_iff.2 ⟨rfl, hle⟩)

theorem ofToml_eq_outOfRange_iff :
    ofToml source = .error (.precisionOutOfRange n) ↔ DescribedBy source n ∧ maxPrecision < n := by
  constructor
  · intro hload
    by_cases h : ∃ n, DescribedBy source n
    · obtain ⟨m, h⟩ := h
      have hvalidated := (ofToml_of_describedBy h).symm.trans hload
      rw [validated] at hvalidated
      split at hvalidated
      · cases hvalidated
      · next hvalid =>
        cases hvalidated
        exact ⟨h, Nat.lt_of_not_le hvalid⟩
    · obtain ⟨error, herror, hparse⟩ := ofToml_of_not_describedBy (not_exists.1 h)
      cases herror.symm.trans hload
      cases hparse
  · rintro ⟨h, hlt⟩
    have hvalid : ¬ Valid ⟨n⟩ := Nat.not_le_of_lt hlt
    rw [ofToml_of_describedBy h, validated, if_neg hvalid]

theorem ofToml_isParse_iff :
    (∃ error, ofToml source = .error error ∧ error.IsParse) ↔ ∀ n, ¬ DescribedBy source n := by
  constructor
  · rintro ⟨error, herror, hparse⟩ n h
    have hvalidated := (ofToml_of_describedBy h).symm.trans herror
    rw [validated] at hvalidated
    split at hvalidated
    · cases hvalidated
    · cases hvalidated
      cases hparse
  · exact ofToml_of_not_describedBy

/-- A precision is recorded exactly if a configuration with it is returned. -/
theorem log_loadToml_eq_singleton_iff :
    (loadToml source).log = [.loaded n] ↔ ofToml source = .ok ⟨n⟩ := by
  rw [log_loadToml]
  rcases ofToml source with error | ⟨⟨m⟩⟩ <;> simp [loadLog]

/-- Nothing is recorded exactly if no configuration is returned. -/
theorem log_loadToml_eq_nil_iff :
    (loadToml source).log = [] ↔ ∀ config, ofToml source ≠ .ok config := by
  rw [log_loadToml]
  cases ofToml source <;> simp [loadLog]

end Texts

/-- Every text is accepted, refused for its precision, or refused for its form. Which of them it is
and what precision comes out is decided by the root table alone, which describes one precision at
most, and the load of an accepted text, and of no other, leaves a record in the log. -/
theorem ofToml_classifies (source : String) :
    (∀ config, ofToml source = .ok config ↔
      DescribedBy source config.floatPrecision ∧ config.floatPrecision ≤ maxPrecision) ∧
    (∀ n, ofToml source = .error (.precisionOutOfRange n) ↔
      DescribedBy source n ∧ maxPrecision < n) ∧
    ((∃ error, ofToml source = .error error ∧ error.IsParse) ↔ ∀ n, ¬ DescribedBy source n) ∧
    (∀ n m, DescribedBy source n → DescribedBy source m → n = m) ∧
    (∀ n, (loadToml source).log = [.loaded n] ↔ ofToml source = .ok ⟨n⟩) ∧
    ((loadToml source).log = [] ↔ ∀ config, ofToml source ≠ .ok config) :=
  ⟨fun _ => ofToml_eq_ok_iff, fun _ => ofToml_eq_outOfRange_iff, ofToml_isParse_iff,
    fun _ _ => DescribedBy.unique, fun _ => log_loadToml_eq_singleton_iff,
    log_loadToml_eq_nil_iff⟩

end PrintConfig

end SyntaxTree
