import Mathlib.Data.List.TakeWhile
import SyntaxTree.Proofs.Json.Denotation

/-! # Texts that are extended

A node ends with its own last character, so it is read the same whatever comes after it. A document
that goes on is refused at the first character that is no blank. -/

namespace SyntaxTree

namespace Json

open Text (Cursor byteLength)
open Reader Grammar

variable {α : Type}

/-- The reader reads a text of `L` whatever comes after it. -/
def Closed (r : Reader α) (L : List Char → α → Prop) : Prop :=
  ∀ {c p a d}, L p a → Crosses c [p] d → r.Reads c a d

/-- A variant is closed by a brace or a quote. -/
theorem oneOf_closed {n : Nat} {variants : List (Variant α)} {texts : List (VariantText α)}
    (h : List.Forall₂ (VariantAccepts n) variants texts) (hnames : (texts.map (·.name)).Nodup)
    {p : List Char} {a : α} {c d : Cursor} (hp : ∃ t ∈ texts, t.Text p a)
    (hlength : p.length ≤ n + 1) (hc : Crosses c [p] d) : (oneOf variants).Reads c a d := by
  obtain ⟨t, ht, hp⟩ := hp
  exact oneOf_complete h (names_eq h ▸ hnames) ht hp hlength hc

theorem closed_remaining {r : Nat → Reader α} {L : List Char → α → Prop}
    (hopens : ∀ {p a}, L p a → ∃ x rest, p = x :: rest ∧ OpensValue x)
    (h : ∀ n {c p a d}, L p a → p.length ≤ n + 1 → Crosses c [p] d → (r (n + 1)).Reads c a d) :
    Closed (do r (← remaining)) L := by
  intro c p a d hp hc
  obtain ⟨x, rest, rfl, -⟩ := hopens hp
  obtain ⟨blanks, m, e, -, hb, hm, -⟩ := crosses_cons.1 hc
  have hlength : (x :: rest).length ≤ c.rest.length := by
    have h₁ := hb.length_eq
    have h₂ := hm.length_eq
    omega
  obtain ⟨n, hn⟩ : ∃ n, c.rest.length = n + 1 :=
    Nat.exists_eq_add_one.2 (Nat.lt_of_lt_of_le (Nat.succ_pos _) hlength)
  rw [reads_remaining_bind, hn]
  exact h n hp (hn ▸ hlength) hc

theorem expr_closed : Closed expr ExprText := by
  apply closed_remaining exprText_opens
  intro n c p e d hp hlength hc
  exact oneOf_closed (exprVariants_accept (nodes_accept n).1 (nodes_accept n).2) (by decide)
    (exprText_iff.1 hp) hlength hc

theorem typeSpec_closed : Closed typeSpec TypeSpecText := by
  apply closed_remaining typeSpecText_opens
  intro n c p t d hp hlength hc
  exact oneOf_closed (typeSpecVariants_accept (nodes_accept n).1 (nodes_accept n).2) (by decide)
    (typeSpecText_iff.1 hp) hlength hc

/-! ## Documents -/

section Extended

variable {r : Reader α} {L : List Char → α → Prop} {source : String} {a : α}

/-- Where the reading of an extended document gets to: the node is read, and then the blanks after
it are skipped, together with those that the extension begins with. -/
theorem reads_extended (haccepts : ∀ n, Accepts n r L) (hclosed : Closed r L)
    (h : readDocument r source = .ok a) (extra : String) :
    ∃ m, r.Reads (.start (source ++ extra)) a m ∧
      skipBlanks.Reads m () ⟨extra.toList.dropWhile isBlank,
        byteLength (source.toList ++ extra.toList.takeWhile isBlank)⟩ := by
  obtain ⟨before, p, after, hsource, hbefore, hafter, hp⟩ := (readDocument_iff haccepts).1 h
  let e : Cursor := ⟨extra.toList.dropWhile isBlank,
    byteLength (source.toList ++ extra.toList.takeWhile isBlank)⟩
  have hpass : (Cursor.start (source ++ extra)).Passes
      (before ++ (p ++ (after ++ extra.toList.takeWhile isBlank))) e := by
    constructor
    · rw [Cursor.start, String.toList_append, hsource]
      simp only [e, List.append_assoc, List.takeWhile_append_dropWhile]
    · rw [Cursor.start, Nat.zero_add]
      simp only [e, hsource, List.append_assoc]
  obtain ⟨m, hm, hpass⟩ := Cursor.passes_append.1 hpass
  obtain ⟨k, hk, hpass⟩ := Cursor.passes_append.1 hpass
  refine ⟨k, hclosed hp ((crosses_of_passes hk).of_blank hbefore hm), ?_⟩
  refine skipBlanks_of_blank (Blank.append hafter ?_) hpass ?_
  · exact blank_iff.2 fun x hx => List.all_eq_true.1 List.all_takeWhile x hx
  · intro x hx
    have hd := List.head?_dropWhile_not isBlank extra.toList
    rw [Option.mem_def] at hx
    simpa only [hx] using hd

/-- Blanks may follow a document. -/
theorem readDocument_append_blank (haccepts : ∀ n, Accepts n r L) (hclosed : Closed r L)
    (h : readDocument r source = .ok a) {extra : String} (hextra : Blank extra.toList) :
    readDocument r (source ++ extra) = .ok a := by
  obtain ⟨m, hm, hblanks⟩ := reads_extended haccepts hclosed h extra
  rw [readDocument_ok_iff]
  exact ⟨_, reads_document.2 ⟨m, hm, hblanks, List.dropWhile_eq_nil_iff.2 (blank_iff.1 hextra)⟩⟩

/-- Anything else is refused just after its first byte. -/
theorem readDocument_append_other (haccepts : ∀ n, Accepts n r L) (hclosed : Closed r L)
    (h : readDocument r source = .ok a) {extra : String} (hextra : ¬ Blank extra.toList) :
    readDocument r (source ++ extra) = .error ⟨.trailingCharacters, some
      (.ofOffset (source ++ extra)
        (byteLength (source.toList ++ extra.toList.takeWhile isBlank) + 1))⟩ := by
  obtain ⟨m, hm, hblanks⟩ := reads_extended haccepts hclosed h extra
  rw [blank_iff] at hextra
  obtain ⟨x, rest, hrest⟩ := List.exists_cons_of_ne_nil (mt List.dropWhile_eq_nil_iff.1 hextra)
  rw [hrest] at hblanks
  have hon : (document r).on (.start (source ++ extra)) = (.error ⟨.trailingCharacters, some
      (byteLength (source.toList ++ extra.toList.takeWhile isBlank) + 1)⟩, ⟨x :: rest,
        byteLength (source.toList ++ extra.toList.takeWhile isBlank)⟩) := by
    rw [document, on_bind_of_reads hm, on_bind_of_reads hblanks, on_peek_bind]
    rfl
  rw [readDocument, hon]
  rfl

end Extended

end Json

end SyntaxTree
