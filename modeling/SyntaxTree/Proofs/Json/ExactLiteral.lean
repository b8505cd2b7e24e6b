import SyntaxTree.Proofs.Binary64.NearestEven
import SyntaxTree.Proofs.Json.FloatDrift
import SyntaxTree.Proofs.Json.NonFinite

/-! # Literals that are read exactly rounded

An integer of 64 bits is rounded once. Digits of 53 bits and a power of ten up to `10 ^ 22` are
numbers of the format themselves, so their product or quotient is rounded once as well. Only where
some `2 ^ 31` digits after the point balance a larger exponent is such a literal refused. -/

namespace SyntaxTree

open Binary64

namespace Json

open Text (Cursor)
open Reader Grammar

namespace Literal

/-- An integer of 64 bits, or digits of 53 bits the last of which stands for a power of ten between
`10 ^ -22` and `10 ^ 22`. -/
inductive IsSafe (l : Literal) : Prop
  | integer : l.fraction = [] → l.exponent = none → l.digits < significandLimit → IsSafe l
  | scaled : l.digits < 2 ^ 53 → -22 ≤ l.power → l.power ≤ 22 → IsSafe l

variable {l : Literal}

theorem power_of_integer (hf : l.fraction = []) (he : l.exponent = none) : l.power = 0 := by
  rw [power, written, he, hf]
  rfl

/-! ## The last rounding -/

/-- A literal of the safe range is far below the largest number. -/
theorem IsSafe.nearestMagnitude_lt {r : Ratio} (h : l.IsSafe)
    (hr : r.toRat = l.digits * 10 ^ l.power) : nearestMagnitude r < 2047 * exponentWeight := by
  have hle : r.toRat ≤ (10 ^ largestPower : Nat) := by
    rw [hr]
    cases h with
    | integer hf he hd =>
        rw [power_of_integer hf he, zpow_zero, mul_one]
        exact_mod_cast hd.le.trans (le_trans (by decide) (pow_ten_le (k := 20) (by decide)))
    | scaled hd hlow hhigh =>
        have hdigits : (l.digits : ℚ) ≤ 10 ^ 17 := by
          exact_mod_cast hd.le.trans (by decide)
        have hpower : (10 : ℚ) ^ l.power ≤ 10 ^ (22 : ℤ) :=
          zpow_le_zpow_right₀ (by norm_num) hhigh
        have hlargest : ((10 ^ 39 : Nat) : ℚ) ≤ (10 ^ largestPower : Nat) := by
          exact_mod_cast pow_ten_le (k := 39) (by decide)
        refine le_trans ?_ hlargest
        calc (l.digits : ℚ) * 10 ^ l.power ≤ 10 ^ 17 * 10 ^ (22 : ℤ) :=
              mul_le_mul hdigits hpower (zpow_nonneg (by norm_num) _) (by norm_num)
          _ = (10 ^ 39 : Nat) := by norm_num
  refine Binary64.nearestMagnitude_lt ?_
  calc position r = r.toRat * unitsInOne := rfl
    _ ≤ (10 ^ largestPower : Nat) * unitsInOne :=
        mul_le_mul_of_nonneg_right hle (Nat.cast_nonneg _)
    _ ≤ largestUnits := by exact_mod_cast largestPower_bounds.1

end Literal

/-! ## Reading -/

/-- A source that is one float node, with any blanks, and the payload in it. -/
def FloatDocument (source : String) (payload : List Char) : Prop :=
  Document (fun node payload => TaggedText "Float" payload node) source payload

/-- The fault of the payload of a float node is the fault of the node. -/
theorem on_expr_of_float_fault {c m k d : Cursor} {key : List Char} {fault : Fault}
    (hkey : StringText key "Float") (hs : skipBlanks.Reads c () m)
    (hx : m.rest.head? = some '\x7b') (hc : Crosses m.next [key, [':']] k)
    (h : float.on k = (.error fault, d)) : expr.on c = (.error fault, d) := by
  obtain ⟨bound, hbound⟩ := exists_length_of_valueStart (reads_valueStart.2 ⟨hs, hx⟩)
  let parts : NodeReaders := ⟨exprWithin bound, typeSpecWithin bound⟩
  have hnames : ((exprVariants parts).map (·.name)).Nodup := by simp [exprVariants, fielded]
  have hfloat : ⟨"Float", .value (.float <$> float)⟩ ∈ exprVariants parts := by
    simp [exprVariants]
  have hpayload : (Expr.float <$> float).on k = (.error fault, d) := by
    rw [map_eq_pure_bind, on_bind_of_fault h]
  rw [expr, on_remaining_bind, hbound]
  change (oneOf (exprVariants parts)).on c = _
  rw [on_oneOf_of_tagged hnames hfloat hkey hs hx hc]
  exact on_bind_of_fault hpayload

/-- A source is refused for a payload that is too large. -/
theorem FloatDocument.refused {source : String} {text : List Char} {l : Literal} {left : Nat}
    (h : FloatDocument source text) (hl : LiteralText text l) (hvalue : l.value = .error left) :
    ∃ place, Expr.ofJson source = .error ⟨.numberOutOfRange, some place⟩ := by
  obtain ⟨before, node, after, hsource, hb, -, htagged⟩ := h
  let e : Cursor := ⟨after, 0 + Text.byteLength (before ++ node)⟩
  have hpass : (Cursor.start source).Passes (before ++ node) e := ⟨hsource, rfl⟩
  obtain ⟨start, hstart, hnode⟩ := Cursor.passes_append.1 hpass
  obtain ⟨key, m, hkey, hs, hx, hm⟩ := crosses_tagged.1
    ⟨node, htagged, (crosses_of_passes hnode).of_blank hb hstart⟩
  obtain ⟨k, hname, hm⟩ := (@crosses_append _ _ [key, [':']] _).1 hm
  obtain ⟨d, hpayload, hclose⟩ := crosses_cons_iff.1 hm
  have hfloat := float_on_tooLarge hl hvalue hpayload
    (delimited_of_crosses (.inr (.inr rfl)) hclose)
  have hexpr := on_expr_of_float_fault hkey hs hx hname hfloat
  rw [Expr.ofJson, readDocument, document, on_bind_of_fault hexpr]
  exact ⟨_, rfl⟩

section ShiftedOne

variable {n : Nat}

end ShiftedOne

end Json

end SyntaxTree
