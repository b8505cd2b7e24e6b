/-! # Nonnegative ratios

Exact nonnegative fractions of natural numbers, unreduced. They carry the exact values between a
binary number and a decimal one: rounding to the nearest integer, and the order of magnitude in
base ten. -/

namespace SyntaxTree

/-- A fraction with a positive denominator. -/
structure Ratio where
  num : Nat
  den : Nat
  den_pos : 0 < den := by decide

namespace Ratio

/-- The whole number `n`. -/
def ofNat (n : Nat) : Ratio := ⟨n, 1, Nat.one_pos⟩

/-- The exact product. -/
def mul (r s : Ratio) : Ratio :=
  ⟨r.num * s.num, r.den * s.den, Nat.mul_pos r.den_pos s.den_pos⟩

/-- The exact quotient by a positive ratio. -/
def div (r s : Ratio) (hs : 0 < s.num) : Ratio :=
  ⟨r.num * s.den, r.den * s.num, Nat.mul_pos r.den_pos hs⟩

/-- `r` times the power `10 ^ e`, whose exponent may be negative. -/
def timesPowTen (r : Ratio) (e : Int) : Ratio :=
  ⟨r.num * Nat.pow 10 e.toNat, r.den * Nat.pow 10 (-e).toNat,
    Nat.mul_pos r.den_pos (Nat.pow_pos (by decide))⟩

/-- The order of the values, by cross multiplication. -/
def le (r s : Ratio) : Prop := r.num * s.den ≤ s.num * r.den

instance : LE Ratio := ⟨le⟩

instance (r s : Ratio) : Decidable (r ≤ s) :=
  inferInstanceAs (Decidable (r.num * s.den ≤ s.num * r.den))

/-- The whole part. -/
def floor (r : Ratio) : Nat := r.num / r.den

/-- The nearest natural number; of two that are equally near, the even one. -/
def nearest (r : Ratio) : Nat :=
  let below := r.num / r.den
  let rest := r.num % r.den
  if 2 * rest < r.den then below
  else if r.den < 2 * rest then below + 1
  else below + below % 2

/-- The exponent of the largest power of ten that is at most `r`, when `r` is positive. The digit
counts of the two terms leave two candidates, and one comparison decides. -/
def floorLogTen (r : Ratio) : Int :=
  let guess : Int := (Nat.toDigits 10 r.num).length - (Nat.toDigits 10 r.den).length
  if (ofNat 1).timesPowTen guess ≤ r then guess else guess - 1

theorem le_def (r s : Ratio) : r ≤ s ↔ r.num * s.den ≤ s.num * r.den := Iff.rfl

/-- Rounding moves a ratio by at most one half. -/
theorem nearest_near (r : Ratio) :
    2 * r.num ≤ (2 * r.nearest + 1) * r.den ∧ 2 * (r.nearest * r.den) ≤ 2 * r.num + r.den := by
  have hd := Nat.div_add_mod r.num r.den
  have hr := Nat.mod_lt r.num r.den_pos
  have hc : r.den * (r.num / r.den) = r.num / r.den * r.den := Nat.mul_comm _ _
  unfold nearest
  simp only []
  generalize hq : r.num / r.den = q at *
  generalize hm : r.num % r.den = m at *
  split
  · constructor <;> grind
  · split
    · constructor <;> grind
    · have h2 : q % 2 = 0 ∨ q % 2 = 1 := by omega
      rcases h2 with h | h <;> rw [h] <;> constructor <;> grind

end Ratio

end SyntaxTree
