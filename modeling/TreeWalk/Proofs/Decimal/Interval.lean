import Mathlib.Algebra.Order.Field.Power
import Mathlib.Data.Nat.Cast.Order.Field
import Mathlib.Order.Compare
import Mathlib.Tactic.Linarith
import Mathlib.Tactic.Positivity
import Mathlib.Tactic.Ring
import TreeWalk.Decimal.Binary

namespace TreeWalk.Decimal

/-- The number that a decimal stands for. -/
def Digits.value (d : Digits) : ℚ := d.digits * 10 ^ d.exponent

section Comparison

theorem zpow_mul_toNat {b : ℚ} (hb : b ≠ 0) (e : ℤ) : b ^ e * b ^ (-e).toNat = b ^ e.toNat := by
  rw [← zpow_natCast, ← zpow_natCast, ← zpow_add₀ hb]
  congr 1
  omega

theorem compareScaled_eq (n : ℕ) (e : ℤ) (m : ℕ) (q : ℤ) :
    compareScaled n e m q = compare ((n : ℚ) * 10 ^ e) (m * 2 ^ q) := by
  have hscale : (0 : ℚ) < 2 ^ (-q).toNat * 10 ^ (-e).toNat := by positivity
  have hleft : (n : ℚ) * 10 ^ e * (2 ^ (-q).toNat * 10 ^ (-e).toNat) =
      (n * Nat.pow 10 e.toNat * Nat.pow 2 (-q).toNat : ℕ) := by
    have h10 := zpow_mul_toNat (b := 10) (by norm_num) e
    simp only [Nat.pow_eq, Nat.cast_mul, Nat.cast_pow, Nat.cast_ofNat]
    calc (n : ℚ) * 10 ^ e * (2 ^ (-q).toNat * 10 ^ (-e).toNat)
        = n * (10 ^ e * 10 ^ (-e).toNat) * 2 ^ (-q).toNat := by ring
      _ = n * 10 ^ e.toNat * 2 ^ (-q).toNat := by rw [h10]
  have hright : (m : ℚ) * 2 ^ q * (2 ^ (-q).toNat * 10 ^ (-e).toNat) =
      (m * Nat.pow 2 q.toNat * Nat.pow 10 (-e).toNat : ℕ) := by
    have h2 := zpow_mul_toNat (b := 2) (by norm_num) q
    simp only [Nat.pow_eq, Nat.cast_mul, Nat.cast_pow, Nat.cast_ofNat]
    calc (m : ℚ) * 2 ^ q * (2 ^ (-q).toNat * 10 ^ (-e).toNat)
        = m * (2 ^ q * 2 ^ (-q).toNat) * 10 ^ (-e).toNat := by ring
      _ = m * 2 ^ q.toNat * 10 ^ (-e).toNat := by rw [h2]
  rw [compareScaled, ← cmp_eq_compare, ← cmp_eq_compare, ← cmp_mul_pos_right hscale, hleft, hright,
    Nat.strictMono_cast.cmp_map_eq]

end Comparison

namespace Binary

def value (x : Binary) : ℚ := x.m * 2 ^ x.q

/-- The midpoint to the number below. -/
def low (x : Binary) : ℚ := (if x.narrowBelow then 4 * x.m - 1 else 4 * x.m - 2 : ℕ) * 2 ^ (x.q - 2)

def high (x : Binary) : ℚ := (4 * x.m + 2 : ℕ) * 2 ^ (x.q - 2)

/-- The numbers that round to `x`. -/
def Rounds (x : Binary) (v : ℚ) : Prop :=
  (x.low < v ∨ x.m % 2 = 0 ∧ v = x.low) ∧ (v < x.high ∨ x.m % 2 = 0 ∧ v = x.high)

theorem readsBack_iff (x : Binary) (d : Digits) : x.readsBack d = true ↔ x.Rounds d.value := by
  simp only [readsBack, compareScaled_eq, Rounds, low, high, Digits.value, Bool.and_eq_true,
    Bool.or_eq_true, beq_iff_eq, compare_gt_iff_gt, compare_lt_iff_lt, compare_eq_iff_eq]

section Bounds

variable (x : Binary)

theorem low_lt_high : x.low < x.high := by
  have hp : (0 : ℚ) < 2 ^ (x.q - 2) := by positivity
  have hlt : (if x.narrowBelow then 4 * x.m - 1 else 4 * x.m - 2) < 4 * x.m + 2 := by split <;> omega
  exact (mul_lt_mul_iff_left₀ hp).mpr (by exact_mod_cast hlt)

theorem Rounds.low_le {x : Binary} {v : ℚ} (h : x.Rounds v) : x.low ≤ v :=
  h.1.elim le_of_lt fun h ↦ h.2.ge

theorem Rounds.le_high {x : Binary} {v : ℚ} (h : x.Rounds v) : v ≤ x.high :=
  h.2.elim le_of_lt fun h ↦ h.2.le

theorem rounds_value : x.Rounds x.value := by
  have hp : (0 : ℚ) < 2 ^ (x.q - 2) := by positivity
  have hvalue : x.value = (4 * x.m : ℕ) * 2 ^ (x.q - 2) := by
    rw [value, zpow_sub₀ (by norm_num : (2 : ℚ) ≠ 0)]
    push_cast
    ring
  constructor
  · rcases Nat.eq_zero_or_pos x.m with hzero | hpos
    · refine .inr ⟨by omega, ?_⟩
      rw [hvalue, low, hzero]
      simp
    · have hlt : (if x.narrowBelow then 4 * x.m - 1 else 4 * x.m - 2) < 4 * x.m := by split <;> omega
      rw [hvalue]
      exact .inl ((mul_lt_mul_iff_left₀ hp).mpr (by exact_mod_cast hlt))
  · rw [hvalue]
    exact .inl ((mul_lt_mul_iff_left₀ hp).mpr (by exact_mod_cast (by omega : 4 * x.m < 4 * x.m + 2)))

end Bounds

def ofFields (field fraction : ℕ) : Binary :=
  if field = 0 then ⟨fraction, -1074, false⟩
  else ⟨2 ^ 52 + fraction, field - 1075, fraction = 0 && field > 1⟩

/-- The finite numbers without their signs, in order. -/
def ofMagnitude (n : ℕ) : Binary := ofFields (n / 2 ^ 52) (n % 2 ^ 52)

theorem ofBits_eq (b : UInt64) : ofBits b = ofMagnitude (b.toNat % 2 ^ 63) := by
  have hfield : b.toNat % 2 ^ 63 / 2 ^ 52 = b.toNat / 2 ^ 52 % 2 ^ 11 := by omega
  have hfraction : b.toNat % 2 ^ 63 % 2 ^ 52 = b.toNat % 2 ^ 52 := by omega
  rw [ofMagnitude, hfield, hfraction]
  rfl

theorem parity_ofMagnitude (n : ℕ) : (ofMagnitude n).m % 2 = n % 2 := by
  unfold ofMagnitude ofFields
  split
  · dsimp only
    omega
  · dsimp only
    omega

section Borders

variable (field fraction : ℕ)

theorem high_ofFields : (ofFields field fraction).high = (ofFields field (fraction + 1)).low := by
  cases field with
  | zero =>
    have h : 4 * (fraction + 1) - 2 = 4 * fraction + 2 := by omega
    simp [ofFields, high, low, h]
  | succ field =>
    have h : 4 * (2 ^ 52 + (fraction + 1)) - 2 = 4 * (2 ^ 52 + fraction) + 2 := by omega
    simp [ofFields, high, low, -Nat.reducePow, h]

/-- The fraction carries into the exponent. From the second exponent on the gap below is half as wide. -/
theorem low_carry : (ofFields field (2 ^ 52)).low = (ofFields (field + 1) 0).low := by
  cases field with
  | zero => simp [ofFields, low]
  | succ field =>
    have hdouble : (2 : ℚ) ^ ((field : ℤ) + 1 + 1 - 1075 - 2) = 2 * 2 ^ ((field : ℤ) + 1 - 1075 - 2) := by
      rw [← zpow_one_add₀ (by norm_num)]
      congr 1
      ring
    simp [ofFields, low, hdouble]
    ring

end Borders

theorem high_ofMagnitude (n : ℕ) : (ofMagnitude n).high = (ofMagnitude (n + 1)).low := by
  rw [ofMagnitude, high_ofFields, ofMagnitude]
  by_cases hlast : n % 2 ^ 52 + 1 = 2 ^ 52
  · have hfraction : (n + 1) % 2 ^ 52 = 0 := by omega
    have hfield : (n + 1) / 2 ^ 52 = n / 2 ^ 52 + 1 := by omega
    rw [hlast, low_carry, hfraction, hfield]
  · have hfraction : (n + 1) % 2 ^ 52 = n % 2 ^ 52 + 1 := by omega
    have hfield : (n + 1) / 2 ^ 52 = n / 2 ^ 52 := by omega
    rw [hfraction, hfield]

theorem low_strictMono : StrictMono fun n ↦ (ofMagnitude n).low :=
  strictMono_nat_of_lt_succ fun n ↦ high_ofMagnitude n ▸ low_lt_high _

theorem Rounds.not_lt {n n' : ℕ} {v : ℚ} (h : (ofMagnitude n).Rounds v)
    (h' : (ofMagnitude n').Rounds v) : ¬ n < n' := by
  intro hlt
  have hnext : (ofMagnitude n).high ≤ (ofMagnitude n').low := by
    rw [high_ofMagnitude]
    exact low_strictMono.monotone hlt
  have hv := h.le_high
  have hv' := h'.low_le
  have heven : n % 2 = 0 := by
    rw [← parity_ofMagnitude]
    exact (h.2.resolve_left (by linarith)).1
  have heven' : n' % 2 = 0 := by
    rw [← parity_ofMagnitude]
    exact (h'.1.resolve_left (by linarith)).1
  have hbetween : (ofMagnitude n).high < (ofMagnitude n').low := by
    rw [high_ofMagnitude]
    exact low_strictMono (by omega : n + 1 < n')
  linarith

/-- A number rounds to one double only. -/
theorem Rounds.unique {n n' : ℕ} {v : ℚ} (h : (ofMagnitude n).Rounds v)
    (h' : (ofMagnitude n').Rounds v) : n = n' :=
  Nat.le_antisymm (Nat.le_of_not_lt (h'.not_lt h)) (Nat.le_of_not_lt (h.not_lt h'))

end Binary

end TreeWalk.Decimal
