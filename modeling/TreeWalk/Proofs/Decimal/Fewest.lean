import Mathlib.Algebra.Order.Floor.Semifield
import Mathlib.Data.Rat.Floor
import TreeWalk.Proofs.Decimal.Nearest
import TreeWalk.Proofs.Decimal.Notation

namespace TreeWalk.Decimal

section Estimate

variable {N P : ℕ} (hlow : Nat.pow 2 N ≤ Nat.pow 10 P) (hhigh : Nat.pow 10 P ≤ Nat.pow 2 N * 2)
include hlow hhigh

theorem pow_zpow_bounds (L : ℤ) :
    (2 : ℚ) ^ (N * L - |L|) ≤ (10 ^ P) ^ L ∧ ((10 : ℚ) ^ P) ^ L ≤ 2 ^ (N * L + |L|) := by
  have hlow' : (2 : ℚ) ^ N ≤ 10 ^ P := by exact_mod_cast hlow
  have hhigh' : (10 : ℚ) ^ P ≤ 2 ^ (N + 1) := by
    rw [pow_succ]
    exact_mod_cast hhigh
  have hpower (j : ℕ) : (2 : ℚ) ^ (N * j) ≤ (10 ^ P) ^ j ∧ ((10 : ℚ) ^ P) ^ j ≤ 2 ^ (N * j + j) := by
    refine ⟨?_, ?_⟩
    · rw [pow_mul]
      exact pow_le_pow_left₀ (by positivity) hlow' j
    · rw [← Nat.succ_mul, pow_mul]
      exact pow_le_pow_left₀ (by positivity) hhigh' j
  rcases Int.eq_nat_or_neg L with ⟨j, rfl | rfl⟩
  · obtain ⟨hbelow, habove⟩ := hpower j
    rw [abs_of_nonneg (by positivity), zpow_natCast]
    refine ⟨le_trans ?_ hbelow, habove.trans_eq ?_⟩
    · rw [← zpow_natCast]
      exact zpow_le_zpow_right₀ (by norm_num) (by push_cast; omega)
    · rw [← zpow_natCast]
      push_cast
      rfl
  · obtain ⟨hbelow, habove⟩ := hpower j
    rw [abs_neg, abs_of_nonneg (by positivity), zpow_neg, zpow_natCast]
    refine ⟨?_, ?_⟩
    · refine le_trans (le_of_eq ?_) (inv_anti₀ (by positivity) habove)
      rw [← zpow_natCast, ← zpow_neg]
      congr 1
      push_cast
      ring
    · refine (inv_anti₀ (by positivity) hbelow).trans ?_
      rw [← zpow_natCast, ← zpow_neg]
      exact zpow_le_zpow_right₀ (by norm_num) (by push_cast; rw [mul_neg]; omega)

theorem ten_zpow_le {L k : ℤ} (hN : N ≠ 0) (hL : |L| ≤ N) (hk : k * N + N ≤ P * L) :
    (10 : ℚ) ^ k ≤ 2 ^ L := by
  rw [← pow_le_pow_iff_left₀ (by positivity) (by positivity) hN]
  calc ((10 : ℚ) ^ k) ^ N = 10 ^ (k * N) := by rw [zpow_mul, zpow_natCast]
    _ ≤ 10 ^ (P * L + -N) := zpow_le_zpow_right₀ (by norm_num) (by omega)
    _ = (10 ^ P) ^ L * (10 ^ N)⁻¹ := by
      rw [zpow_add₀ (by norm_num), zpow_mul, zpow_natCast, zpow_neg, zpow_natCast]
    _ ≤ 2 ^ (N * L + |L|) * (2 ^ N)⁻¹ := by
      have hbound := (pow_zpow_bounds hlow hhigh L).2
      have hten : (2 : ℚ) ^ N ≤ 10 ^ N := pow_le_pow_left₀ (by norm_num) (by norm_num) N
      gcongr
    _ = 2 ^ (N * L + |L| + -N) := by rw [zpow_add₀ (by norm_num) _ (-N : ℤ), zpow_neg, zpow_natCast]
    _ ≤ 2 ^ (L * N) := zpow_le_zpow_right₀ (by norm_num) (by rw [mul_comm L]; omega)
    _ = (2 ^ L) ^ N := by rw [zpow_mul, zpow_natCast]

theorem two_zpow_le {L k : ℤ} (hN : N ≠ 0) (hL : |L| ≤ N) (hk : P * L + N ≤ k * N) :
    (2 : ℚ) ^ (L + 1) ≤ 10 ^ k := by
  rw [← pow_le_pow_iff_left₀ (by positivity) (by positivity) hN]
  calc ((2 : ℚ) ^ (L + 1)) ^ N = 2 ^ ((L + 1) * N) := by rw [zpow_mul, zpow_natCast]
    _ ≤ 2 ^ (N * L - |L| + (2 * N : ℕ)) :=
      zpow_le_zpow_right₀ (by norm_num) (by rw [add_mul, mul_comm L]; push_cast; omega)
    _ = 2 ^ (N * L - |L|) * 4 ^ N := by
      rw [zpow_add₀ (by norm_num), zpow_natCast, pow_mul]
      norm_num
    _ ≤ (10 ^ P) ^ L * 10 ^ N := by
      have hbound := (pow_zpow_bounds hlow hhigh L).1
      gcongr
      norm_num
    _ = 10 ^ (P * L + N) := by rw [zpow_add₀ (by norm_num), zpow_mul, zpow_natCast, zpow_natCast]
    _ ≤ 10 ^ (k * N) := zpow_le_zpow_right₀ (by norm_num) hk
    _ = (10 ^ k) ^ N := by rw [zpow_mul, zpow_natCast]

end Estimate

namespace Binary

/-- A finite double other than zero, without its sign. -/
structure Proper (x : Binary) : Prop where
  pos : 0 < x.m
  lt : x.m < 2 ^ 53
  narrow : x.narrowBelow = true → x.m = 2 ^ 52
  least : -1074 ≤ x.q
  greatest : x.q ≤ 971

theorem proper_ofMagnitude {n : ℕ} (hpos : 0 < n) (hn : n < 0x7FF * 2 ^ 52) : (ofMagnitude n).Proper := by
  unfold ofMagnitude ofFields
  split
  · exact ⟨by dsimp only; omega, by dsimp only; omega, by simp, by simp, by simp⟩
  · refine ⟨by dsimp only; omega, by dsimp only; omega, fun h ↦ ?_, by dsimp only; omega, by dsimp only; omega⟩
    simp only [Bool.and_eq_true, decide_eq_true_eq] at h
    dsimp only
    omega

section Scale

theorem logarithm_low : Nat.pow 2 100000 ≤ Nat.pow 10 30103 := by decide +kernel

theorem logarithm_high : Nat.pow 10 30103 ≤ Nat.pow 2 100000 * 2 := by decide +kernel

variable {x : Binary} (hx : x.Proper)
include hx

theorem log_bounds : (2 : ℚ) ^ (x.m.log2 + x.q) ≤ x.value ∧ x.value < 2 ^ (x.m.log2 + x.q + 1) := by
  have hunit : (0 : ℚ) < 2 ^ x.q := by positivity
  have hle : (2 : ℚ) ^ x.m.log2 ≤ x.m := by exact_mod_cast Nat.log2_self_le (Nat.pos_iff_ne_zero.mp hx.pos)
  have hlt : (x.m : ℚ) < 2 ^ (x.m.log2 + 1) := by exact_mod_cast Nat.lt_log2_self
  constructor
  · rw [zpow_add₀ (by norm_num), zpow_natCast]
    exact mul_le_mul_of_nonneg_right hle hunit.le
  · rw [add_right_comm, zpow_add₀ (by norm_num), ← Nat.cast_succ, zpow_natCast]
    exact mul_lt_mul_of_pos_right hlt hunit

theorem log_le : |x.m.log2 + x.q| ≤ (100000 : ℕ) := by
  have hlog : x.m.log2 < 53 := (Nat.log2_lt (Nat.pos_iff_ne_zero.mp hx.pos)).mpr hx.lt
  have hleast := hx.least
  have hgreatest := hx.greatest
  rw [abs_le]
  push_cast
  omega

/-- The scale is where the number has its first digit. -/
theorem scale_bounds : (10 : ℚ) ^ (x.scale - 1) ≤ x.value ∧ x.value < 10 ^ x.scale := by
  have hexceeds (k : ℤ) : (compareScaled 1 k x.m x.q == .gt) = true ↔ x.value < 10 ^ k := by
    rw [compareScaled_eq, beq_iff_eq, compare_gt_iff_gt, Nat.cast_one, one_mul]
    rfl
  obtain ⟨hlow, hhigh⟩ := log_bounds hx
  have hlog := log_le hx
  unfold scale
  dsimp only
  generalize hL : (x.m.log2 : ℤ) + x.q = L at *
  split
  · next h =>
    refine ⟨le_trans ?_ hlow, (hexceeds _).mp h⟩
    exact ten_zpow_le logarithm_low logarithm_high (by decide) hlog (by push_cast; omega)
  split
  · next h h' =>
    rw [add_sub_cancel_right]
    exact ⟨not_lt.mp fun hlt ↦ h ((hexceeds _).mpr hlt), (hexceeds _).mp h'⟩
  · next h =>
    refine ⟨?_, lt_of_lt_of_le hhigh ?_⟩
    · rw [show L * 30103 / 100000 + 2 - 1 = L * 30103 / 100000 + 1 by ring]
      exact not_lt.mp fun hlt ↦ h ((hexceeds _).mpr hlt)
    · exact two_zpow_le logarithm_low logarithm_high (by decide) hlog (by push_cast; omega)

end Scale

section Grid

variable {x : Binary} {e : ℤ} {u v w : ℚ} {d : Digits}

theorem Rounds.between (hu : x.Rounds u) (hw : x.Rounds w) (huv : u ≤ v) (hvw : v ≤ w) : x.Rounds v := by
  rcases eq_or_lt_of_le huv with rfl | huv
  · exact hu
  rcases eq_or_lt_of_le hvw with rfl | hvw
  · exact hw
  exact ⟨.inl (lt_of_le_of_lt hu.low_le huv), .inl (lt_of_lt_of_le hvw hw.le_high)⟩

theorem floorAt_bounds (x : Binary) (e : ℤ) :
    x.floorAt e * (10 : ℚ) ^ e ≤ x.value ∧ x.value < (x.floorAt e + 1) * 10 ^ e := by
  have h10 := zpow_mul_toNat (b := 10) (by norm_num) e
  have h2 := zpow_mul_toNat (b := 2) (by norm_num) x.q
  have hgrid : (0 : ℚ) < 10 ^ e := by positivity
  have hten : (0 : ℚ) < 10 ^ (-e).toNat := by positivity
  have htwo : (0 : ℚ) < 2 ^ (-x.q).toNat := by positivity
  have hquotient : x.value / 10 ^ e = (x.m * Nat.pow 2 x.q.toNat * Nat.pow 10 (-e).toNat : ℕ) /
      (Nat.pow 10 e.toNat * Nat.pow 2 (-x.q).toNat : ℕ) := by
    simp only [Nat.pow_eq, Nat.cast_mul, Nat.cast_pow, Nat.cast_ofNat]
    rw [← h10, ← h2, value, div_eq_div_iff hgrid.ne' (by positivity)]
    ring
  have hfloor := Nat.floor_div_eq_div (K := ℚ) (x.m * Nat.pow 2 x.q.toNat * Nat.pow 10 (-e).toNat)
    (Nat.pow 10 e.toNat * Nat.pow 2 (-x.q).toNat)
  rw [← hquotient] at hfloor
  rw [floorAt, ← hfloor, ← le_div_iff₀ hgrid, ← div_lt_iff₀ hgrid]
  refine ⟨Nat.floor_le ?_, Nat.lt_floor_add_one _⟩
  rw [hquotient]
  positivity

/-- Not between the two neighbours of the number on a grid. -/
def Outside (x : Binary) (e : ℤ) (v : ℚ) : Prop :=
  v ≤ x.floorAt e * 10 ^ e ∨ (x.floorAt e + 1) * 10 ^ e ≤ v

/-- What rounds to the double from outside of its neighbours on the grid makes one of them round to it. -/
theorem Rounds.neighbour (hv : x.Rounds v) (hout : x.Outside e v) :
    x.Rounds (x.floorAt e * 10 ^ e) ∨ x.Rounds ((x.floorAt e + 1) * 10 ^ e) := by
  obtain ⟨hlow, hhigh⟩ := x.floorAt_bounds e
  refine hout.imp (fun h ↦ ?_) fun h ↦ ?_
  · exact hv.between x.rounds_value h hlow
  · exact x.rounds_value.between hv hhigh.le h

theorem near_low (h : ¬ x.Rounds ((x.floorAt e + 1) * 10 ^ e) ∨ 2 * x.value ≤ (2 * x.floorAt e + 1) * 10 ^ e)
    (hv : x.Rounds v) (hout : x.Outside e v) : |x.floorAt e * 10 ^ e - x.value| ≤ |v - x.value| := by
  obtain ⟨hlow, hhigh⟩ := x.floorAt_bounds e
  rw [abs_of_nonpos (by linarith : x.floorAt e * 10 ^ e - x.value ≤ 0)]
  rcases hout with hbelow | habove
  · rw [abs_of_nonpos (by linarith)]
    linarith
  · have hnear := h.resolve_left fun hnot ↦ hnot (x.rounds_value.between hv hhigh.le habove)
    rw [abs_of_nonneg (by linarith)]
    linarith

theorem near_high (h : ¬ x.Rounds (x.floorAt e * 10 ^ e) ∨ (2 * x.floorAt e + 1) * 10 ^ e ≤ 2 * x.value)
    (hv : x.Rounds v) (hout : x.Outside e v) :
    |(x.floorAt e + 1) * 10 ^ e - x.value| ≤ |v - x.value| := by
  obtain ⟨hlow, hhigh⟩ := x.floorAt_bounds e
  rw [abs_of_nonneg (by linarith : 0 ≤ (x.floorAt e + 1) * 10 ^ e - x.value)]
  rcases hout with hbelow | habove
  · have hnear := h.resolve_left fun hnot ↦ hnot (hv.between x.rounds_value hbelow hlow)
    rw [abs_of_nonpos (by linarith)]
    linarith
  · rw [abs_of_nonneg (by linarith)]
    linarith

theorem outside_of_digits {i : ℕ} (hfirst : (10 : ℚ) ^ (e + i) ≤ x.value) (hd : d.digits < 10 ^ (i + 1)) :
    x.Outside e d.value := by
  have hgrid : (0 : ℚ) < 10 ^ e := by positivity
  obtain ⟨-, hhigh⟩ := x.floorAt_bounds e
  rcases le_or_gt e d.exponent with hexponent | hexponent
  · obtain ⟨k, hk⟩ := Int.le.dest hexponent
    have hpoint : d.value = (d.digits * 10 ^ k : ℕ) * 10 ^ e := by
      rw [Digits.value, ← hk, zpow_add₀ (by norm_num), zpow_natCast]
      push_cast
      ring
    rw [Outside, hpoint, mul_le_mul_iff_left₀ hgrid, mul_le_mul_iff_left₀ hgrid]
    norm_cast
    omega
  · refine .inl ?_
    have hdigits : (d.digits : ℚ) ≤ 10 ^ (i + 1) := by exact_mod_cast hd.le
    have hfloor : 10 ^ i ≤ x.floorAt e := by
      rw [zpow_add₀ (by norm_num), zpow_natCast, mul_comm] at hfirst
      have hless := lt_of_mul_lt_mul_right (lt_of_le_of_lt hfirst hhigh) hgrid.le
      exact Nat.le_of_lt_succ (by exact_mod_cast hless)
    calc d.value = d.digits * 10 ^ d.exponent := rfl
      _ ≤ 10 ^ (i + 1) * 10 ^ (e - 1) := by
        gcongr
        · norm_num
        · omega
      _ = 10 ^ i * 10 ^ e := by
        rw [pow_succ, mul_assoc, ← zpow_one_add₀ (by norm_num)]
        congr 2
        ring
      _ ≤ x.floorAt e * 10 ^ e := by
        gcongr
        exact_mod_cast hfloor

theorem atGrid?_cases (x : Binary) (e : ℤ) :
    x.atGrid? e = some ⟨x.floorAt e, e⟩ ∧
        (¬ x.Rounds ((x.floorAt e + 1) * 10 ^ e) ∨ 2 * x.value ≤ (2 * x.floorAt e + 1) * 10 ^ e) ∨
      x.atGrid? e = some ⟨x.floorAt e + 1, e⟩ ∧
        (¬ x.Rounds (x.floorAt e * 10 ^ e) ∨ (2 * x.floorAt e + 1) * 10 ^ e ≤ 2 * x.value) ∨
      x.atGrid? e = none ∧
        ¬ x.Rounds (x.floorAt e * 10 ^ e) ∧ ¬ x.Rounds ((x.floorAt e + 1) * 10 ^ e) := by
  have hlow := x.readsBack_iff ⟨x.floorAt e, e⟩
  have hhigh := x.readsBack_iff ⟨x.floorAt e + 1, e⟩
  simp only [Digits.value, Nat.cast_add, Nat.cast_one] at hlow hhigh
  have hcompare : compareScaled (2 * x.floorAt e + 1) e (2 * x.m) x.q =
      compare ((2 * x.floorAt e + 1) * (10 : ℚ) ^ e) (2 * x.value) := by
    rw [compareScaled_eq, value]
    push_cast
    rw [mul_assoc 2 (x.m : ℚ)]
  unfold atGrid?
  dsimp only
  rw [hcompare, ← hlow, ← hhigh]
  generalize x.floorAt e = n
  cases x.readsBack ⟨n, e⟩ <;> cases x.readsBack ⟨n + 1, e⟩
  · simp
  · simp
  · simp
  · dsimp only
    rcases lt_trichotomy ((2 * n + 1) * (10 : ℚ) ^ e) (2 * x.value) with h | h | h
    · rw [compare_lt_iff_lt.mpr h]
      exact .inr (.inl ⟨rfl, .inr h.le⟩)
    · rw [compare_eq_iff_eq.mpr h]
      dsimp only
      split
      · exact .inl ⟨rfl, .inr h.ge⟩
      · exact .inr (.inl ⟨rfl, .inr h.le⟩)
    · rw [compare_gt_iff_gt.mpr h]
      exact .inl ⟨rfl, .inr h.le⟩

theorem atGrid?_eq_some (h : x.atGrid? e = some d) :
    d.digits ≤ x.floorAt e + 1 ∧
      ∀ v, x.Rounds v → x.Outside e v → |d.value - x.value| ≤ |v - x.value| := by
  rcases x.atGrid?_cases e with ⟨hlow, hnear⟩ | ⟨hhigh, hnear⟩ | ⟨hnone, -⟩
  · obtain rfl := Option.some.inj (h.symm.trans hlow)
    exact ⟨Nat.le_succ _, fun v hv hout ↦ near_low hnear hv hout⟩
  · obtain rfl := Option.some.inj (h.symm.trans hhigh)
    refine ⟨Nat.le_refl _, fun v hv hout ↦ ?_⟩
    rw [Digits.value, Nat.cast_succ]
    exact near_high hnear hv hout
  · cases h.symm.trans hnone

theorem atGrid?_eq_none (h : x.atGrid? e = none) (hv : x.Rounds v) : ¬ x.Outside e v := by
  intro hout
  rcases x.atGrid?_cases e with ⟨hlow, -⟩ | ⟨hhigh, -⟩ | ⟨-, hnot, hnot'⟩
  · cases h.symm.trans hlow
  · cases h.symm.trans hhigh
  · exact (hv.neighbour hout).elim hnot hnot'

end Grid

section Fewest

theorem exists_of_findSome?_range {α : Type} {f : ℕ → Option α} {n : ℕ} {a : α}
    (h : (List.range n).findSome? f = some a) : ∃ i < n, f i = some a ∧ ∀ j < i, f j = none := by
  obtain ⟨before, i, after, hrange, hi, hnone⟩ := List.findSome?_eq_some_iff.mp h
  have hlt : i < n := List.mem_range.mp (hrange ▸ by simp)
  have hsorted := List.pairwise_lt_range (n := n)
  rw [hrange, List.pairwise_append, List.pairwise_cons] at hsorted
  refine ⟨i, hlt, hi, fun j hj ↦ hnone j ?_⟩
  have hmem : j ∈ before ++ i :: after := hrange ▸ List.mem_range.mpr (hj.trans hlt)
  rcases List.mem_append.mp hmem with hbefore | hafter
  · exact hbefore
  · rcases List.mem_cons.mp hafter with rfl | hafter
    · exact absurd hj (Nat.lt_irrefl _)
    · exact absurd hj (Nat.lt_asymm (hsorted.2.1.1 j hafter))

variable {x : Binary} (hx : x.Proper)
include hx

theorem step_lt_width : (10 : ℚ) ^ (x.scale - 17) < x.high - x.low := by
  have hunit : (0 : ℚ) < 2 ^ (x.q - 2) := by positivity
  have hstep : (10 : ℚ) ^ (x.scale - 1) = 10 ^ 16 * 10 ^ (x.scale - 17) := by
    rw [← zpow_natCast, ← zpow_add₀ (by norm_num)]
    congr 1
    push_cast
    ring
  have hfirst := (scale_bounds hx).1
  rw [hstep, value, ← four_mul_zpow] at hfirst
  have hpos := hx.pos
  have hlt : (x.m : ℚ) < 2 ^ 53 := by exact_mod_cast hx.lt
  unfold high low
  cases hnarrow : x.narrowBelow with
  | true =>
    rw [if_pos rfl, Nat.cast_sub (by omega)]
    have hm : (x.m : ℚ) = 2 ^ 52 := by exact_mod_cast hx.narrow hnarrow
    rw [hm] at hfirst
    push_cast
    linarith
  | false =>
    rw [if_neg Bool.false_ne_true, Nat.cast_sub (by omega)]
    push_cast
    nlinarith

theorem atGrid?_seventeen : x.atGrid? (x.scale - 17) ≠ none := by
  intro hnone
  rcases x.atGrid?_cases (x.scale - 17) with ⟨hlow, -⟩ | ⟨hhigh, -⟩ | ⟨-, hnot, hnot'⟩
  · cases hnone.symm.trans hlow
  · cases hnone.symm.trans hhigh
  · obtain ⟨hfloor, hceiling⟩ := x.floorAt_bounds (x.scale - 17)
    have hwidth := step_lt_width hx
    have hbelow : x.floorAt (x.scale - 17) * 10 ^ (x.scale - 17) ≤ x.low := by
      refine not_lt.mp fun hlt ↦ hnot ?_
      rcases eq_or_lt_of_le hfloor with heq | hless
      · exact heq ▸ x.rounds_value
      · exact ⟨.inl hlt, .inl (lt_of_lt_of_le hless x.rounds_value.le_high)⟩
    have habove : x.high ≤ (x.floorAt (x.scale - 17) + 1) * 10 ^ (x.scale - 17) := by
      refine not_lt.mp fun hlt ↦ hnot' ?_
      exact ⟨.inl (lt_of_le_of_lt x.rounds_value.low_le hceiling), .inl hlt⟩
    linarith

/-- Seventeen digits suffice. -/
theorem exists_atGrid? : ∃ i : ℕ, i < 17 ∧ ∃ d, x.atGrid? (x.scale - i - 1) = some d ∧
    (∀ j : ℕ, j < i → x.atGrid? (x.scale - j - 1) = none) ∧ x.shortest = d.trim := by
  cases hfound : (List.range 17).findSome? fun (i : ℕ) ↦ x.atGrid? (x.scale - i - 1) with
  | none =>
    have hlast := List.findSome?_eq_none_iff.mp hfound 16 (by decide)
    rw [sub_sub] at hlast
    exact absurd hlast (atGrid?_seventeen hx)
  | some d =>
    obtain ⟨i, hi, hd, hnone⟩ := exists_of_findSome?_range hfound
    exact ⟨i, hi, d, hd, hnone, by rw [shortest, hfound, Option.getD_some]⟩

end Fewest

section Trim

theorem digits_go_le (fuel : ℕ) (d : Digits) : (Digits.trim.go fuel d).digits ≤ d.digits := by
  induction fuel generalizing d with
  | zero => exact Nat.le_refl _
  | succ fuel ih =>
    unfold Digits.trim.go
    split
    · exact (ih _).trans (Nat.div_le_self _ _)
    · exact Nat.le_refl _

theorem digits_trim_lt {d : Digits} {i : ℕ} (h : d.digits ≤ 10 ^ (i + 1)) : d.trim.digits < 10 ^ (i + 1) := by
  rcases Nat.lt_or_eq_of_le h with hlt | heq
  · exact Nat.lt_of_le_of_lt (digits_go_le _ _) hlt
  · have hpos : 0 < 10 ^ i := by positivity
    have hzero : d.digits ≠ 0 ∧ d.digits % 10 = 0 := by omega
    obtain ⟨fuel, hfuel⟩ : ∃ fuel, d.digits.log2 = fuel + 1 :=
      Nat.exists_eq_add_one.mpr ((Nat.le_log2 hzero.1).mpr (by omega))
    rw [Digits.trim, hfuel, Digits.trim.go, if_pos hzero]
    refine Nat.lt_of_le_of_lt (digits_go_le _ _) ?_
    dsimp only
    omega

end Trim

section Shortest

variable {x : Binary} (hx : x.Proper) {d : Digits} (hd : x.Rounds d.value)
include hx

theorem grid_scale (i : ℕ) : (10 : ℚ) ^ (x.scale - i - 1 + i) ≤ x.value := by
  rw [sub_right_comm, sub_add_cancel]
  exact (scale_bounds hx).1

theorem floorAt_lt (i : ℕ) : x.floorAt (x.scale - i - 1) < 10 ^ (i + 1) := by
  have hgrid : (0 : ℚ) < 10 ^ (x.scale - i - 1) := by positivity
  have hscale : (10 : ℚ) ^ x.scale = 10 ^ (i + 1) * 10 ^ (x.scale - i - 1) := by
    rw [← zpow_natCast, ← zpow_add₀ (by norm_num)]
    congr 1
    push_cast
    ring
  have hlt := lt_of_le_of_lt (x.floorAt_bounds (x.scale - i - 1)).1 (scale_bounds hx).2
  rw [hscale] at hlt
  exact_mod_cast lt_of_mul_lt_mul_right hlt hgrid.le

/-- What is taken has no more digits than there are on the grid. No coarser grid has anything, and nothing that
rounds to the double and has as many digits is nearer. -/
theorem exists_shortest : ∃ i : ℕ, (digitChars x.shortest.digits).length ≤ i + 1 ∧
    (∀ j < i, ∀ d : Digits, x.Rounds d.value → 10 ^ (j + 1) ≤ d.digits) ∧
    ∀ d : Digits, x.Rounds d.value → d.digits < 10 ^ (i + 1) →
      |x.shortest.value - x.value| ≤ |d.value - x.value| := by
  obtain ⟨i, -, found, hfound, hnone, hshortest⟩ := exists_atGrid? hx
  obtain ⟨hdigits, hclosest⟩ := atGrid?_eq_some hfound
  refine ⟨i, ?_, fun j hj d hd ↦ ?_, fun d hd hlt ↦ ?_⟩
  · rw [digitChars, Nat.length_toDigits_le_iff (by decide) i.succ_pos, hshortest]
    exact digits_trim_lt (hdigits.trans (floorAt_lt hx i))
  · refine Nat.le_of_not_lt fun hlt ↦ ?_
    exact atGrid?_eq_none (hnone j hj) hd (outside_of_digits (grid_scale hx j) hlt)
  · rw [hshortest, Digits.value_trim]
    exact hclosest _ hd (outside_of_digits (grid_scale hx i) hlt)

include hd

/-- No decimal that rounds to a double has fewer digits than the chosen one. -/
theorem length_shortest_le : (digitChars x.shortest.digits).length ≤ (digitChars d.digits).length := by
  obtain ⟨i, hlength, hcoarser, -⟩ := exists_shortest hx
  obtain ⟨j, hj⟩ : ∃ j, (digitChars d.digits).length = j + 1 :=
    Nat.exists_eq_add_one.mpr (List.length_pos_iff.mpr Nat.toDigits_ne_nil)
  have hdigits : d.digits < 10 ^ (j + 1) :=
    (Nat.length_toDigits_le_iff (by decide) j.succ_pos).mp hj.le
  rw [hj]
  refine hlength.trans (Nat.succ_le_succ (Nat.le_of_not_lt fun hlt ↦ ?_))
  exact absurd hdigits (Nat.not_lt.mpr (hcoarser j hlt d hd))

theorem shortest_closest (hle : (digitChars d.digits).length ≤ (digitChars x.shortest.digits).length) :
    |x.shortest.value - x.value| ≤ |d.value - x.value| := by
  obtain ⟨i, hlength, -, hclosest⟩ := exists_shortest hx
  exact hclosest d hd ((Nat.length_toDigits_le_iff (by decide) i.succ_pos).mp (hle.trans hlength))

end Shortest

end Binary

end TreeWalk.Decimal
