import TreeWalk.Proofs.Decimal.Interval

namespace TreeWalk.Decimal

namespace Binary

section Parts

variable {Q m : ℕ}

theorem ofMagnitude_parts (hm : m < 2 ^ 53) (h : Q = 0 ∨ 2 ^ 52 ≤ m) :
    (ofMagnitude (Q * 2 ^ 52 + m)).m = m ∧ (ofMagnitude (Q * 2 ^ 52 + m)).q = Q - 1074 := by
  unfold ofMagnitude ofFields
  split
  · dsimp only
    omega
  · dsimp only
    omega

theorem exists_parts (n : ℕ) :
    ∃ Q m, n = Q * 2 ^ 52 + m ∧ m < 2 ^ 53 ∧ (Q = 0 ∨ 2 ^ 52 ≤ m) :=
  ⟨n / 2 ^ 52 - 1, n - (n / 2 ^ 52 - 1) * 2 ^ 52, by omega, by omega, by omega⟩

theorem value_parts (hm : m ≤ 2 ^ 53) (h : Q = 0 ∨ 2 ^ 52 ≤ m) :
    (ofMagnitude (Q * 2 ^ 52 + m)).value = m * 2 ^ (Q - 1074 : ℤ) := by
  rcases Nat.lt_or_eq_of_le hm with hlt | rfl
  · obtain ⟨hsignificand, hexponent⟩ := ofMagnitude_parts hlt h
    rw [value, hsignificand, hexponent]
  · obtain ⟨hsignificand, hexponent⟩ := ofMagnitude_parts (Q := Q + 1) (m := 2 ^ 52) (by omega) (by omega)
    have hcarry : Q * 2 ^ 52 + 2 ^ 53 = (Q + 1) * 2 ^ 52 + 2 ^ 52 := by omega
    rw [hcarry, value, hsignificand, hexponent]
    push_cast
    rw [show (Q : ℤ) + 1 - 1074 = Q - 1074 + 1 by ring, zpow_add_one₀ (by norm_num)]
    ring

end Parts

theorem value_zero : (ofMagnitude 0).value = 0 := by
  simp [value, ofMagnitude, ofFields]

theorem four_mul_zpow (q : ℤ) : (4 : ℚ) * 2 ^ (q - 2) = 2 ^ q := by
  rw [zpow_sub₀ (by norm_num)]
  norm_num
  ring

/-- The numbers that round to one double end half way to the next. -/
theorem high_eq_mid (n : ℕ) :
    (ofMagnitude n).high = ((ofMagnitude n).value + (ofMagnitude (n + 1)).value) / 2 := by
  obtain ⟨Q, m, rfl, hm, h⟩ := exists_parts n
  obtain ⟨hsignificand, hexponent⟩ := ofMagnitude_parts hm h
  rw [Nat.add_assoc, value_parts (m := m) (by omega) h, value_parts (m := m + 1) (by omega) (by omega),
    high, hsignificand, hexponent, ← four_mul_zpow (Q - 1074)]
  push_cast
  ring

theorem value_strictMono : StrictMono fun n ↦ (ofMagnitude n).value := by
  refine strictMono_nat_of_lt_succ fun n ↦ ?_
  obtain ⟨Q, m, rfl, hm, h⟩ := exists_parts n
  have hunit : (0 : ℚ) < 2 ^ (Q - 1074 : ℤ) := by positivity
  rw [Nat.add_assoc, value_parts (m := m) (by omega) h, value_parts (m := m + 1) (by omega) (by omega)]
  push_cast
  linarith

/-- No number is nearer to `v`, and if another one is as near, `n` is even. There is no greatest number here:
what rounds past the greatest finite double rounds to one that would come behind it. -/
def Nearest (n : ℕ) (v : ℚ) : Prop :=
  ∀ k, |v - (ofMagnitude n).value| ≤ |v - (ofMagnitude k).value| ∧
    (|v - (ofMagnitude n).value| = |v - (ofMagnitude k).value| → k ≠ n → n % 2 = 0)

section Distance

variable {a b c v : ℚ}

theorem near_of_le_mid (hab : a < b) (hbc : b ≤ c) (h : v ≤ (a + b) / 2) :
    |v - a| ≤ |v - c| ∧ (|v - a| = |v - c| → v = (a + b) / 2) := by
  have hc : |v - c| = c - v := by
    rw [abs_of_nonpos (by linarith)]
    ring
  rw [hc]
  refine ⟨abs_le.mpr ⟨by linarith, by linarith⟩, fun heq ↦ ?_⟩
  rcases abs_cases (v - a) with ⟨habs, -⟩ | ⟨habs, -⟩ <;> linarith

theorem near_of_mid_le (hab : b < a) (hbc : c ≤ b) (h : (b + a) / 2 ≤ v) :
    |v - a| ≤ |v - c| ∧ (|v - a| = |v - c| → v = (b + a) / 2) := by
  have hmirror := near_of_le_mid (a := -a) (b := -b) (c := -c) (v := -v) (by linarith) (by linarith)
    (by linarith)
  rw [abs_sub_comm v a, abs_sub_comm v c, show a - v = -v - -a by ring, show c - v = -v - -c by ring]
  exact ⟨hmirror.1, fun heq ↦ by linarith [hmirror.2 heq]⟩

theorem nearer_between (hac : a < c) (hcb : c < b) (h : |v - a| = |v - b|) : |v - c| < |v - a| := by
  have hmid : v - a = -(v - b) := (abs_eq_abs.mp h).resolve_left fun heq ↦ by linarith
  rw [abs_of_pos (by linarith : 0 < v - a)]
  exact abs_lt.mpr ⟨by linarith, by linarith⟩

end Distance

theorem Rounds.nearest {n : ℕ} {v : ℚ} (h : (ofMagnitude n).Rounds v) : Nearest n v := by
  intro k
  rcases lt_trichotomy n k with hlt | rfl | hlt
  · have hmid := high_eq_mid n
    obtain ⟨hle, htie⟩ := near_of_le_mid (value_strictMono (Nat.lt_succ_self n))
      (value_strictMono.monotone hlt) (h.le_high.trans_eq hmid)
    refine ⟨hle, fun heq _ ↦ ?_⟩
    rw [← parity_ofMagnitude]
    exact (h.2.resolve_left fun hv ↦ hv.ne ((htie heq).trans hmid.symm)).1
  · exact ⟨le_rfl, fun _ hne ↦ absurd rfl hne⟩
  · obtain ⟨j, rfl⟩ : ∃ j, n = j + 1 := ⟨n - 1, by omega⟩
    have hmid : (ofMagnitude (j + 1)).low = _ := (high_ofMagnitude j).symm.trans (high_eq_mid j)
    obtain ⟨hle, htie⟩ := near_of_mid_le (value_strictMono (Nat.lt_succ_self j))
      (value_strictMono.monotone (Nat.le_of_lt_succ hlt)) (hmid.symm.trans_le h.low_le)
    refine ⟨hle, fun heq _ ↦ ?_⟩
    rw [← parity_ofMagnitude]
    exact (h.1.resolve_left fun hv ↦ hv.ne' ((htie heq).trans hmid.symm)).1

theorem Nearest.not_lt {n k : ℕ} {v : ℚ} (h : Nearest n v) (h' : Nearest k v) : ¬ n < k := by
  intro hlt
  have heq := le_antisymm (h k).1 (h' n).1
  have heven := (h k).2 heq hlt.ne'
  have heven' := (h' n).2 heq.symm hlt.ne
  have hnearer := nearer_between (value_strictMono (Nat.lt_succ_self n))
    (value_strictMono (by omega : n + 1 < k)) heq
  exact absurd (h (n + 1)).1 (not_le.mpr hnearer)

/-- There is one nearest number, the one that `v` rounds to. -/
theorem Rounds.nearest_iff {n k : ℕ} {v : ℚ} (h : (ofMagnitude n).Rounds v) : Nearest k v ↔ k = n := by
  refine ⟨fun hk ↦ ?_, fun hk ↦ hk ▸ h.nearest⟩
  exact Nat.le_antisymm (Nat.le_of_not_lt (h.nearest.not_lt hk)) (Nat.le_of_not_lt (hk.not_lt h.nearest))

theorem value_lt_high (n : ℕ) : (ofMagnitude n).value < (ofMagnitude n).high := by
  rw [high_eq_mid]
  linarith [value_strictMono (Nat.lt_succ_self n)]

theorem low_lt_value (n : ℕ) : (ofMagnitude (n + 1)).low < (ofMagnitude (n + 1)).value := by
  rw [← high_ofMagnitude, high_eq_mid]
  linarith [value_strictMono (Nat.lt_succ_self n)]

/-- What is at most half a unit from a significand rounds to it, as long as it lies where numbers have this
unit. -/
theorem rounds_parts {Q m : ℕ} {v : ℚ} (hm : m ≤ 2 ^ 53) (hQ : Q = 0 ∨ 2 ^ 52 ≤ m) (hpos : 0 < v)
    (hlow : (m - 1 / 2) * 2 ^ (Q - 1074 : ℤ) ≤ v) (hhigh : v ≤ (m + 1 / 2) * 2 ^ (Q - 1074 : ℤ))
    (heven : v = (m - 1 / 2) * 2 ^ (Q - 1074 : ℤ) ∨ v = (m + 1 / 2) * 2 ^ (Q - 1074 : ℤ) → m % 2 = 0)
    (hfloor : Q = 0 ∨ 2 ^ 52 * 2 ^ (Q - 1074 : ℤ) ≤ v) (hceil : v < 2 ^ 53 * 2 ^ (Q - 1074 : ℤ)) :
    (ofMagnitude (Q * 2 ^ 52 + m)).Rounds v := by
  have hunit : (0 : ℚ) < 2 ^ (Q - 1074 : ℤ) := by positivity
  have hvalue := value_parts hm hQ
  have hparity : (ofMagnitude (Q * 2 ^ 52 + m)).m % 2 = m % 2 := by
    rw [parity_ofMagnitude]
    omega
  rw [Rounds, hparity]
  constructor
  · rcases Nat.eq_zero_or_pos m with rfl | hmpos
    · obtain rfl : Q = 0 := hQ.resolve_right (by omega)
      exact .inl (by simpa [ofMagnitude, ofFields, low] using hpos)
    obtain ⟨j, hj⟩ : ∃ j, Q * 2 ^ 52 + m = j + 1 := ⟨Q * 2 ^ 52 + m - 1, by omega⟩
    by_cases hleast : Q = 0 ∨ 2 ^ 52 ≤ m - 1
    · have hbelow : (ofMagnitude j).value = (m - 1 : ℕ) * 2 ^ (Q - 1074 : ℤ) := by
        rw [show j = Q * 2 ^ 52 + (m - 1) by omega, value_parts (by omega) hleast]
      have hmid : (ofMagnitude (Q * 2 ^ 52 + m)).low = (m - 1 / 2) * 2 ^ (Q - 1074 : ℤ) := by
        rw [hj, ← high_ofMagnitude, high_eq_mid, ← hj, hvalue, hbelow, Nat.cast_sub hmpos]
        push_cast
        ring
      rw [hmid]
      exact (lt_or_eq_of_le hlow).imp_right fun h ↦ ⟨heven (.inl h.symm), h.symm⟩
    · -- The least significand of its exponent: below it numbers lie closer, but `v` does not.
      obtain rfl : m = 2 ^ 52 := by omega
      refine .inl (lt_of_lt_of_le ?_ (hfloor.resolve_left (by omega)))
      have hstrict := low_lt_value j
      rw [← hj, hvalue] at hstrict
      exact_mod_cast hstrict
  · rcases Nat.lt_or_eq_of_le hm with hlt | rfl
    · have hmid : (ofMagnitude (Q * 2 ^ 52 + m)).high = (m + 1 / 2) * 2 ^ (Q - 1074 : ℤ) := by
        rw [high_eq_mid, hvalue, Nat.add_assoc, value_parts (m := m + 1) (by omega) (by omega)]
        push_cast
        ring
      rw [hmid]
      exact (lt_or_eq_of_le hhigh).imp_right fun h ↦ ⟨heven (.inr h), h⟩
    · refine .inl (lt_trans ?_ (value_lt_high _))
      rw [hvalue]
      exact_mod_cast hceil

end Binary

section Quotients

variable {a b : ℕ}

theorem zpow_le_div_iff (hb : 0 < b) (k : ℤ) :
    b * Nat.pow 2 k.toNat ≤ a * Nat.pow 2 (-k).toNat ↔ (2 : ℚ) ^ k ≤ a / b := by
  have hb' : (0 : ℚ) < b := by exact_mod_cast hb
  have hscale : (0 : ℚ) < 2 ^ (-k).toNat := by positivity
  rw [le_div_iff₀ hb', ← mul_le_mul_iff_left₀ hscale, mul_right_comm, zpow_mul_toNat (by norm_num),
    ← Nat.cast_le (α := ℚ)]
  simp only [Nat.pow_eq, Nat.cast_mul, Nat.cast_pow, Nat.cast_ofNat, mul_comm]

theorem floorLog2_bounds (ha : 0 < a) (hb : 0 < b) :
    (2 : ℚ) ^ floorLog2 a b ≤ a / b ∧ (a : ℚ) / b < 2 ^ (floorLog2 a b + 1) := by
  have hb' : (0 : ℚ) < b := by exact_mod_cast hb
  have hale : (2 : ℚ) ^ a.log2 ≤ a := by exact_mod_cast Nat.log2_self_le (Nat.pos_iff_ne_zero.mp ha)
  have hble : (2 : ℚ) ^ b.log2 ≤ b := by exact_mod_cast Nat.log2_self_le (Nat.pos_iff_ne_zero.mp hb)
  have halt : (a : ℚ) < 2 ^ (a.log2 + 1) := by exact_mod_cast Nat.lt_log2_self
  have hblt : (b : ℚ) < 2 ^ (b.log2 + 1) := by exact_mod_cast Nat.lt_log2_self
  have hupper : (a : ℚ) / b < 2 ^ ((a.log2 : ℤ) - b.log2 + 1) := by
    rw [div_lt_iff₀ hb', show (a.log2 : ℤ) - b.log2 + 1 = (a.log2 + 1 : ℕ) - (b.log2 : ℕ) by push_cast; ring,
      zpow_sub₀ (by norm_num), zpow_natCast, zpow_natCast, div_mul_eq_mul_div, lt_div_iff₀ (by positivity)]
    exact mul_lt_mul halt hble (by positivity) (by positivity)
  have hlower : (2 : ℚ) ^ ((a.log2 : ℤ) - b.log2 - 1) ≤ a / b := by
    rw [le_div_iff₀ hb', show (a.log2 : ℤ) - b.log2 - 1 = (a.log2 : ℕ) - (b.log2 + 1 : ℕ) by push_cast; ring,
      zpow_sub₀ (by norm_num), zpow_natCast, zpow_natCast, div_mul_eq_mul_div, div_le_iff₀ (by positivity)]
    exact mul_le_mul hale hblt.le (by positivity) (by positivity)
  unfold floorLog2
  dsimp only
  split
  · next h => exact ⟨(zpow_le_div_iff hb _).mp h, hupper⟩
  · next h =>
    refine ⟨hlower, ?_⟩
    rw [sub_add_cancel]
    exact not_le.mp fun hle ↦ h ((zpow_le_div_iff hb _).mpr hle)

theorem nearestQuotient_bounds (hb : 0 < b) :
    (nearestQuotient a b : ℚ) - 1 / 2 ≤ a / b ∧ (a : ℚ) / b ≤ nearestQuotient a b + 1 / 2 ∧
      ((a : ℚ) / b = nearestQuotient a b - 1 / 2 ∨ (a : ℚ) / b = nearestQuotient a b + 1 / 2 →
        nearestQuotient a b % 2 = 0) := by
  have hb' : (0 : ℚ) < b := by exact_mod_cast hb
  have hsplit : (a : ℚ) / b = (a / b : ℕ) + (a % b : ℕ) / b := by
    have hdivision : (a : ℚ) = b * (a / b : ℕ) + (a % b : ℕ) := by exact_mod_cast (Nat.div_add_mod a b).symm
    rw [div_eq_iff hb'.ne', add_mul, div_mul_cancel₀ _ hb'.ne', mul_comm, ← hdivision]
  have hrest : (0 : ℚ) ≤ (a % b : ℕ) / b := by positivity
  have hrest' : ((a % b : ℕ) : ℚ) / b < 1 := by
    rw [div_lt_one hb']
    exact_mod_cast Nat.mod_lt a hb
  have hdouble : 2 * (((a % b : ℕ) : ℚ) / b) * b = (2 * (a % b) : ℕ) := by
    rw [mul_assoc, div_mul_cancel₀ _ hb'.ne']
    push_cast
    rfl
  unfold nearestQuotient
  dsimp only
  rw [hsplit]
  generalize ((a % b : ℕ) : ℚ) / b = rest at hrest hrest' hdouble ⊢
  generalize a / b = quotient
  cases hcompare : compare (2 * (a % b)) b with
  | lt =>
    have hless : 2 * rest < 1 := by
      rw [← mul_lt_mul_iff_left₀ hb', hdouble, one_mul]
      exact_mod_cast Nat.compare_eq_lt.mp hcompare
    exact ⟨by linarith, by linarith, fun h ↦ by rcases h with h | h <;> linarith⟩
  | gt =>
    have hmore : 1 < 2 * rest := by
      rw [← mul_lt_mul_iff_left₀ hb', hdouble, one_mul]
      exact_mod_cast Nat.compare_eq_gt.mp hcompare
    push_cast
    exact ⟨by linarith, by linarith, fun h ↦ by rcases h with h | h <;> linarith⟩
  | eq =>
    have hequal : 2 * rest = 1 := by
      rw [← mul_left_inj' hb'.ne', hdouble, one_mul]
      exact_mod_cast Nat.compare_eq_eq.mp hcompare
    refine ⟨?_, ?_, fun _ ↦ by dsimp only; omega⟩
    all_goals
      rcases Nat.mod_two_eq_zero_or_one quotient with h | h
      all_goals
        rw [h]
        push_cast
        linarith

end Quotients

section Reading

theorem Digits.value_eq_div (d : Digits) :
    d.value = (d.digits * Nat.pow 10 d.exponent.toNat : ℕ) / (Nat.pow 10 (-d.exponent).toNat : ℕ) := by
  have h10 := zpow_mul_toNat (b := 10) (by norm_num) d.exponent
  have hpos : (0 : ℚ) < 10 ^ (-d.exponent).toNat := by positivity
  simp only [Nat.pow_eq, Nat.cast_mul, Nat.cast_pow, Nat.cast_ofNat]
  rw [eq_div_iff hpos.ne', value, mul_assoc, h10]

theorem scaled_div (a b : ℕ) (q : ℤ) : ((a * Nat.pow 2 (-q).toNat : ℕ) : ℚ) / (b * Nat.pow 2 q.toNat : ℕ) =
    a / b / 2 ^ q := by
  have h2 := zpow_mul_toNat (b := 2) (by norm_num) q
  have hpos : (0 : ℚ) < 2 ^ (-q).toNat := by positivity
  simp only [Nat.pow_eq, Nat.cast_mul, Nat.cast_pow, Nat.cast_ofNat]
  rw [← h2, ← mul_assoc, mul_div_mul_right _ _ hpos.ne', div_div]

theorem unit_bounds {l q : ℤ} {v : ℚ} (hq : q = max (l - 52) (-1074)) (hlow : (2 : ℚ) ^ l ≤ v)
    (hhigh : v < 2 ^ (l + 1)) : (q = -1074 ∨ 2 ^ 52 * (2 : ℚ) ^ q ≤ v) ∧ v < 2 ^ 53 * 2 ^ q := by
  have hscale (k : ℕ) : (2 : ℚ) ^ k * 2 ^ q = 2 ^ (q + k) := by
    rw [zpow_add₀ (by norm_num), zpow_natCast, mul_comm]
  rw [hscale, hscale]
  constructor
  · rcases le_total (l - 52) (-1074) with h | h
    · exact .inl (hq.trans (max_eq_right h))
    · refine .inr ?_
      rw [hq, max_eq_left h]
      simpa using hlow
  · refine lt_of_lt_of_le hhigh (zpow_le_zpow_right₀ (by norm_num) ?_)
    have hle := hq ▸ le_max_left (l - 52) (-1074)
    push_cast
    omega

theorem significand_bounds {Q m : ℕ} {u v : ℚ} (hunit : 0 < u) (hlow : (m - 1 / 2) * u ≤ v)
    (hhigh : v ≤ (m + 1 / 2) * u) (hfloor : Q = 0 ∨ 2 ^ 52 * u ≤ v) (hceil : v < 2 ^ 53 * u) :
    m ≤ 2 ^ 53 ∧ (Q = 0 ∨ 2 ^ 52 ≤ m) := by
  constructor
  · have hless := lt_of_mul_lt_mul_right (lt_of_le_of_lt hlow hceil) hunit.le
    have hsucc : (m : ℚ) < (2 ^ 53 + 1 : ℕ) := by
      push_cast
      linarith
    exact Nat.le_of_lt_succ (by exact_mod_cast hsucc)
  · refine hfloor.imp_right fun h ↦ ?_
    have hmore := le_of_mul_le_mul_right (h.trans hhigh) hunit
    have hsucc : ((2 ^ 52 : ℕ) : ℚ) < (m + 1 : ℕ) := by
      push_cast
      linarith
    exact Nat.le_of_lt_succ (by exact_mod_cast hsucc)

/-- Reading a decimal rounds it. What would come behind the greatest finite double is read as infinity. -/
theorem exists_rounds_nearestBits (d : Digits) : ∃ n, (Binary.ofMagnitude n).Rounds d.value ∧
    nearestBits d.digits d.exponent = min n (0x7FF * 2 ^ 52) := by
  by_cases hzero : d.digits = 0
  · refine ⟨0, ?_, by rw [nearestBits, if_pos hzero, Nat.zero_min]⟩
    rw [Digits.value, hzero, Nat.cast_zero, zero_mul, ← Binary.value_zero]
    exact Binary.rounds_value _
  have hpos : 0 < d.digits := Nat.pos_of_ne_zero hzero
  unfold nearestBits
  rw [if_neg hzero]
  have hvalue := d.value_eq_div
  have ha : 0 < d.digits * Nat.pow 10 d.exponent.toNat := Nat.mul_pos hpos (Nat.pow_pos (by norm_num))
  have hb : 0 < Nat.pow 10 (-d.exponent).toNat := Nat.pow_pos (by norm_num)
  dsimp only
  generalize d.digits * Nat.pow 10 d.exponent.toNat = a at *
  generalize Nat.pow 10 (-d.exponent).toNat = b at *
  obtain ⟨hlog, hlog'⟩ := floorLog2_bounds ha hb
  rw [← hvalue] at hlog hlog'
  generalize hq : max (floorLog2 a b - 52) (-1074) = q
  obtain ⟨hfloor, hceil⟩ := unit_bounds hq.symm hlog hlog'
  obtain ⟨Q, rfl⟩ : ∃ Q : ℕ, q = Q - 1074 := ⟨(q + 1074).toNat, by omega⟩
  have hunit : (0 : ℚ) < 2 ^ (Q - 1074 : ℤ) := by positivity
  have hB : 0 < b * Nat.pow 2 (Q - 1074 : ℤ).toNat := Nat.mul_pos hb (Nat.pow_pos (by norm_num))
  obtain ⟨hlow, hhigh, heven⟩ := nearestQuotient_bounds (a := a * Nat.pow 2 (-(Q - 1074 : ℤ)).toNat) hB
  rw [scaled_div, ← hvalue] at hlow hhigh heven
  generalize nearestQuotient _ _ = m at *
  rw [le_div_iff₀ hunit] at hlow
  rw [div_le_iff₀ hunit] at hhigh
  rw [div_eq_iff hunit.ne', div_eq_iff hunit.ne'] at heven
  have hfloor' := hfloor.imp_left fun h ↦ (by omega : Q = 0)
  obtain ⟨hm, hQ⟩ := significand_bounds hunit hlow hhigh hfloor' hceil
  refine ⟨Q * 2 ^ 52 + m, ?_, ?_⟩
  · exact Binary.rounds_parts hm hQ (lt_of_lt_of_le (by positivity) hlog) hlow hhigh heven hfloor' hceil
  · rw [sub_add_cancel, Int.toNat_natCast]
    rfl

end Reading

end TreeWalk.Decimal
