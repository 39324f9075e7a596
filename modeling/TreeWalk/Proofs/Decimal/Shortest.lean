import TreeWalk.Decimal.Shortest
import TreeWalk.Proofs.Decimal.Interval

namespace TreeWalk.Decimal

theorem Binary.readsBack_of_atGrid? {x : Binary} {e : ℤ} {d : Digits} (h : x.atGrid? e = some d) :
    x.readsBack d = true := by
  unfold atGrid? at h
  dsimp only at h
  split at h
  · next hlow hhigh =>
    split at h
    · cases h
      exact hlow
    · cases h
      exact hhigh
    · split at h
      · cases h
        exact hlow
      · cases h
        exact hhigh
  · next hlow _ =>
    cases h
    exact hlow
  · next _ hhigh =>
    cases h
    exact hhigh
  · cases h

theorem Binary.value_exact (x : Binary) : x.exact.value = x.value := by
  have h2 := zpow_mul_toNat (b := 2) (by norm_num) x.q
  have hcancel : (2 : ℚ) ^ (-x.q).toNat * 5 ^ (-x.q).toNat * 10 ^ min x.q 0 = 1 := by
    rw [← mul_pow, ← zpow_natCast, show (2 : ℚ) * 5 = 10 by norm_num, ← zpow_add₀ (by norm_num)]
    rw [show ((-x.q).toNat : ℤ) + min x.q 0 = 0 by omega, zpow_zero]
  rw [exact, Digits.value, value]
  simp only [Nat.pow_eq, Nat.cast_mul, Nat.cast_pow, Nat.cast_ofNat]
  calc (x.m : ℚ) * 2 ^ x.q.toNat * 5 ^ (-x.q).toNat * 10 ^ min x.q 0
      = x.m * 2 ^ x.q * (2 ^ (-x.q).toNat * 5 ^ (-x.q).toNat * 10 ^ min x.q 0) := by rw [← h2]; ring
    _ = x.m * 2 ^ x.q := by rw [hcancel, mul_one]

theorem Digits.value_trim (d : Digits) : d.trim.value = d.value := by
  unfold trim
  generalize Nat.log2 d.digits = fuel
  induction fuel generalizing d with
  | zero => rfl
  | succ fuel ih =>
    unfold trim.go
    split
    · next h =>
      have hdigits : (d.digits : ℚ) = 10 * (d.digits / 10 : ℕ) := by
        exact_mod_cast (by omega : d.digits = 10 * (d.digits / 10))
      rw [ih, value, value, hdigits, zpow_add_one₀ (by norm_num)]
      ring
    · rfl

theorem Binary.rounds_shortest (x : Binary) : x.Rounds x.shortest.value := by
  rw [shortest, Digits.value_trim]
  cases hfound : (List.range 17).findSome? fun (i : ℕ) ↦ x.atGrid? (x.scale - i - 1) with
  | none =>
    rw [Option.getD_none, x.value_exact]
    exact x.rounds_value
  | some d =>
    obtain ⟨i, -, hd⟩ := List.exists_of_findSome?_eq_some hfound
    rw [Option.getD_some]
    exact (x.readsBack_iff d).mp (readsBack_of_atGrid? hd)

end TreeWalk.Decimal
