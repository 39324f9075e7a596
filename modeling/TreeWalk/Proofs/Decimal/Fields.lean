import Mathlib.Algebra.Group.Nat.Defs

namespace TreeWalk.Decimal

open Float.Model Float.Model.UnpackedFloat

section Fields

variable (b : BitVec 64)

theorem toNat_unpackMantissa : (@unpackMantissa .binary64 b).toNat = b.toNat % 2 ^ 52 := by
  rw [unpackMantissa, BitVec.toNat_cast, BitVec.extractLsb_toNat, Nat.shiftRight_zero]
  rfl

theorem toNat_unpackExponent : (@unpackExponent .binary64 b).toNat = b.toNat / 2 ^ 52 % 2 ^ 11 := by
  rw [unpackExponent, BitVec.toNat_cast, BitVec.extractLsb_toNat, Nat.shiftRight_eq_div_pow]
  rfl

theorem toNat_unpackSign : (@unpackSign .binary64 b).toNat = b.toNat / 2 ^ 63 := by
  have hlt := b.isLt
  show (BitVec.cast _ (b.extractLsb 63 63)).toNat = _
  rw [BitVec.toNat_cast, BitVec.extractLsb_toNat, Nat.shiftRight_eq_div_pow]
  show b.toNat / 2 ^ 63 % 2 ^ 1 = _
  omega

theorem toNat_packComponents (s : Sign) (e : BitVec 11) (m : BitVec 52) :
    (packComponents .binary64 s e m).toNat = s.toBitVec.toNat * 2 ^ 63 + e.toNat * 2 ^ 52 + m.toNat := by
  rw [packComponents, BitVec.toNat_append, BitVec.toNat_append, ← Nat.shiftLeft_add_eq_or_of_lt m.isLt,
    ← Nat.shiftLeft_add_eq_or_of_lt e.isLt, Nat.shiftLeft_eq, Nat.shiftLeft_eq]
  omega

theorem packComponents_unpack : packComponents .binary64 (.ofBitVec (@unpackSign .binary64 b))
    (@unpackExponent .binary64 b) (@unpackMantissa .binary64 b) = b := by
  have hsign : (Sign.ofBitVec (@unpackSign .binary64 b)).toBitVec = @unpackSign .binary64 b := by
    generalize @unpackSign .binary64 b = s
    decide +revert
  refine BitVec.eq_of_toNat_eq ?_
  rw [toNat_packComponents, hsign, toNat_unpackSign, toNat_unpackExponent, toNat_unpackMantissa]
  omega

theorem pack_finite (s : Sign) {m : ℕ} (e : ℤ) (hm : 0 < m) :
    UnpackedFloat.pack .binary64 (.finite s m e hm) =
      if 2 ^ 11 ≤ (e + 1023 + 52).toNat + 1 then packedInfinity .binary64 s
      else if m.log2 + 1 = 53 then
        packComponents .binary64 s (BitVec.ofNat 11 (e + 1023 + 52).toNat) (BitVec.ofNat 52 m)
      else packComponents .binary64 s 0#11 (BitVec.ofNat 52 m) := rfl

theorem pack_subnormal (s : Sign) {m : BitVec 52} (hm : 0 < m.toNat) :
    UnpackedFloat.pack .binary64 (.finite s m.toNat (-1074) hm) = packComponents .binary64 s 0#11 m := by
  have hlog : m.toNat.log2 < 52 := (Nat.log2_lt (Nat.ne_of_gt hm)).mpr m.isLt
  have hbits : m.toNat.log2 + 1 ≠ 53 := by omega
  rw [pack_finite, if_neg (by decide), if_neg hbits, BitVec.ofNat_toNat, BitVec.setWidth_eq]

theorem pack_normal (s : Sign) {e : BitVec 11} {m : BitVec 52} (he : e.toNat < 0x7FF)
    (hpos : 0 < (1#1 ++ m).toNat) :
    UnpackedFloat.pack .binary64 (.finite s (1#1 ++ m).toNat (e.toNat - 1075) hpos) =
      packComponents .binary64 s e m := by
  have hvalue : (1#1 ++ m).toNat = 2 ^ 52 + m.toNat := by
    rw [BitVec.toNat_append, ← Nat.shiftLeft_add_eq_or_of_lt m.isLt, Nat.shiftLeft_eq]
    rfl
  have hlog : (1#1 ++ m).toNat.log2 = 52 := by
    have hlt := m.isLt
    rw [hvalue, Nat.log2_eq_iff (by omega)]
    omega
  have hbiased : ((e.toNat : ℤ) - 1075 + 1023 + 52).toNat = e.toNat := by omega
  have hfraction : BitVec.ofNat 52 (1#1 ++ m).toNat = m := by
    refine BitVec.eq_of_toNat_eq ?_
    have hlt := m.isLt
    rw [BitVec.toNat_ofNat, hvalue]
    omega
  have hfinite : ¬ 2 ^ 11 ≤ e.toNat + 1 := by omega
  rw [pack_finite, hbiased, if_neg hfinite, hlog, if_pos rfl, hfraction, BitVec.ofNat_toNat, BitVec.setWidth_eq]

variable {b}

theorem unpack_infinity (he : @unpackExponent .binary64 b = -1#11) (hm : @unpackMantissa .binary64 b = 0#52) :
    UnpackedFloat.unpack .binary64 b = .infinity (.ofBitVec (@unpackSign .binary64 b)) :=
  (if_pos he).trans (if_pos hm)

theorem unpack_notANumber (he : @unpackExponent .binary64 b = -1#11)
    (hm : @unpackMantissa .binary64 b ≠ 0#52) : UnpackedFloat.unpack .binary64 b = .notANumber :=
  (if_pos he).trans (if_neg hm)

theorem exponent_ne (hz : @unpackExponent .binary64 b = 0#11) : @unpackExponent .binary64 b ≠ -1#11 := by
  rw [hz]
  decide

theorem unpack_zero (hz : @unpackExponent .binary64 b = 0#11) (hm : @unpackMantissa .binary64 b = 0#52) :
    UnpackedFloat.unpack .binary64 b = .zero (.ofBitVec (@unpackSign .binary64 b)) :=
  (if_neg (exponent_ne hz)).trans ((if_pos hz).trans (dif_pos hm))

theorem unpack_subnormal (hz : @unpackExponent .binary64 b = 0#11)
    (hm : @unpackMantissa .binary64 b ≠ 0#52) : ∃ hpos, UnpackedFloat.unpack .binary64 b =
      .finite (.ofBitVec (@unpackSign .binary64 b)) (@unpackMantissa .binary64 b).toNat (-1074) hpos := by
  have hpos : 0 < (@unpackMantissa .binary64 b).toNat :=
    Nat.pos_of_ne_zero fun h ↦ hm (BitVec.eq_of_toNat_eq h)
  refine ⟨hpos, (if_neg (exponent_ne hz)).trans ((if_pos hz).trans ((dif_neg hm).trans ?_))⟩
  rw [hz]
  rfl

theorem unpack_normal (he : @unpackExponent .binary64 b ≠ -1#11) (hz : @unpackExponent .binary64 b ≠ 0#11) :
    ∃ hpos, UnpackedFloat.unpack .binary64 b = .finite (.ofBitVec (@unpackSign .binary64 b))
      (1#1 ++ @unpackMantissa .binary64 b).toNat ((@unpackExponent .binary64 b).toNat - 1075) hpos :=
  ⟨_, (if_neg he).trans (if_neg hz)⟩

theorem pack_unpack (hvalid : Format.Valid .binary64 b) :
    UnpackedFloat.pack .binary64 (.unpack .binary64 b) = b := by
  refine Eq.trans ?_ (packComponents_unpack b)
  by_cases he : @unpackExponent .binary64 b = -1#11
  · by_cases hm : @unpackMantissa .binary64 b = 0#52
    · rw [unpack_infinity he hm, he, hm]
      rfl
    · rw [unpack_notANumber he hm, packComponents_unpack]
      exact (hvalid.eq_packedNaN he hm).symm
  by_cases hz : @unpackExponent .binary64 b = 0#11
  · by_cases hm : @unpackMantissa .binary64 b = 0#52
    · rw [unpack_zero hz hm, hz, hm]
      rfl
    · obtain ⟨hpos, hunpacked⟩ := unpack_subnormal hz hm
      rw [hunpacked, hz]
      exact pack_subnormal _ hpos
  · obtain ⟨hpos, hunpacked⟩ := unpack_normal he hz
    have hne : (@unpackExponent .binary64 b).toNat ≠ 0x7FF := fun h ↦ he (BitVec.eq_of_toNat_eq h)
    rw [hunpacked]
    exact pack_normal _ (by omega) hpos

end Fields

section Bits

/-- All bits of a number but the first. -/
def magnitude (x : Float) : ℕ := x.toBits.toNat % 2 ^ 63

variable {x y : Float}

theorem eq_of_toBits (h : x.toBits = y.toBits) : x = y := by
  obtain ⟨⟨b, hb⟩⟩ := x
  obtain ⟨⟨b', hb'⟩⟩ := y
  obtain rfl : b = b' := h
  rfl

theorem ofBits_toBits (x : Float) : Float.ofBits x.toBits = x :=
  eq_of_toBits (UInt64.toBitVec_inj.mp (pack_unpack x.toModel.valid))

theorem eq_of_unpack (h : x.toModel.unpack = y.toModel.unpack) : x = y := by
  have hpacked := congrArg (UnpackedFloat.pack .binary64) h
  refine eq_of_toBits (UInt64.toBitVec_inj.mp ?_)
  exact (pack_unpack x.toModel.valid).symm.trans (hpacked.trans (pack_unpack y.toModel.valid))

theorem not_special (hx : x.isFinite = true) : x.isNaN = false ∧ x.isInf = false := by
  have hunpacked : x.toModel.unpack.isFinite = true := hx
  show x.toModel.unpack.isNaN = false ∧ x.toModel.unpack.isInf = false
  generalize x.toModel.unpack = unpacked at hunpacked ⊢
  cases unpacked with
  | notANumber | infinity => cases hunpacked
  | zero | finite => exact ⟨rfl, rfl⟩

theorem not_nan (hx : x.isInf = true) : x.isNaN = false := by
  have hunpacked : x.toModel.unpack.isInf = true := hx
  show x.toModel.unpack.isNaN = false
  generalize x.toModel.unpack = unpacked at hunpacked ⊢
  cases unpacked with
  | infinity => rfl
  | notANumber | zero | finite => cases hunpacked

theorem finite_or_infinite (hx : x.isNaN = false) : x.isFinite = true ∨ x.isInf = true := by
  have hunpacked : x.toModel.unpack.isNaN = false := hx
  show x.toModel.unpack.isFinite = true ∨ x.toModel.unpack.isInf = true
  generalize x.toModel.unpack = unpacked at hunpacked ⊢
  cases unpacked with
  | notANumber => cases hunpacked
  | infinity => exact .inr rfl
  | zero | finite => exact .inl rfl

theorem unpackExponent_eq_iff :
    @unpackExponent .binary64 x.toBits.toBitVec = -1#11 ↔ x.toBits.toNat / 2 ^ 52 % 2 ^ 11 = 0x7FF := by
  rw [← BitVec.toNat_inj, toNat_unpackExponent]
  rfl

theorem magnitude_lt (hx : x.isFinite = true) : magnitude x < 0x7FF * 2 ^ 52 := by
  have hunpacked : (UnpackedFloat.unpack .binary64 x.toBits.toBitVec).isFinite = true := hx
  have he : @unpackExponent .binary64 x.toBits.toBitVec ≠ -1#11 := by
    intro he
    by_cases hm : @unpackMantissa .binary64 x.toBits.toBitVec = 0#52
    · rw [unpack_infinity he hm] at hunpacked
      cases hunpacked
    · rw [unpack_notANumber he hm] at hunpacked
      cases hunpacked
  rw [Ne, unpackExponent_eq_iff] at he
  unfold magnitude
  omega

theorem magnitude_infinite (hx : x.isInf = true) : magnitude x = 0x7FF * 2 ^ 52 := by
  have hunpacked : (UnpackedFloat.unpack .binary64 x.toBits.toBitVec).isInf = true := hx
  by_cases he : @unpackExponent .binary64 x.toBits.toBitVec = -1#11
  · by_cases hm : @unpackMantissa .binary64 x.toBits.toBitVec = 0#52
    · have hzero : x.toBits.toNat % 2 ^ 52 = 0 := by
        rw [← UInt64.toNat_toBitVec, ← toNat_unpackMantissa, hm]
        rfl
      rw [unpackExponent_eq_iff] at he
      unfold magnitude
      omega
    · rw [unpack_notANumber he hm] at hunpacked
      cases hunpacked
  by_cases hz : @unpackExponent .binary64 x.toBits.toBitVec = 0#11
  · by_cases hm : @unpackMantissa .binary64 x.toBits.toBitVec = 0#52
    · rw [unpack_zero hz hm] at hunpacked
      cases hunpacked
    · obtain ⟨_, hfinite⟩ := unpack_subnormal hz hm
      rw [hfinite] at hunpacked
      cases hunpacked
  · obtain ⟨_, hfinite⟩ := unpack_normal he hz
    rw [hfinite] at hunpacked
    cases hunpacked

end Bits

section Equality

variable {a b : UnpackedFloat}

theorem then_compare_eq_iff {e e' : ℤ} {m m' : ℕ} :
    (compare e e').then (compare m m') = .eq ↔ e = e' ∧ m = m' := by
  rw [Ordering.then_eq_eq, Std.compare_eq_iff_eq, Std.compare_eq_iff_eq]

theorem compare_finite_eq_iff {s s' : Sign} {m m' : ℕ} {e e' : ℤ} (hm : 0 < m) (hm' : 0 < m') :
    (UnpackedFloat.finite s m e hm).compare (.finite s' m' e' hm') = some .eq ↔
      s = s' ∧ e = e' ∧ m = m' := by
  rw [← then_compare_eq_iff]
  cases s with
  | positive =>
    cases s' with
    | positive =>
      show some ((compare e e').then (compare m m')) = some .eq ↔ _
      simp
    | negative => exact ⟨nofun, nofun⟩
  | negative =>
    cases s' with
    | positive => exact ⟨nofun, nofun⟩
    | negative =>
      show some ((compare e e').then (compare m m')).swap = some .eq ↔ _
      simp

theorem beq_self (ha : a.isNaN = false) : a.beq a = true := by
  cases a with
  | notANumber => cases ha
  | zero => rfl
  | infinity s => cases s <;> rfl
  | finite s m e hm => exact beq_iff_eq.mpr ((compare_finite_eq_iff hm hm).mpr ⟨rfl, rfl, rfl⟩)

theorem eq_of_beq (h : a.beq b = true) : a = b ∨ (∃ s, a = .zero s) ∧ ∃ s, b = .zero s := by
  have hcompare : a.compare b = some .eq := beq_iff_eq.mp h
  cases a with
  | notANumber => cases b <;> cases hcompare
  | zero s =>
    cases b with
    | zero s' => exact .inr ⟨⟨s, rfl⟩, s', rfl⟩
    | notANumber => cases hcompare
    | infinity s' | finite s' => cases s' <;> cases hcompare
  | infinity s =>
    cases b with
    | infinity s' => cases s <;> cases s' <;> first | exact .inl rfl | cases hcompare
    | notANumber => cases hcompare
    | zero | finite => cases s <;> cases hcompare
  | finite s m e hm =>
    cases b with
    | finite s' m' e' hm' =>
      obtain ⟨rfl, rfl, rfl⟩ := (compare_finite_eq_iff hm hm').mp hcompare
      exact .inl rfl
    | notANumber => cases hcompare
    | zero => cases s <;> cases hcompare
    | infinity s' => cases s' <;> cases hcompare

theorem beq_zero {x : Float} (h : ∃ s, x.toModel.unpack = .zero s) : (x == 0) = true := by
  obtain ⟨s, hs⟩ := h
  show x.toModel.unpack.beq (0 : Float).toModel.unpack = true
  rw [hs]
  rfl

theorem beq_iff_eq_of_nonzero {x y : Float} (hx : x.isNaN = false)
    (hzero : ¬ ((x == 0) = true ∧ (y == 0) = true)) : (x == y) = true ↔ x = y := by
  constructor
  · intro h
    rcases eq_of_beq (a := x.toModel.unpack) (b := y.toModel.unpack) h with heq | ⟨hs, ht⟩
    · exact eq_of_unpack heq
    · exact absurd ⟨beq_zero hs, beq_zero ht⟩ hzero
  · rintro rfl
    exact beq_self hx

end Equality

end TreeWalk.Decimal
