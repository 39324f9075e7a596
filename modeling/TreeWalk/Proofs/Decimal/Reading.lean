import TreeWalk.Proofs.Decimal.Fewest

namespace TreeWalk.Decimal

open Layout (negative sign)

/-- The decimal that a text without a sign stands for. -/
def Digits.ofText (cs : List Char) : Digits :=
  let mantissa := cs.takeWhile (· ≠ 'e')
  let part := (mantissa.dropWhile (· ≠ '.')).tail
  ⟨digitsValue (mantissa.takeWhile (· ≠ '.') ++ part),
    writtenExponent (cs.dropWhile (· ≠ 'e')) - part.length⟩

def bitsOfText (cs : List Char) : ℕ := nearestBits (Digits.ofText cs).digits (Digits.ofText cs).exponent

/-- The number that a text is read as. A minus sign sets the first bit, also that of zero. -/
def ofText (text : String) : Float :=
  match text.toList with
  | '-' :: cs => Float.ofBits (UInt64.ofNat (2 ^ 63 + bitsOfText cs))
  | cs => Float.ofBits (UInt64.ofNat (bitsOfText cs))

theorem Digits.value_ofText (cs : List Char) : (Digits.ofText cs).value = written cs := by
  unfold Digits.ofText Digits.value written positional
  dsimp only
  rw [mul_assoc, ← zpow_add₀ (by norm_num), neg_add_eq_sub]

/-- A decimal to which the number is the nearest. None has fewer digits, and none with as few is nearer to the
number. -/
structure Digits.Chosen (n : ℕ) (d : Digits) : Prop where
  nearest : Binary.Nearest n d.value
  fewest : ∀ d' : Digits, Binary.Nearest n d'.value →
    (digitChars d.digits).length ≤ (digitChars d'.digits).length
  closest : ∀ d' : Digits, Binary.Nearest n d'.value →
    (digitChars d'.digits).length ≤ (digitChars d.digits).length →
    |d.value - (Binary.ofMagnitude n).value| ≤ |d'.value - (Binary.ofMagnitude n).value|

namespace Digits

/-- What is nearest to a decimal is what the decimal rounds to. -/
theorem nearest_iff_rounds {n : ℕ} {d : Digits} :
    Binary.Nearest n d.value ↔ (Binary.ofMagnitude n).Rounds d.value := by
  obtain ⟨k, hk, -⟩ := exists_rounds_nearestBits d
  refine ⟨fun h ↦ ?_, fun h ↦ h.nearest⟩
  exact hk.nearest_iff.mp h ▸ hk

theorem chosen_zero : Chosen 0 ⟨0, 0⟩ := by
  have hvalue : (⟨0, 0⟩ : Digits).value = (Binary.ofMagnitude 0).value := by
    rw [Binary.value_zero, Digits.value, Nat.cast_zero, zero_mul]
  have hrounds := (Binary.ofMagnitude 0).rounds_value
  refine ⟨hvalue ▸ hrounds.nearest, fun d' _ ↦ ?_, fun d' _ _ ↦ ?_⟩
  · exact List.length_pos_iff.mpr Nat.toDigits_ne_nil
  · rw [hvalue, sub_self, abs_zero]
    exact abs_nonneg _

theorem chosen_shortest {n : ℕ} (hpos : 0 < n) (hn : n < 0x7FF * 2 ^ 52) :
    Chosen n (Binary.ofMagnitude n).shortest := by
  have hproper := Binary.proper_ofMagnitude hpos hn
  refine ⟨(Binary.rounds_shortest _).nearest, fun d' h ↦ ?_, fun d' h hle ↦ ?_⟩
  · exact Binary.length_shortest_le hproper (nearest_iff_rounds.mp h)
  · exact Binary.shortest_closest hproper (nearest_iff_rounds.mp h) hle

end Digits

namespace Layout

variable {style : Layout} (hpoint : style.pointZero = "")

section Read

variable {x : Float}

theorem ofBits_of_toNat {k : ℕ} (h : k = x.toBits.toNat) : Float.ofBits (UInt64.ofNat k) = x := by
  rw [h, UInt64.ofNat_toNat, ofBits_toBits]

theorem toNat_of_negative {b : Bool} (h : negative x = b) :
    (if b then 2 ^ 63 + magnitude x else magnitude x) = x.toBits.toNat := by
  have hlt := x.toBits.toNat_lt
  unfold negative at h
  unfold magnitude
  cases b with
  | true =>
    have hfirst := of_decide_eq_true h
    rw [if_pos rfl]
    omega
  | false =>
    have hfirst := of_decide_eq_false h
    rw [if_neg Bool.false_ne_true]
    omega

theorem exists_chosen (hzero : style.plainFrom ≤ 0 ∧ 0 < style.plainBelow) (hx : x.isFinite = true) :
    ∃ d : Digits, d.Chosen (magnitude x) ∧
      (style.text x).toList = sign (negative x) ++ style.digitsText d := by
  rw [text_finite hx, Binary.ofBits_eq]
  show ∃ d : Digits, d.Chosen (magnitude x) ∧
    sign (negative x) ++ style.magnitudeText (.ofMagnitude (magnitude x)) = _
  rcases Nat.eq_zero_or_pos (magnitude x) with hx | hpos
  · rw [hx]
    refine ⟨⟨0, 0⟩, Digits.chosen_zero, congrArg _ ?_⟩
    have hplain : style.plainFrom ≤ 0 + (digitChars 0).length - 1 ∧
      0 + ((digitChars 0).length : ℤ) - 1 < style.plainBelow := hzero
    rw [digitsText, if_pos hplain]
    rfl
  · have hproper := Binary.proper_ofMagnitude hpos (magnitude_lt hx)
    refine ⟨_, Digits.chosen_shortest hpos (magnitude_lt hx), congrArg _ ?_⟩
    rw [magnitudeText, if_neg hproper.pos.ne']

include hpoint

theorem bitsOfText_magnitudeText (hx : x.isFinite = true) :
    bitsOfText (style.magnitudeText (.ofBits x.toBits)) = magnitude x := by
  have hrounds := rounds_magnitudeText hpoint (.ofBits x.toBits)
  obtain ⟨n, hn, hbits⟩ := exists_rounds_nearestBits (.ofText (style.magnitudeText (.ofBits x.toBits)))
  rw [Digits.value_ofText] at hn
  rw [Binary.ofBits_eq] at hrounds hn hbits ⊢
  have hlt := magnitude_lt hx
  rw [bitsOfText, hbits, hn.unique hrounds]
  exact min_eq_left hlt.le

/-- A finite number is read back from its text. -/
theorem ofText_text (hx : x.isFinite = true) : ofText (style.text x) = x := by
  have hbits := bitsOfText_magnitudeText hpoint hx
  obtain ⟨⟨d, ds, hmagnitude, hd⟩, -⟩ := numerals_magnitudeText hpoint (.ofBits x.toBits)
  unfold ofText
  rw [text_finite hx]
  cases hsign : negative x with
  | true =>
    rw [sign, if_pos rfl, List.singleton_append]
    refine ofBits_of_toNat ?_
    rw [hbits]
    exact toNat_of_negative hsign
  | false =>
    rw [sign, if_neg Bool.false_ne_true, List.nil_append]
    split
    · next cs hminus =>
      obtain ⟨rfl, -⟩ := List.cons.inj (hminus.symm.trans hmagnitude)
      exact absurd hd (by decide)
    · refine ofBits_of_toNat ?_
      rw [hbits]
      exact toNat_of_negative hsign

end Read

section Plain

/-- A text of digits, or of digits on both sides of a point. -/
inductive Plain (whole : List Char) : (part text : List Char) → Prop
  | whole : whole ≠ [] → (∀ c ∈ whole, c.isDigit = true) → Plain whole [] whole
  | pointed {part : List Char} : whole ≠ [] → (∀ c ∈ whole, c.isDigit = true) → part ≠ [] →
      (∀ c ∈ part, c.isDigit = true) → Plain whole part (whole ++ '.' :: part)

theorem Plain.ofText_eq {whole part cs : List Char} (h : Plain whole part cs) :
    Digits.ofText cs = ⟨digitsValue (whole ++ part), -part.length⟩ := by
  unfold Digits.ofText
  cases h with
  | whole _ hwhole =>
    have hletter := not_mem_digits (c := 'e') hwhole rfl
    have hnopoint := not_mem_digits (c := '.') hwhole rfl
    simp only [takeWhile_absent hletter, dropWhile_absent hletter, takeWhile_absent hnopoint,
      dropWhile_absent hnopoint, List.tail_nil]
    rfl
  | pointed _ hwhole _ hpart =>
    have hletter := letter_not_mem hwhole hpart
    have hnopoint := not_mem_digits (c := '.') hwhole rfl
    simp only [takeWhile_absent hletter, dropWhile_absent hletter, takeWhile_before hnopoint,
      dropWhile_before hnopoint, List.tail_cons, writtenExponent, zero_sub]

include hpoint

theorem exists_plain_digitsText {d : Digits} (hletter : 'e' ∉ style.digitsText d) :
    ∃ whole part, Plain whole part (style.digitsText d) := by
  have hdigits := isDigit_digitChars d.digits
  have hne : digitChars d.digits ≠ [] := Nat.toDigits_ne_nil
  unfold digitsText at hletter ⊢
  dsimp only at hletter ⊢
  split
  · split
    · rw [hpoint, String.toList_empty, List.append_nil]
      refine ⟨_, [], .whole (List.append_ne_nil_of_left_ne_nil hne _) ?_⟩
      exact List.forall_mem_append.mpr ⟨hdigits, isDigit_zeros _⟩
    · split
      · refine ⟨_, _, .pointed (by simpa using hne) (fun c hc ↦ hdigits c (List.mem_of_mem_take hc)) ?_
          fun c hc ↦ hdigits c (List.mem_of_mem_drop hc)⟩
        rw [List.ne_nil_iff_length_pos, List.length_drop]
        omega
      · refine ⟨['0'], _, .pointed (List.cons_ne_nil _ _) (isDigit_singleton rfl) ?_ ?_⟩
        · exact List.append_ne_nil_of_right_ne_nil _ hne
        · exact List.forall_mem_append.mpr ⟨isDigit_zeros _, hdigits⟩
  · next hrange =>
    rw [if_neg hrange] at hletter
    exact absurd (List.mem_append_right _ List.mem_cons_self) hletter

theorem exists_plain_text {x : Float} (hx : x.isFinite = true) (hsign : negative x = false)
    (hletter : 'e' ∉ (style.text x).toList) : ∃ whole part, Plain whole part (style.text x).toList := by
  rw [text_finite hx, hsign] at hletter ⊢
  show ∃ whole part, Plain whole part (style.magnitudeText (.ofBits x.toBits))
  have hletter' : 'e' ∉ style.magnitudeText (.ofBits x.toBits) := hletter
  unfold magnitudeText at hletter' ⊢
  split
  · rw [hpoint]
    exact ⟨['0'], [], .whole (List.cons_ne_nil _ _) (isDigit_singleton rfl)⟩
  · next hzero =>
    rw [if_neg hzero] at hletter'
    exact exists_plain_digitsText hpoint hletter'

/-- A number with a text of this kind is the one that the scanner makes of the text. -/
theorem ofDigits_of_plain {x : Float} (hx : x.isFinite = true) (hsign : negative x = false)
    {whole part : List Char} (h : Plain whole part (style.text x).toList) : ofDigits whole part = x := by
  have hbits := bitsOfText_magnitudeText hpoint hx
  have htext : (style.text x).toList = style.magnitudeText (.ofBits x.toBits) := by
    rw [text_finite hx, hsign]
    rfl
  rw [← htext, bitsOfText, h.ofText_eq] at hbits
  refine ofBits_of_toNat (hbits.trans ?_)
  exact toNat_of_negative hsign

end Plain

end Layout

end TreeWalk.Decimal
