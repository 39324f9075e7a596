import Mathlib.Data.List.TakeWhile
import TreeWalk.Decimal.Layout
import TreeWalk.Proofs.Decimal.Fields
import TreeWalk.Proofs.Decimal.Shortest

namespace TreeWalk.Decimal

section Digits

variable (ds es : List Char)

theorem digitsValue_digitChars (n : ℕ) : digitsValue (digitChars n) = n := Nat.ofDigitChars_ten_toDigits

theorem digitsValue_append :
    digitsValue (ds ++ es) = 10 ^ es.length * digitsValue ds + digitsValue es :=
  (Nat.ofDigitChars_append 0).trans Nat.ofDigitChars_eq_ofDigitChars_zero

theorem digitsValue_zeros (k : ℕ) : digitsValue (zeros k) = 0 :=
  Nat.ofDigitChars_replicate_zero.trans (Nat.mul_zero _)

theorem digitsValue_zeros_append (k : ℕ) : digitsValue (zeros k ++ ds) = digitsValue ds := by
  rw [digitsValue_append, digitsValue_zeros, Nat.mul_zero, Nat.zero_add]

theorem digitsValue_append_zeros (k : ℕ) : digitsValue (ds ++ zeros k) = 10 ^ k * digitsValue ds := by
  rw [digitsValue_append, digitsValue_zeros, Nat.add_zero, zeros, List.length_replicate]

theorem isDigit_digitChars (n : ℕ) : ∀ c ∈ digitChars n, c.isDigit = true := fun _ hc ↦
  Nat.isDigit_of_mem_toDigits (by decide) (by decide) hc

theorem isDigit_zeros (k : ℕ) : ∀ c ∈ zeros k, c.isDigit = true := by
  intro c hc
  rw [List.eq_of_mem_replicate hc]
  rfl

theorem isDigit_singleton {c : Char} (h : c.isDigit = true) : ∀ d ∈ [c], d.isDigit = true :=
  List.forall_mem_singleton.mpr h

end Digits

/-- The number that is written as digits with at most one point among them. -/
def positional (cs : List Char) : ℚ :=
  let whole := cs.takeWhile (· ≠ '.')
  let part := (cs.dropWhile (· ≠ '.')).tail
  digitsValue (whole ++ part) * 10 ^ (-part.length : ℤ)

/-- The exponent that is written as a letter, a sign and digits. -/
def writtenExponent : List Char → ℤ
  | _ :: sign :: ds => if sign = '-' then -digitsValue ds else digitsValue ds
  | _ => 0

/-- The number that a text stands for. -/
def written (cs : List Char) : ℚ :=
  positional (cs.takeWhile (· ≠ 'e')) * 10 ^ writtenExponent (cs.dropWhile (· ≠ 'e'))

section Written

variable {x : Char} {whole part mantissa : List Char}

theorem takeWhile_absent (h : x ∉ whole) : whole.takeWhile (· ≠ x) = whole :=
  List.takeWhile_eq_self_iff.mpr fun _ hc ↦ decide_eq_true fun hx ↦ h (hx ▸ hc)

theorem dropWhile_absent (h : x ∉ whole) : whole.dropWhile (· ≠ x) = [] :=
  List.dropWhile_eq_nil_iff.mpr fun _ hc ↦ decide_eq_true fun hx ↦ h (hx ▸ hc)

theorem takeWhile_before (h : x ∉ whole) : (whole ++ x :: part).takeWhile (· ≠ x) = whole := by
  have hall : ∀ c ∈ whole, decide (c ≠ x) = true := fun _ hc ↦ decide_eq_true fun hx ↦ h (hx ▸ hc)
  rw [List.takeWhile_append_of_pos hall]
  simp

theorem dropWhile_before (h : x ∉ whole) : (whole ++ x :: part).dropWhile (· ≠ x) = x :: part := by
  have hall : ∀ c ∈ whole, decide (c ≠ x) = true := fun _ hc ↦ decide_eq_true fun hx ↦ h (hx ▸ hc)
  rw [List.dropWhile_append_of_pos hall]
  simp

theorem positional_whole (h : '.' ∉ whole) : positional whole = digitsValue whole := by
  rw [positional, takeWhile_absent h, dropWhile_absent h]
  simp

theorem positional_point (h : '.' ∉ whole) :
    positional (whole ++ '.' :: part) = digitsValue (whole ++ part) * 10 ^ (-part.length : ℤ) := by
  rw [positional, takeWhile_before h, dropWhile_before h]
  rfl

theorem written_plain (h : 'e' ∉ mantissa) : written mantissa = positional mantissa := by
  rw [written, takeWhile_absent h, dropWhile_absent h, writtenExponent, zpow_zero, mul_one]
  simp

theorem written_scaled (h : 'e' ∉ mantissa) (rest : List Char) :
    written (mantissa ++ 'e' :: rest) = positional mantissa * 10 ^ writtenExponent ('e' :: rest) := by
  rw [written, takeWhile_before h, dropWhile_before h]

end Written

theorem not_mem_digits {c : Char} {ds : List Char} (hds : ∀ d ∈ ds, d.isDigit = true)
    (hc : c.isDigit = false) : c ∉ ds := fun hmem ↦ by simp [hds c hmem] at hc

theorem letter_not_mem {whole part : List Char} (hwhole : ∀ c ∈ whole, c.isDigit = true)
    (hpart : ∀ c ∈ part, c.isDigit = true) : 'e' ∉ whole ++ '.' :: part := by
  rw [List.mem_append, List.mem_cons]
  rintro (h | h | h)
  · exact not_mem_digits hwhole rfl h
  · exact absurd h (by decide)
  · exact not_mem_digits hpart rfl h

namespace Layout

variable (style : Layout)

theorem writtenExponent_text (e : ℤ) : writtenExponent ('e' :: style.exponentText e) = e := by
  have hdigits : digitsValue (zeros (style.exponentWidth - (digitChars e.natAbs).length) ++
      digitChars e.natAbs) = e.natAbs := by
    rw [digitsValue_zeros_append, digitsValue_digitChars]
  unfold exponentText
  split
  · rw [writtenExponent, if_pos rfl, hdigits]
    omega
  · rw [writtenExponent, if_neg (by decide), hdigits]
    omega

section Digits

variable {style} (d : Digits)

theorem written_pointed {whole part : List Char} (hwhole : ∀ c ∈ whole, c.isDigit = true)
    (hpart : ∀ c ∈ part, c.isDigit = true) (hdigits : digitsValue (whole ++ part) = d.digits)
    (hlength : (-part.length : ℤ) = d.exponent) : written (whole ++ '.' :: part) = d.value := by
  rw [written_plain (letter_not_mem hwhole hpart), positional_point (not_mem_digits hwhole rfl), hdigits,
    hlength, Digits.value]

theorem written_integer (h : 0 ≤ d.exponent) :
    written (digitChars d.digits ++ zeros d.exponent.toNat) = d.value := by
  have hdigits : ∀ c ∈ digitChars d.digits ++ zeros d.exponent.toNat, c.isDigit = true :=
    List.forall_mem_append.mpr ⟨isDigit_digitChars _, isDigit_zeros _⟩
  rw [written_plain (not_mem_digits hdigits rfl), positional_whole (not_mem_digits hdigits rfl),
    digitsValue_append_zeros, digitsValue_digitChars]
  rw [Digits.value, Nat.cast_mul, Nat.cast_pow, ← zpow_natCast, Int.toNat_of_nonneg h, mul_comm]
  rfl

theorem written_exponential {mantissa : List Char} {places : ℕ} (hletter : 'e' ∉ mantissa)
    (hmantissa : positional mantissa = d.digits * 10 ^ (-places : ℤ)) :
    written (mantissa ++ 'e' :: style.exponentText (d.exponent + places)) = d.value := by
  rw [written_scaled hletter, writtenExponent_text, hmantissa, mul_assoc, ← zpow_add₀ (by norm_num),
    Digits.value]
  congr 2
  ring

/-- The text of a decimal stands for the decimal. -/
theorem written_digitsText (hpoint : style.pointZero = "") : written (style.digitsText d) = d.value := by
  have hvalue := digitsValue_digitChars d.digits
  have hdigits := isDigit_digitChars d.digits
  have hne : digitChars d.digits ≠ [] := Nat.toDigits_ne_nil
  unfold digitsText
  dsimp only
  split
  · split
    · rw [hpoint, String.toList_empty, List.append_nil]
      exact written_integer d ‹_›
    · split
      · refine written_pointed d (fun c hc ↦ hdigits c (List.mem_of_mem_take hc))
          (fun c hc ↦ hdigits c (List.mem_of_mem_drop hc)) ?_ ?_
        · rw [List.take_append_drop, hvalue]
        · rw [List.length_drop]
          omega
      · refine written_pointed d (isDigit_singleton (c := '0') rfl) ?_ ?_ ?_
        · exact List.forall_mem_append.mpr ⟨isDigit_zeros _, hdigits⟩
        · refine (digitsValue_zeros_append (digitChars d.digits) (_ + 1)).trans hvalue
        · rw [List.length_append, zeros, List.length_replicate]
          omega
  · generalize digitChars d.digits = ds at *
    match ds with
    | [] => exact absurd rfl hne
    | [c] =>
      have hexponent : d.exponent + ([c].length : ℤ) - 1 = d.exponent + (0 : ℕ) := by simp
      rw [hexponent]
      refine written_exponential d (not_mem_digits hdigits rfl) ?_
      rw [positional_whole (not_mem_digits hdigits rfl), hvalue]
      simp
    | c :: c' :: cs =>
      obtain ⟨hc, hcs⟩ := List.forall_mem_cons.mp hdigits
      have hone := isDigit_singleton hc
      have hexponent : d.exponent + ((c :: c' :: cs).length : ℤ) - 1 =
          d.exponent + (c' :: cs).length := by
        rw [List.length_cons]
        push_cast
        ring
      rw [hexponent]
      refine written_exponential d ?_ ?_
      · exact letter_not_mem hone hcs
      · refine (positional_point (not_mem_digits hone rfl)).trans ?_
        rw [List.singleton_append, hvalue]

end Digits

def Numeral (c : Char) : Prop := c.isDigit = true ∨ c ∈ ['.', 'e', '+', '-']

/-- A text that begins with a digit and has only such characters. -/
def Numerals (cs : List Char) : Prop := (∃ d ds, cs = d :: ds ∧ d.isDigit = true) ∧ ∀ c ∈ cs, Numeral c

theorem numeral_digits {ds : List Char} (h : ∀ d ∈ ds, d.isDigit = true) : ∀ d ∈ ds, Numeral d :=
  fun d hd ↦ .inl (h d hd)

theorem numerals_append {ds es : List Char} (hds : ∀ d ∈ ds, d.isDigit = true) (hne : ds ≠ [])
    (hes : ∀ c ∈ es, Numeral c) : Numerals (ds ++ es) := by
  refine ⟨?_, List.forall_mem_append.mpr ⟨numeral_digits hds, hes⟩⟩
  obtain ⟨d, ds, rfl⟩ := List.exists_cons_of_ne_nil hne
  exact ⟨d, ds ++ es, rfl, hds d (.head _)⟩

theorem numeral_cons {c : Char} {cs : List Char} (hc : c ∈ ['.', 'e', '+', '-'])
    (hcs : ∀ d ∈ cs, Numeral d) : ∀ d ∈ c :: cs, Numeral d :=
  List.forall_mem_cons.mpr ⟨.inr hc, hcs⟩

theorem numeral_exponentText (e : ℤ) : ∀ c ∈ style.exponentText e, Numeral c := by
  refine numeral_cons (by split <;> decide) ?_
  exact numeral_digits (List.forall_mem_append.mpr ⟨isDigit_zeros _, isDigit_digitChars _⟩)

section Text

variable {style} (hpoint : style.pointZero = "")
include hpoint

theorem numerals_digitsText (d : Digits) : Numerals (style.digitsText d) := by
  have hdigits := isDigit_digitChars d.digits
  have hne : digitChars d.digits ≠ [] := Nat.toDigits_ne_nil
  unfold digitsText
  dsimp only
  split
  · split
    · rw [hpoint, String.toList_empty, List.append_nil]
      exact numerals_append hdigits hne (numeral_digits (isDigit_zeros _))
    · split
      · refine numerals_append (fun c hc ↦ hdigits c (List.mem_of_mem_take hc)) (by simpa using hne) ?_
        exact numeral_cons (by decide) (numeral_digits fun c hc ↦ hdigits c (List.mem_of_mem_drop hc))
      · refine numerals_append (isDigit_singleton (c := '0') rfl) (List.cons_ne_nil _ _)
          (numeral_cons (by decide) ?_)
        exact numeral_digits (List.forall_mem_append.mpr ⟨isDigit_zeros _, hdigits⟩)
  · have hexponent := numeral_exponentText style (d.exponent + (digitChars d.digits).length - 1)
    generalize digitChars d.digits = ds at *
    match ds with
    | [] => exact absurd rfl hne
    | [c] => exact numerals_append hdigits hne (numeral_cons (by decide) hexponent)
    | c :: c' :: cs =>
      obtain ⟨hc, hcs⟩ := List.forall_mem_cons.mp hdigits
      have hrest : ∀ d ∈ c' :: cs ++ 'e' :: style.exponentText _, Numeral d :=
        List.forall_mem_append.mpr ⟨numeral_digits hcs, numeral_cons (by decide) hexponent⟩
      have hpart := numeral_cons (c := '.') (by decide) hrest
      have hwhole := numerals_append (isDigit_singleton hc) (List.cons_ne_nil _ _) hpart
      exact hwhole

theorem numerals_magnitudeText (x : Binary) : Numerals (style.magnitudeText x) := by
  unfold magnitudeText
  split
  · rw [hpoint]
    exact numerals_append (isDigit_singleton (c := '0') rfl) (List.cons_ne_nil _ _) (by simp)
  · exact numerals_digitsText hpoint _

theorem rounds_magnitudeText (x : Binary) : x.Rounds (written (style.magnitudeText x)) := by
  unfold magnitudeText
  split
  · next hzero =>
    have hvalue : written ('0' :: style.pointZero.toList) = x.value := by
      rw [hpoint, Binary.value, hzero, Nat.cast_zero, zero_mul, String.toList_empty,
        written_plain (by decide), positional_whole (by decide)]
      rfl
    rw [hvalue]
    exact x.rounds_value
  · rw [written_digitsText _ hpoint]
    exact x.rounds_shortest

end Text

section Finite

variable {style} {x y : Float}

def negative (x : Float) : Bool := x.toBits.toNat / 2 ^ 63 = 1

def sign (negative : Bool) : List Char := if negative then ['-'] else []

theorem sign_append_inj {a b : Bool} {u v : List Char} (hu : Numerals u) (hv : Numerals v)
    (h : sign a ++ u = sign b ++ v) : a = b ∧ u = v := by
  obtain ⟨⟨d, ds, rfl, hd⟩, -⟩ := hu
  obtain ⟨⟨e, es, rfl, he⟩, -⟩ := hv
  cases a <;> cases b
  · exact ⟨rfl, h⟩
  · obtain ⟨rfl, -⟩ := List.cons.inj h
    exact absurd hd (by decide)
  · obtain ⟨rfl, -⟩ := List.cons.inj h
    exact absurd he (by decide)
  · exact ⟨rfl, (List.cons.inj h).2⟩

theorem text_finite (hx : x.isFinite = true) :
    (style.text x).toList = sign (negative x) ++ style.magnitudeText (.ofBits x.toBits) := by
  have hspecial := not_special hx
  simp only [text, hspecial, negative, sign, Nat.pow_eq, Bool.false_eq_true, if_false, String.toList_append,
    String.toList_ofList, decide_eq_true_eq]
  split <;> rfl

theorem eq_of_magnitude (hsign : negative x = negative y)
    (h : x.toBits.toNat % 2 ^ 63 = y.toBits.toNat % 2 ^ 63) : x = y := by
  have hx := x.toBits.toNat_lt
  have hy := y.toBits.toNat_lt
  refine eq_of_toBits (UInt64.toNat_inj.mp ?_)
  simp only [negative, decide_eq_decide] at hsign
  omega

variable (hpoint : style.pointZero = "")
include hpoint

theorem text_begins (hx : x.isFinite = true) :
    ∃ c cs, (style.text x).toList = c :: cs ∧ (c.isDigit = true ∨ c = '-') := by
  obtain ⟨⟨d, ds, hmagnitude, hd⟩, -⟩ := numerals_magnitudeText hpoint (.ofBits x.toBits)
  rw [text_finite hx, hmagnitude]
  cases negative x with
  | true => exact ⟨'-', d :: ds, rfl, .inr rfl⟩
  | false => exact ⟨d, ds, rfl, .inl hd⟩

theorem numeral_text (hx : x.isFinite = true) : ∀ c ∈ (style.text x).toList, Numeral c := by
  rw [text_finite hx]
  refine List.forall_mem_append.mpr ⟨?_, (numerals_magnitudeText hpoint _).2⟩
  cases negative x with
  | true => exact numeral_cons (by decide) (by simp)
  | false => nofun

/-- Finite numbers with the same text are the same, the sign of a zero included. -/
theorem text_injective (hx : x.isFinite = true) (hy : y.isFinite = true) (h : style.text x = style.text y) :
    x = y := by
  replace h := congrArg String.toList h
  rw [text_finite hx, text_finite hy, Binary.ofBits_eq, Binary.ofBits_eq] at h
  obtain ⟨hsign, hmagnitude⟩ :=
    sign_append_inj (numerals_magnitudeText hpoint _) (numerals_magnitudeText hpoint _) h
  have hrounds := rounds_magnitudeText hpoint (.ofMagnitude (x.toBits.toNat % 2 ^ 63))
  have hrounds' := rounds_magnitudeText hpoint (.ofMagnitude (y.toBits.toNat % 2 ^ 63))
  rw [← hmagnitude] at hrounds'
  exact eq_of_magnitude hsign (hrounds.unique hrounds')

end Finite

end Layout

end TreeWalk.Decimal
