import TreeWalk.Proofs.Decimal.Reading
import TreeWalk.Proofs.Token.Munch
import TreeWalk.Proofs.Tree.Printed
import TreeWalk.Value

namespace TreeWalk

namespace Piece

theorem Formed.cut {p : Piece} (hp : p.Formed) : cut p.text = [p] := by
  have hleads : p.Leads (p.text ++ []) := by
    refine .longest hp (List.prefix_append _ _) fun q _ hprefix ↦ ?_
    simpa using hprefix.length_le
  have hcuts := Cuts.cons hleads .nil
  rw [List.append_nil] at hcuts
  exact (cuts_iff.mp hcuts).symm

end Piece

section Scanning

open Decimal Decimal.Layout

theorem Decimal.Layout.Plain.formed {whole part cs : List Char} (h : Plain whole part cs) :
    (Piece.word .number cs (.number (ofDigits whole part))).Formed := by
  cases h with
  | whole hne hwhole => exact .whole hne hwhole
  | pointed hne hwhole hne' hpart => exact .decimal hne hwhole hne' hpart

theorem Decimal.Layout.Plain.lineFeeds {whole part cs : List Char} (h : Plain whole part cs) :
    Piece.lineFeeds cs = 0 := by
  refine List.count_eq_zero.mpr ?_
  cases h with
  | whole _ hwhole => exact not_mem_digits hwhole rfl
  | pointed _ hwhole _ hpart =>
    rw [List.mem_append, List.mem_cons]
    rintro (h | h | h)
    · exact not_mem_digits hwhole rfl h
    · exact absurd h (by decide)
    · exact not_mem_digits hpart rfl h

/-- Digits, with or without a point among them, are one number and nothing else. -/
theorem Scan.ofText_plain {whole part : List Char} {text : String} (h : Plain whole part text.toList) :
    Scan.ofText text = ⟨[⟨.number, text, .number (ofDigits whole part), 1⟩], endMarker 1, []⟩ := by
  have hcut : Piece.cut text.toList = [.word .number text.toList (.number (ofDigits whole part))] :=
    h.formed.cut
  have hline : Piece.lineFeeds (Piece.word .number text.toList (.number (ofDigits whole part))).text = 0 :=
    h.lineFeeds
  rw [Scan.ofText, hcut, List.foldl_cons, List.foldl_nil, Progress.read, hline, String.ofList_toList]
  rfl

end Scanning

section Equality

open Decimal Decimal.Layout

variable {x y : Float}

theorem Decimal.Layout.text_infinite {style : Layout} (hx : x.isInf = true) :
    (style.text x).toList = sign (negative x) ++ style.infinity.toList := by
  simp only [text, not_nan hx, hx, negative, sign, Nat.pow_eq, Bool.false_eq_true, if_false, if_true,
    String.toList_append, decide_eq_true_eq]
  split <;> rfl

namespace Scalar

theorem letter_mem_infinite (hx : x.isInf = true) : 'I' ∈ (numberLayout.text x).toList := by
  rw [text_infinite hx]
  exact List.mem_append_right _ (by decide)

theorem text_finite_ne_infinite (hx : x.isFinite = true) (hy : y.isInf = true) :
    numberLayout.text x ≠ numberLayout.text y := by
  intro h
  have hletter := numeral_text numberLayout_plain hx 'I' (h ▸ letter_mem_infinite hy)
  exact absurd hletter (by unfold Numeral; decide)

theorem number_text_inj (hx : x.isNaN = false) (hy : y.isNaN = false)
    (h : numberLayout.text x = numberLayout.text y) : x = y := by
  rcases finite_or_infinite hx with hx | hx <;> rcases finite_or_infinite hy with hy | hy
  · exact text_injective numberLayout_plain hx hy h
  · exact absurd h (text_finite_ne_infinite hx hy)
  · exact absurd h.symm (text_finite_ne_infinite hy hx)
  · have hsign : negative x = negative y := by
      have hchars := congrArg String.toList h
      rw [text_infinite hx, text_infinite hy, List.append_left_inj] at hchars
      revert hchars
      cases negative x <;> cases negative y <;> decide
    exact eq_of_magnitude hsign ((magnitude_infinite hx).trans (magnitude_infinite hy).symm)

/-- Numbers are equal just if their texts are, but for the two zeros. -/
theorem equals_iff_text_eq (hx : x.isNaN = false) (hy : y.isNaN = false)
    (hzero : ¬ ((x == 0) = true ∧ (y == 0) = true)) :
    (number x).equals (number y) = true ↔ (number x).text = (number y).text := by
  show (x == y) = true ↔ numberLayout.text x = numberLayout.text y
  rw [beq_iff_eq_of_nonzero hx hzero]
  exact ⟨congrArg numberLayout.text, number_text_inj hx hy⟩

end Scalar

end Equality

namespace Value

open Decimal Decimal.Layout

/-- What is printed of a number tells the number. Reading rounds any decimal correctly. The text of a finite number
is its sign and a decimal with the fewest digits of all that round to it, as near to it as any of those, and is read
back bit for bit; without a sign and an exponent it is scanned as the number and nothing else. Numbers that are not
both zero are equal just if their texts are, the infinite ones included. -/
theorem number_text_faithful (x y : Float) :
    (∀ d : Digits, ∃ n, (∀ k, Binary.Nearest k d.value ↔ k = n) ∧
      nearestBits d.digits d.exponent = min n (0x7FF * 2 ^ 52)) ∧
    (x.isFinite = true →
      (∃ d : Digits, d.Chosen (magnitude x) ∧
        (Value.number x).text.toList = sign (negative x) ++ Scalar.numberLayout.digitsText d) ∧
      (Decimal.ofText (Value.number x).text).toBits = x.toBits ∧
      (negative x = false → 'e' ∉ (Value.number x).text.toList →
        Scan.ofText (Value.number x).text =
          ⟨[⟨.number, (Value.number x).text, .number x, 1⟩], Scan.endMarker 1, []⟩)) ∧
    (x.isNaN = false → y.isNaN = false → ¬ ((x == 0) = true ∧ (y == 0) = true) →
      ((Value.number x).equals (Value.number y) = true ↔ (Value.number x).text = (Value.number y).text)) := by
  refine ⟨fun d ↦ ?_, fun hx ↦ ⟨?_, ?_, fun hsign hletter ↦ ?_⟩, Scalar.equals_iff_text_eq⟩
  · obtain ⟨n, hrounds, hbits⟩ := exists_rounds_nearestBits d
    exact ⟨n, fun k ↦ hrounds.nearest_iff, hbits⟩
  · exact exists_chosen (by decide) hx
  · exact congrArg Float.toBits (ofText_text Scalar.numberLayout_plain hx)
  · obtain ⟨whole, part, hplain⟩ := exists_plain_text Scalar.numberLayout_plain hx hsign hletter
    have hscan := Scan.ofText_plain hplain
    rw [ofDigits_of_plain Scalar.numberLayout_plain hx hsign hplain] at hscan
    exact hscan

def tenth : Float := ofDigits ['0'] ['1']

theorem number_text_faithful_tenth :
    (tenth.isFinite = true ∧ negative tenth = false ∧ (Value.number tenth).text = "0.1") ∧
    (Decimal.ofText "0.1").toBits = tenth.toBits ∧
    Scan.ofText "0.1" = ⟨[⟨.number, "0.1", .number tenth, 1⟩], Scan.endMarker 1, []⟩ ∧
    (Value.number tenth).equals (.number 0) = false ∧ (Value.number 0).text = "0" := by
  have hfinite : tenth.isFinite = true := by decide +kernel
  have hsign : negative tenth = false := by decide +kernel
  have htext : (Value.number tenth).text = "0.1" := by decide +kernel
  have htext' : (Value.number 0).text = "0" := by decide +kernel
  obtain ⟨-, hfaithful, hequal⟩ := number_text_faithful tenth 0
  obtain ⟨-, hread, hscan⟩ := hfaithful hfinite
  have hequal := hequal (by decide +kernel) (by decide +kernel) (by decide +kernel)
  rw [htext] at hread hscan hequal
  rw [htext'] at hequal
  refine ⟨⟨hfinite, hsign, htext⟩, hread, hscan hsign (by decide), ?_, htext'⟩
  exact Bool.eq_false_iff.mpr fun h ↦ absurd (hequal.mp h) (by decide)

end Value

end TreeWalk
