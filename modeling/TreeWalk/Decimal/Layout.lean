import TreeWalk.Decimal.Shortest

namespace TreeWalk.Decimal

/-- The decisions of a number format. Exponents are those of the leading digit. -/
structure Layout where
  plainFrom : Int := -4
  plainBelow : Int := 16
  exponentWidth : Nat := 2
  pointZero : String
  nan : String
  infinity : String

def zeros (n : Nat) : List Char := List.replicate n '0'

def digitChars (n : Nat) : List Char := Nat.toDigits 10 n

namespace Layout

variable (style : Layout)

def exponentText (e : Int) : List Char :=
  let ds := digitChars e.natAbs
  (if e < 0 then '-' else '+') :: (zeros (style.exponentWidth - ds.length) ++ ds)

/-- The text of a positive decimal. -/
def digitsText (d : Digits) : List Char :=
  let ds := digitChars d.digits
  let e : Int := d.exponent + ds.length - 1
  if style.plainFrom ≤ e ∧ e < style.plainBelow then
    if 0 ≤ d.exponent then ds ++ zeros d.exponent.toNat ++ style.pointZero.toList
    else if 0 ≤ e then ds.take (e.toNat + 1) ++ '.' :: ds.drop (e.toNat + 1)
    else '0' :: '.' :: (zeros (-e - 1).toNat ++ ds)
  else
    let mantissa := match ds with
      | [] => []
      | [c] => [c]
      | c :: cs => c :: '.' :: cs
    mantissa ++ 'e' :: style.exponentText e

def magnitudeText (x : Binary) : List Char :=
  if x.m = 0 then '0' :: style.pointZero.toList else style.digitsText x.shortest

def text (x : Float) : String :=
  if x.isNaN then style.nan
  else
    let sign := if x.toBits.toNat / Nat.pow 2 63 = 1 then "-" else ""
    if x.isInf then sign ++ style.infinity
    else sign ++ String.ofList (style.magnitudeText (Binary.ofBits x.toBits))

end Layout

end TreeWalk.Decimal
