namespace TreeWalk.Decimal

/-- A finite number without its sign, `m * 2 ^ q`. -/
structure Binary where
  m : Nat
  q : Int
  narrowBelow : Bool
deriving DecidableEq, Repr

/-- The magnitude behind the bits of a finite double. -/
def Binary.ofBits (b : UInt64) : Binary :=
  let field : Nat := (b.toNat / Nat.pow 2 52) % Nat.pow 2 11
  let fraction : Nat := b.toNat % Nat.pow 2 52
  if field = 0 then ⟨fraction, -1074, false⟩
  else ⟨Nat.pow 2 52 + fraction, (field : Int) - 1075, fraction = 0 && field > 1⟩

structure Digits where
  digits : Nat
  exponent : Int
deriving DecidableEq, Repr

def compareScaled (n : Nat) (e : Int) (m : Nat) (q : Int) : Ordering :=
  compare (n * Nat.pow 10 e.toNat * Nat.pow 2 (-q).toNat)
    (m * Nat.pow 2 q.toNat * Nat.pow 10 (-e).toNat)

/-- Whether `d` lies among the reals that round to `x`: between the midpoints to its two
neighbours, the midpoints themselves included exactly when `x.m` is even. -/
def Binary.readsBack (x : Binary) (d : Digits) : Bool :=
  let low := if x.narrowBelow then 4 * x.m - 1 else 4 * x.m - 2
  let high := 4 * x.m + 2
  let closed := x.m % 2 == 0
  let below := compareScaled d.digits d.exponent low (x.q - 2)
  let above := compareScaled d.digits d.exponent high (x.q - 2)
  (below == .gt || (closed && below == .eq)) && (above == .lt || (closed && above == .eq))

/-- The integer nearest to `a / b`, a half going to the even neighbour. -/
def nearestQuotient (a b : Nat) : Nat :=
  let quotient := a / b
  match compare (2 * (a % b)) b with
  | .lt => quotient
  | .gt => quotient + 1
  | .eq => quotient + quotient % 2

def floorLog2 (a b : Nat) : Int :=
  let estimate : Int := (a.log2 : Int) - b.log2
  if b * Nat.pow 2 estimate.toNat ≤ a * Nat.pow 2 (-estimate).toNat then estimate
  else estimate - 1

/-- The bits of the double nearest to `n * 10 ^ e`; infinity when the value rounds past the greatest
finite double. The significand counts units of `2 ^ q`, and the carry out of it is the next exponent. -/
def nearestBits (n : Nat) (e : Int) : Nat :=
  if n = 0 then 0
  else
    let a := n * Nat.pow 10 e.toNat
    let b := Nat.pow 10 (-e).toNat
    let q := max (floorLog2 a b - 52) (-1074)
    let m := nearestQuotient (a * Nat.pow 2 (-q).toNat) (b * Nat.pow 2 q.toNat)
    min ((q + 1074).toNat * Nat.pow 2 52 + m) (0x7FF * Nat.pow 2 52)

def nearest (n : Nat) (e : Int) : Float :=
  Float.ofBits (UInt64.ofNat (nearestBits n e))

def digitsValue (cs : List Char) : Nat :=
  cs.foldl (fun n c ↦ 10 * n + (c.toNat - '0'.toNat)) 0

def ofDigits (whole fraction : List Char) : Float :=
  nearest (digitsValue (whole ++ fraction)) (-(fraction.length : Int))

end TreeWalk.Decimal
