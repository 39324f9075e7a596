import TreeWalk.Decimal.Binary

namespace TreeWalk.Decimal

/-- The least `k` with `x < 10 ^ k`, for `x ≠ 0`. The binary logarithm times `30103 / 100000`, a
little more than `log 2`, leaves three candidates. -/
def Binary.scale (x : Binary) : Int :=
  let estimate := ((x.m.log2 + x.q) * 30103) / 100000
  let exceeds (k : Int) : Bool := compareScaled 1 k x.m x.q == .gt
  if exceeds estimate then estimate
  else if exceeds (estimate + 1) then estimate + 1
  else estimate + 2

def Binary.floorAt (x : Binary) (e : Int) : Nat :=
  (x.m * Nat.pow 2 x.q.toNat * Nat.pow 10 (-e).toNat) /
    (Nat.pow 10 e.toNat * Nat.pow 2 (-x.q).toNat)

/-- A point of the grid `10 ^ e` that reads back to `x`, the nearer one if both neighbours of `x` do;
of two equally near ones the even one. -/
def Binary.atGrid? (x : Binary) (e : Int) : Option Digits :=
  let n := x.floorAt e
  let low : Digits := ⟨n, e⟩
  let high : Digits := ⟨n + 1, e⟩
  match x.readsBack low, x.readsBack high with
  | true, true =>
    match compareScaled (2 * n + 1) e (2 * x.m) x.q with
    | .gt => some low
    | .lt => some high
    | .eq => some (if n % 2 = 0 then low else high)
  | true, false => some low
  | false, true => some high
  | false, false => none

def Binary.exact (x : Binary) : Digits :=
  ⟨x.m * Nat.pow 2 x.q.toNat * Nat.pow 5 (-x.q).toNat, min x.q 0⟩

def Digits.trim (d : Digits) : Digits :=
  let rec go (fuel : Nat) (d : Digits) : Digits :=
    match fuel with
    | 0 => d
    | fuel + 1 =>
      if d.digits ≠ 0 ∧ d.digits % 10 = 0 then go fuel ⟨d.digits / 10, d.exponent + 1⟩ else d
  go (Nat.log2 d.digits) d

/-- The fewest digits that read back to `x`. Grids are tried from coarse to fine; seventeen digits
always suffice for a double. -/
def Binary.shortest (x : Binary) : Digits :=
  let k := x.scale
  let found := (List.range 17).findSome? fun (i : Nat) ↦ x.atGrid? (k - i - 1)
  (found.getD x.exact).trim

end TreeWalk.Decimal
