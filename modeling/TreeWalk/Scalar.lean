import TreeWalk.Decimal.Layout

namespace TreeWalk

/-- Where a NaN comes from. NaNs of one origin are one and the same. -/
inductive Origin where
  | literal (index : Nat)
  | zeroDivision
  | operation (identity : Nat)
deriving DecidableEq, Repr

inductive Scalar where
  | nil
  | bool (b : Bool)
  | number (x : Float)
  | nan (origin : Origin)
  | string (s : String)

namespace Scalar

/-- Numbers print with the fewest digits that read back: positionally for exponents from -4 to 15,
otherwise with an exponent of at least two digits. An integer has no point. -/
def numberLayout : Decimal.Layout where
  pointZero := ""
  nan := "NaN"
  infinity := "Infinity"

def text : Scalar → String
  | nil => "nil"
  | bool b => if b then "true" else "false"
  | number x => numberLayout.text x
  | nan _ => numberLayout.nan
  | string s => s

/-- How numbers are laid out where a value is described and not printed: a final `.0` stays. -/
def describedLayout : Decimal.Layout where
  pointZero := ".0"
  nan := "nan"
  infinity := "inf"

def describe : Scalar → String
  | nil => "None"
  | bool b => if b then "True" else "False"
  | number x => describedLayout.text x
  | nan _ => describedLayout.nan
  | string s => s

def isTruthy : Scalar → Bool
  | nil => false
  | bool b => b
  | number _ | nan _ | string _ => true

def number? : Scalar → Option Float
  | number x => some x
  | nan _ => some (0 / 0)
  | _ => none

/-- Scalars of different sorts differ; numbers compare as numbers, so `NaN` differs from itself. -/
def equals : Scalar → Scalar → Bool
  | nil, nil => true
  | bool a, bool b => a == b
  | number x, number y => x == y
  | string s, string t => s == t
  | _, _ => false

/-- Sameness of what two returns hold: a truth value counts as the number 1 or 0, and a NaN is the same
as itself. -/
def same : Scalar → Scalar → Bool
  | bool b, number x | number x, bool b => x == (if b then 1 else 0)
  | nan o, nan p => o == p
  | s, t => s.equals t

end Scalar

end TreeWalk
