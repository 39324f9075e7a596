import TreeWalk.Limits
import TreeWalk.Text.DecimalDigit
import TreeWalk.Text.Quoted
import TreeWalk.Text.Space

namespace TreeWalk

namespace Settings

def maxDigits : Nat := 4300

inductive Malformed where
  | notAnInteger (text : String)
  | tooLong (digits : Nat)
deriving DecidableEq, Repr

/-- The text that is not an integer is quoted, up to the length of a message. -/
def Malformed.text : Malformed → String
  | notAnInteger s =>
    "invalid literal for int() with base 10: " ++
      String.ofList ((Text.quotedChars s.toList).take 200)
  | tooLong n =>
    "Exceeds the limit (" ++ toString maxDigits ++
      " digits) for integer string conversion: value has " ++ toString n ++
      " digits; use sys.set_int_max_str_digits() to increase the limit"

def isDigitOrUnderscore (c : Char) : Bool := c = '_' || (Text.digitValue? c).isSome

/-- Whether a run of digits and underscores is a number: each underscore stands between two digits. -/
def isGrouped (run : List Char) : Bool :=
  run.head?.any (· ≠ '_') && run.getLast?.any (· ≠ '_') &&
    (run.zip run.tail).all fun p ↦ p.1 ≠ '_' || p.2 ≠ '_'

def sign : List Char → Int × List Char
  | '-' :: rest => (-1, rest)
  | '+' :: rest => (1, rest)
  | rest => (1, rest)

def readInteger (s : String) : Except Malformed Int :=
  let (unit, text) := sign (Text.trim Text.isNumberSpace s.toList)
  let run := text.takeWhile isDigitOrUnderscore
  let ds := run.filterMap Text.digitValue?
  if ¬ isGrouped run then .error (.notAnInteger s)
  else if maxDigits < ds.length then .error (.tooLong ds.length)
  else if run.length < text.length then .error (.notAnInteger s)
  else .ok (unit * (ds.foldl (fun n d ↦ 10 * n + d) 0 : Nat))

def maxDepth : Option String → Except Malformed Int
  | none => .ok defaultCalls
  | some s => readInteger s

end Settings

end TreeWalk
