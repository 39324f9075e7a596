import TreeWalk.Text.Quoted

namespace TreeWalk.Text

inductive Charset where
  | unicode
  | ascii
  | latin1
deriving DecidableEq, Repr

namespace Charset

def holds : Charset → Char → Bool
  | unicode, _ => true
  | ascii, c => c.toNat < 0x80
  | latin1, c => c.toNat < 0x100

def render (cs : Charset) (s : String) : String :=
  String.ofList (s.toList.flatMap fun c ↦ if cs.holds c then [c] else codePoint c)

end Charset

/-- Makes carriage returns, alone or before a line feed, into line feeds. -/
def uniformLines (s : String) : String :=
  (s.replace "\r\n" "\n").map fun c ↦ if c = '\r' then '\n' else c

def ofFile? (bytes : ByteArray) : Option String := (String.fromUTF8? bytes).map uniformLines

/-- The lines of a text, without their line feeds. What follows the last line feed is a line if it is
not empty. -/
def lines (s : String) : List String :=
  let all := (uniformLines s).splitOn "\n"
  if all.getLast? = some "" then all.dropLast else all

end TreeWalk.Text
