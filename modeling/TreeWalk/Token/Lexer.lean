import TreeWalk.Diagnostic

namespace TreeWalk

/-- A piece of a source text. -/
inductive Piece where
  | word (kind : Kind) (lexeme : List Char) (literal : Scalar)
  | blank (text : List Char)
  | comment (text : List Char)
  | stray (c : Char)
  | openString (text : List Char)

namespace Piece

def text : Piece → List Char
  | word _ lexeme _ => lexeme
  | blank t => t
  | comment t => t
  | stray c => [c]
  | openString t => t

def isBlank (c : Char) : Bool :=
  c = ' ' || c = '\t' || c = '\n' || c = '\r' || c = '\x0c'

def isDigit (c : Char) : Bool := '0' ≤ c && c ≤ '9'

def isWordStart (c : Char) : Bool :=
  ('a' ≤ c && c ≤ 'z') || ('A' ≤ c && c ≤ 'Z') || c = '_'

def isWordChar (c : Char) : Bool := isWordStart c || isDigit c

def single? : Char → Option Kind
  | '(' => some .leftParen
  | ')' => some .rightParen
  | '{' => some .leftBrace
  | '}' => some .rightBrace
  | ',' => some .comma
  | '.' => some .dot
  | '-' => some .minus
  | '+' => some .plus
  | ';' => some .semicolon
  | '/' => some .slash
  | '*' => some .star
  | '!' => some .bang
  | '=' => some .equal
  | '>' => some .greater
  | '<' => some .less
  | _ => none

def withEqual? : Char → Option Kind
  | '!' => some .bangEqual
  | '=' => some .equalEqual
  | '>' => some .greaterEqual
  | '<' => some .lessEqual
  | _ => none

/-- The digits of a fraction and the text after it: none unless a digit follows the point. -/
def fraction : List Char → List Char × List Char
  | '.' :: d :: more =>
    if isDigit d then (d :: more.takeWhile isDigit, more.dropWhile isDigit)
    else ([], '.' :: d :: more)
  | text => ([], text)

def number (c : Char) (rest : List Char) : Piece × List Char :=
  let whole := c :: rest.takeWhile isDigit
  let (part, after) := fraction (rest.dropWhile isDigit)
  let lexeme := if part.isEmpty then whole else whole ++ '.' :: part
  (word .number lexeme (.number (Decimal.ofDigits whole part)), after)

def string (rest : List Char) : Piece × List Char :=
  let body := rest.takeWhile (· ≠ '"')
  match rest.dropWhile (· ≠ '"') with
  | [] => (openString ('"' :: rest), [])
  | quote :: after =>
    (word .string ('"' :: (body ++ [quote])) (.string (String.ofList body)), after)

def mark (c : Char) (rest : List Char) : Piece × List Char :=
  match single? c, withEqual? c, rest with
  | some _, some kind, '=' :: after => (word kind [c, '='] .nil, after)
  | some kind, _, _ => (word kind [c] .nil, rest)
  | none, _, _ => (stray c, rest)

def next (c : Char) (rest : List Char) : Piece × List Char :=
  if isBlank c then (blank (c :: rest.takeWhile isBlank), rest.dropWhile isBlank)
  else if isWordStart c then
    let lexeme := c :: rest.takeWhile isWordChar
    (word (Kind.ofWord (String.ofList lexeme)) lexeme .nil, rest.dropWhile isWordChar)
  else if isDigit c then number c rest
  else if c = '"' then string rest
  else match c, rest with
    | '/', '/' :: more =>
      (comment ('/' :: '/' :: more.takeWhile (· ≠ '\n')), more.dropWhile (· ≠ '\n'))
    | _, _ => mark c rest

theorem length_dropWhile_le (p : Char → Bool) (text : List Char) :
    (text.dropWhile p).length ≤ text.length :=
  (List.dropWhile_suffix p).length_le

theorem length_fraction_le (text : List Char) : (fraction text).2.length ≤ text.length := by
  unfold fraction
  split
  · split
    · exact Nat.le_trans (length_dropWhile_le _ _) (by simp only [List.length_cons]; omega)
    · exact Nat.le_refl _
  · exact Nat.le_refl _

theorem length_string_le (rest : List Char) : (string rest).2.length ≤ rest.length := by
  have h := length_dropWhile_le (· ≠ '"') rest
  unfold string
  split
  · exact Nat.zero_le _
  · next heq =>
    simp only [heq, List.length_cons] at h
    exact Nat.le_of_succ_le h

theorem length_mark_le (c : Char) (rest : List Char) : (mark c rest).2.length ≤ rest.length := by
  unfold mark
  split <;> simp

theorem length_next_le (c : Char) (rest : List Char) : (next c rest).2.length ≤ rest.length := by
  unfold next
  split
  · exact length_dropWhile_le _ _
  split
  · exact length_dropWhile_le _ _
  split
  · exact Nat.le_trans (length_fraction_le _) (length_dropWhile_le _ _)
  split
  · exact length_string_le rest
  split
  · exact Nat.le_trans (length_dropWhile_le _ _) (Nat.le_succ _)
  · exact length_mark_le c _

def cutAfter (done : List Piece) : List Char → List Piece
  | [] => done.reverse
  | c :: rest => cutAfter ((next c rest).1 :: done) (next c rest).2
termination_by text => text.length
decreasing_by
  have := length_next_le c rest
  simp only [List.length_cons]
  omega

def cut (text : List Char) : List Piece := cutAfter [] text

theorem text_fraction (text : List Char) :
    (if (fraction text).1.isEmpty then [] else '.' :: (fraction text).1) ++ (fraction text).2 =
      text := by
  unfold fraction
  split
  · split <;> simp
  · simp

theorem text_number (c : Char) (rest : List Char) :
    (number c rest).1.text ++ (number c rest).2 = c :: rest := by
  have h := text_fraction (rest.dropWhile isDigit)
  have hw := List.takeWhile_append_dropWhile (p := isDigit) (l := rest)
  unfold number
  simp only [text]
  split at h
  · next he =>
    simp only [he, if_true, List.cons_append]
    rw [← h] at hw
    simpa using hw
  · next he =>
    simp only [he, Bool.false_eq_true, if_false]
    rw [← h] at hw
    simpa using hw

theorem text_string (rest : List Char) :
    (string rest).1.text ++ (string rest).2 = '"' :: rest := by
  have hw := List.takeWhile_append_dropWhile (p := (· ≠ '"')) (l := rest)
  unfold string
  split
  · simp [text]
  · next quote after h =>
    rw [h] at hw
    simpa [text] using hw

theorem text_mark (c : Char) (rest : List Char) :
    (mark c rest).1.text ++ (mark c rest).2 = c :: rest := by
  unfold mark
  split <;> simp [text]

theorem text_next (c : Char) (rest : List Char) :
    (next c rest).1.text ++ (next c rest).2 = c :: rest := by
  unfold next
  split
  · simp [text]
  split
  · simp [text]
  split
  · exact text_number c rest
  split
  · next h => exact h ▸ text_string rest
  split
  · simp [text]
  · exact text_mark c _

theorem text_cutAfter (done : List Piece) (text : List Char) :
    (cutAfter done text).flatMap Piece.text = done.reverse.flatMap Piece.text ++ text := by
  fun_induction cutAfter done text with
  | case1 => simp
  | case2 done c rest ih => simp [ih, text_next]

theorem text_cut (text : List Char) : (cut text).flatMap Piece.text = text :=
  text_cutAfter [] text

def lineFeeds (text : List Char) : Nat := text.count '\n'

end Piece

/-- The outcome of scanning a text: its words, the end marker, and the lexical faults. -/
structure Scan where
  words : List Token
  last : Token
  faults : List Diagnostic

namespace Scan

def tokens (s : Scan) : List Token := s.words ++ [s.last]

/-- What has been read of a text: the line reached, and what was found so far. -/
structure Progress where
  line : Nat := 1
  words : Array Token := #[]
  faults : Array Diagnostic := #[]

/-- Reads one piece. A word has the line where it starts, an open string the last line. -/
def Progress.read (p : Progress) (piece : Piece) : Progress :=
  let after := p.line + Piece.lineFeeds piece.text
  match piece with
  | .word kind lexeme literal =>
    { p with line := after, words := p.words.push ⟨kind, String.ofList lexeme, literal, p.line⟩ }
  | .blank _ | .comment _ => { p with line := after }
  | .stray _ =>
    { p with line := after, faults := p.faults.push ⟨p.line, .unspecified, .strayCharacter⟩ }
  | .openString _ =>
    { p with line := after, faults := p.faults.push ⟨after, .unspecified, .openString⟩ }

def endMarker (line : Int) : Token := ⟨.eof, "", .nil, line⟩

def Progress.finish (p : Progress) : Scan :=
  ⟨p.words.toList, endMarker p.line, p.faults.toList⟩

def ofText (text : String) : Scan :=
  ((Piece.cut text.toList).foldl Progress.read {}).finish

end Scan

end TreeWalk
