import TreeWalk.Text.DecimalDigit
import TreeWalk.Text.Quoted

namespace TreeWalk.CommandLine

inductive Switch where
  | help
  | tree
  | verbose
deriving DecidableEq, Repr

namespace Switch

def long : List (String × Switch) := [("help", help), ("ast", tree), ("verbose", verbose)]

def short? : Char → Option Switch
  | 'h' => some help
  | 'v' => some verbose
  | _ => none

def spellings : Switch → String
  | help => "-h/--help"
  | tree => "--ast"
  | verbose => "-v/--verbose"

end Switch

inductive Misuse where
  | ambiguous (argument : String) (candidates : List String)
  | ignoredValue (switch : Switch) (value : String)
  | unrecognized (arguments : List String)
  | scriptRequired
deriving DecidableEq, Repr

def Misuse.text : Misuse → String
  | ambiguous argument candidates =>
    "ambiguous option: " ++ argument ++ " could match " ++ ", ".intercalate candidates
  | ignoredValue switch value =>
    "argument " ++ switch.spellings ++ ": ignored explicit argument " ++ Text.quoted value
  | unrecognized arguments => "unrecognized arguments: " ++ " ".intercalate arguments
  | scriptRequired => "--ast requires a script"

def usage : String := "usage: lox [-h] [--ast] [-v] [script]\n"

def Misuse.message (m : Misuse) : String := usage ++ "lox: error: " ++ m.text ++ "\n"

def help : String :=
  usage ++ "\nLox tree-walking interpreter\n\npositional arguments:\n" ++
  "  script         Path to the Lox script\n\noptions:\n" ++
  "  -h, --help     show this help message and exit\n" ++
  "  --ast          Print the parsed program instead of running it\n" ++
  "  -v, --verbose  Log pipeline stages to stderr\n"

/-- One argument by itself. -/
inductive Argument where
  | plain (text : String)
  | dashes
  | long (switch : Switch) (value : Option String)
  | short (switch : Switch) (joined : Option (List Char))
  | unknown (text : String)

namespace Argument

def text : Argument → String
  | plain t => t
  | dashes => "--"
  | long _ _ | short _ _ => ""
  | unknown t => t

def isSwitch : Argument → Bool
  | plain _ | dashes => false
  | long _ _ | short _ _ | unknown _ => true

/-- Digits, or digits with a point before the last of them. A line feed at the end does no harm. -/
def isNumber (cs : List Char) : Bool :=
  let isDigit (c : Char) : Bool := (Text.digitValue? c).isSome
  let body := if cs.getLast? = some '\n' then cs.dropLast else cs
  match body.dropWhile isDigit with
  | [] => !body.isEmpty
  | '.' :: fraction => !fraction.isEmpty && fraction.all isDigit
  | _ => false

/-- An argument after one dash or two that is no switch: still plain if it is a negative number or has
a space in it. -/
def otherwise (text : String) : Argument :=
  if isNumber (text.toList.drop 1) || text.toList.contains ' ' then plain text else unknown text

def ofLong (text : String) (cs : List Char) : Except Misuse Argument :=
  let name := cs.takeWhile (· ≠ '=')
  let value := match cs.dropWhile (· ≠ '=') with
    | [] => none
    | _ :: value => some (String.ofList value)
  match Switch.long.filter fun s ↦ name.isPrefixOf s.1.toList with
  | [] => .ok (otherwise text)
  | [s] => .ok (long s.2 value)
  | several => .error (.ambiguous text (several.map fun s ↦ "--" ++ s.1))

def joinedTo : List Char → Option (List Char)
  | [] => none
  | '=' :: value => some value
  | joined => some joined

def ofText (text : String) : Except Misuse Argument :=
  match text.toList with
  | ['-', '-'] => .ok dashes
  | '-' :: '-' :: cs => ofLong text cs
  | '-' :: c :: joined =>
    match Switch.short? c with
    | some s => .ok (short s (joinedTo joined))
    | none => .ok (otherwise text)
  | _ => .ok (plain text)

/-- Arguments one by one. Behind two dashes all are plain. -/
def ofTexts : List String → Except Misuse (List Argument)
  | [] => .ok []
  | t :: ts => do
    match ← ofText t with
    | dashes => return dashes :: ts.map plain
    | a => return a :: (← ofTexts ts)

end Argument

/-- A short switch and those joined to it. What is joined to a switch and starts with none is a value
that the switch does not take. -/
def joinedSwitches (switch : Switch) : List Char → Except Misuse (List Switch)
  | [] => .ok [switch]
  | c :: joined =>
    match Switch.short? c with
    | none => .error (.ignoredValue switch (String.ofList (c :: joined)))
    | some next => return switch :: (← joinedSwitches next joined)

structure Options where
  script : Option String := none
  tree : Bool := false
  verbose : Bool := false
deriving DecidableEq, Repr

structure Gathered where
  options : Options := {}
  unrecognized : List String := []

namespace Gathered

def take (g : Gathered) : Switch → Gathered
  | .help => g
  | .tree => { g with options := { g.options with tree := true } }
  | .verbose => { g with options := { g.options with verbose := true } }

def refuse (g : Gathered) (texts : List String) : Gathered :=
  { g with unrecognized := g.unrecognized ++ texts }

def offer (g : Gathered) (text : String) : Gathered :=
  if g.options.script.isSome then g.refuse [text]
  else { g with options := { g.options with script := some text } }

/-- Takes the arguments behind the last switch: one of them as the script, if it is still open, with the
two dashes next to it. -/
def finish (g : Gathered) (rest : List Argument) : Gathered :=
  let texts := rest.map (·.text)
  if g.options.script.isSome then g.refuse texts
  else
    match rest with
    | [] | [.dashes] => g
    | .dashes :: a :: _ => (g.offer a.text).refuse (texts.drop 2)
    | a :: .dashes :: _ => (g.offer a.text).refuse (texts.drop 2)
    | a :: _ => (g.offer a.text).refuse (texts.drop 1)

end Gathered

inductive Request where
  | help
  | perform (options : Options)
deriving DecidableEq, Repr

namespace Request

def ofGathered (g : Gathered) : Except Misuse Request :=
  if ¬ g.unrecognized.isEmpty then .error (.unrecognized g.unrecognized)
  else if g.options.tree && g.options.script.all (·.isEmpty) then .error .scriptRequired
  else .ok (.perform g.options)

def gather (g : Gathered) : List Argument → Except Misuse Request
  | [] => ofGathered g
  | a :: rest =>
    match a with
    | .plain _ | .dashes =>
      if rest.any (·.isSwitch) then gather (g.offer a.text) rest
      else ofGathered (g.finish (a :: rest))
    | .unknown text => gather (g.refuse [text]) rest
    | .long switch (some value) => .error (.ignoredValue switch value)
    | .long .help none => .ok .help
    | .long switch none => gather (g.take switch) rest
    | .short switch (some []) => .error (.ignoredValue switch "")
    | .short switch joined => do
      let switches ← joinedSwitches switch (joined.getD [])
      if switches.contains .help then return .help
      gather (switches.foldl Gathered.take g) rest

def ofArguments (texts : List String) : Except Misuse Request := do
  gather {} (← Argument.ofTexts texts)

end Request

end TreeWalk.CommandLine
