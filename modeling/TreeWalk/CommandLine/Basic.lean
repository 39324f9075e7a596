import TreeWalk.CommandLine.FileTree
import TreeWalk.CommandLine.Request
import TreeWalk.Session
import TreeWalk.Settings
import TreeWalk.Text.Charset
import TreeWalk.Text.Space
import TreeWalk.Tree.Printer

namespace TreeWalk.CommandLine

structure Transcript where
  out : String := ""
  err : String := ""

namespace Transcript

def append (a b : Transcript) : Transcript := ⟨a.out ++ b.out, a.err ++ b.err⟩

instance : Append Transcript := ⟨append⟩

def asLines (ls : List String) : String := String.join (ls.map (· ++ "\n"))

def ofOut (ls : List String) : Transcript := { out := asLines ls }

def ofErr (ls : List String) : Transcript := { err := asLines ls }

def render (cs : Text.Charset) (t : Transcript) : Transcript := ⟨cs.render t.out, cs.render t.err⟩

end Transcript

def notes (verbose : Bool) (ls : List String) : List String :=
  if verbose then ls.map ("DEBUG " ++ ·) else []

def faultCount (n : Nat) : String := " (" ++ toString n ++ " errors)"

def scanNote (s : Scan) : String :=
  "Scanned " ++ toString s.tokens.length ++ " tokens" ++ faultCount s.faults.length

def programNote (p : Program) : String :=
  "Parsed " ++ toString p.statements.length ++ " statements" ++ faultCount p.faults.length

def resolvedNote (r : Resolved) : String :=
  "Resolved " ++ toString r.links.length ++ " local references" ++ faultCount r.faults.length

def errorNote (e : RuntimeError) : String :=
  "Runtime error at line " ++ toString e.token.line ++ ": " ++ e.cause.text

def refusalNote (r : Run) : Option String :=
  if r.faults.isEmpty then none
  else some ("Run stopped with " ++ toString r.faults.length ++ " static errors")

def runTranscript (verbose : Bool) (r : Run) : Transcript :=
  let before := [scanNote r.scan, programNote r.program] ++ r.resolved.toList.map resolvedNote ++
    r.error?.toList.map errorNote
  .ofOut r.printed ++
    .ofErr (notes verbose before ++ r.report ++ notes verbose (refusalNote r).toList)

def staticError : Nat := 65

def noInput : Nat := 66

def runtimeError : Nat := 70

def misused : Nat := 2

def runExit (r : Run) : Nat :=
  match r.ending with
  | .refused => staticError
  | .completed => 0
  | .interrupted _ => runtimeError

/-- What is beyond the command line's own means. -/
inductive Breakdown where
  | setting (m : Settings.Malformed)
  | tooManyCalls
  | zeroInPath
  | undecodable
deriving DecidableEq, Repr

def Breakdown.text : Breakdown → String
  | setting m => m.text
  | tooManyCalls => "Too many calls."
  | zeroInPath => "embedded null byte"
  | undecodable => "The script is not valid UTF-8."

structure Outcome where
  exit : Except Breakdown Nat
  transcript : Transcript

/-- What the command line is given. -/
structure Host where
  arguments : List String
  read : String → Except Unreadable ByteArray
  input : String := ""
  setting : Option String := none
  charset : Text.Charset := .unicode
  seconds : Float

def withScript (h : Host) (path : String) (before : Transcript) (go : String → Outcome) : Outcome :=
  if path.toList.contains '\x00' then ⟨.error .zeroInPath, before⟩
  else
    match h.read path with
    | .error u =>
      ⟨.ok noInput, before ++ .ofErr ["Could not read '" ++ path ++ "': " ++ u.text]⟩
    | .ok bytes =>
      match Text.ofFile? bytes with
      | none => ⟨.error .undecodable, before⟩
      | some source =>
        let outcome := go source
        { outcome with transcript := before ++ outcome.transcript }

def printTree (limits : Limits) (verbose : Bool) (source : String) : Outcome :=
  let scan := Scan.ofText source
  let program := Program.ofWords limits.nesting scan.words scan.last
  let told : Transcript := .ofErr (notes verbose [scanNote scan, programNote program])
  let faults := scan.faults ++ program.faults
  if ¬ faults.isEmpty then
    ⟨.ok staticError, told ++ .ofErr ((Diagnostic.inReportOrder faults).map (·.text))⟩
  else
    match Printer.program limits.nesting program.statements with
    | .ok text => ⟨.ok 0, told ++ .ofOut [text]⟩
    | .error _ => ⟨.ok staticError, told ++ .ofErr [Complaint.nestingTooDeep.text]⟩

def runScript (setup : Setup) (verbose : Bool) (source : String) : Outcome :=
  let (run, _) := (Session.start setup).run source
  ⟨.ok (runExit run), runTranscript verbose run⟩

def prompt : String := "> "

def respond (verbose : Bool) (s : Session) (line : String) : Option (Transcript × Session) :=
  let content := Text.trim Text.isSpace line.toList
  if content = "exit".toList then none
  else if content.isEmpty then some ({}, s)
  else
    let (run, s) := s.run line
    some (runTranscript verbose run, s)

def converse (verbose : Bool) : Session → List String → Transcript
  | _, [] => { out := prompt }
  | s, line :: rest =>
    match respond verbose s line with
    | none => { out := prompt }
    | some (t, s) => { out := prompt } ++ t ++ converse verbose s rest

def setupOf (h : Host) : Except Breakdown Setup := do
  let maxDepth ← (Settings.maxDepth h.setting).mapError .setting
  if Limits.areFor maxDepth then return { maxDepth, seconds := h.seconds }
  else throw .tooManyCalls

def perform (h : Host) (o : Options) : Outcome :=
  let script := o.script.filter (¬ ·.isEmpty)
  match o.tree, script with
  | true, some path => withScript h path {} (printTree (.forCalls defaultCalls) o.verbose)
  | true, none => ⟨.ok misused, { err := Misuse.scriptRequired.message }⟩
  | false, script =>
    match setupOf h, script with
    | .error b, _ => ⟨.error b, {}⟩
    | .ok setup, none => ⟨.ok 0, converse o.verbose (.start setup) (Text.lines h.input)⟩
    | .ok setup, some path =>
      withScript h path (.ofErr (notes o.verbose ["Running " ++ path])) (runScript setup o.verbose)

/-- The command line as a function of what it is given. -/
def outcome (h : Host) : Outcome :=
  let o : Outcome := match Request.ofArguments h.arguments with
    | .error m => ⟨.ok misused, { err := m.message }⟩
    | .ok .help => ⟨.ok 0, { out := help }⟩
    | .ok (.perform options) => perform h options
  { o with transcript := o.transcript.render h.charset }

end TreeWalk.CommandLine
