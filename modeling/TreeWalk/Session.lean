import TreeWalk.Machine.Eval
import TreeWalk.Scope.Resolution
import TreeWalk.Token.Lexer
import TreeWalk.Tree.Parser

namespace TreeWalk

inductive Ending where
  /-- There were complaints before evaluation, of which the run consisted no further. -/
  | refused
  | completed
  | interrupted (i : Interrupt)

structure Run where
  scan : Scan
  program : Program
  resolved : Option Resolved
  printed : List String
  ending : Ending

namespace Run

def faults (r : Run) : List Diagnostic :=
  r.scan.faults ++ r.program.faults ++ (r.resolved.map (·.faults)).getD []

def error? (r : Run) : Option RuntimeError :=
  match r.ending with
  | .interrupted (.error e) => some e
  | _ => none

/-- What a run reports: its complaints by line, then its runtime error. -/
def report (r : Run) : List String :=
  (Diagnostic.inReportOrder r.faults).map (·.text) ++ r.error?.toList.map (·.text)

end Run

structure Session where
  setup : Setup
  machine : Machine

namespace Session

def start (setup : Setup) : Session := ⟨setup, .start setup.natives⟩

/-- Evaluates statements, with what they print as the only output. -/
def evaluate (s : Session) (statements : List Stmt) : List String × Ending × Session :=
  match Exec.program s.setup statements { s.machine with printed := #[] } with
  | .ok _ m => (m.printed.toList, .completed, { s with machine := m })
  | .error i m => (m.printed.toList, .interrupted i, { s with machine := m })

def run (s : Session) (source : String) : Run × Session :=
  let limits := s.setup.limits
  let scan := Scan.ofText source
  let program := Program.ofWords limits.nesting scan.words scan.last
  if ¬ (scan.faults.isEmpty ∧ program.faults.isEmpty) then
    (⟨scan, program, none, [], .refused⟩, s)
  else
    match Resolved.ofStatements limits.nesting program.statements with
    | .error kind => (⟨scan, program, none, [], .interrupted (.unknown kind)⟩, s)
    | .ok resolved =>
      if ¬ resolved.faults.isEmpty then (⟨scan, program, some resolved, [], .refused⟩, s)
      else
        let (printed, ending, s) := s.evaluate resolved.statements
        (⟨scan, program, some resolved, printed, ending⟩, s)

end Session

end TreeWalk
