import TreeWalk.CommandLine.Basic

namespace TreeWalk.CommandLine

def isError (number code : UInt32) : Bool := code == number || code == 0 - number

def directoryError : UInt32 := 21

def longNameError : UInt32 := 36

def readFile (path : String) : IO (Except Unreadable ByteArray) := do
  match ← (IO.FS.readBinFile path).toBaseIO with
  | .ok bytes => return .ok bytes
  | .error (.noFileOrDirectory _ _ _) => return .error .missing
  | .error (.inappropriateType _ code _) =>
    return .error (if isError directoryError code then .directory else .notDirectory)
  | .error (.invalidArgument f code d) =>
    if isError longNameError code then return .error .nameTooLong
    else throw (.invalidArgument f code d)
  | .error e => throw e

def write (t : Transcript) : IO Unit := do
  let out ← IO.getStdout
  let err ← IO.getStderr
  out.putStr t.out
  out.flush
  err.putStr t.err
  err.flush

def answer (verbose : Bool) (s : Session) : List String → IO (Option Session)
  | [] => return some s
  | line :: rest => do
    match respond verbose s line with
    | none => return none
    | some (t, s) =>
      write t
      write { out := prompt }
      answer verbose s rest

/-- Reads and answers lines until the input or the conversation ends. -/
partial def talk (verbose : Bool) (s : Session) : IO Unit := do
  let piece ← (← IO.getStdin).getLine
  if let some s ← answer verbose s (Text.lines piece) then
    if ¬ piece.isEmpty then talk verbose s

def hostFor (arguments : List String) (script : Option String) : IO Host := do
  let content ← match script with
    | some path => readFile path
    | none => pure (.error .missing)
  return {
    arguments
    read := fun _ ↦ content
    setting := ← IO.getEnv "LOX_MAX_CALL_DEPTH"
    seconds := (← IO.monoMsNow).toFloat / 1000 }

def finish (o : Outcome) : IO UInt32 := do
  write o.transcript
  match o.exit with
  | .ok code => return UInt32.ofNat code
  | .error b =>
    write (.ofErr [b.text])
    return 1

end TreeWalk.CommandLine

open TreeWalk TreeWalk.CommandLine in
def main (arguments : List String) : IO UInt32 := do
  match Request.ofArguments arguments with
  | .ok (.perform o) =>
    let script := o.script.filter (¬ ·.isEmpty)
    let host ← hostFor arguments script
    match script, o.tree, setupOf host with
    | none, false, .ok setup =>
      write { out := prompt }
      talk o.verbose (.start setup)
      return 0
    | _, _, _ => finish (outcome host)
  | _ => finish (outcome (← hostFor arguments none))
