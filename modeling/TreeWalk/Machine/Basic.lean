import TreeWalk.Limits
import TreeWalk.Machine.Operator

namespace TreeWalk

/-- What a session fixes for all its runs. -/
structure Setup where
  maxDepth : Int := defaultCalls
  seconds : Float
  added : List Native := []
  limits : Limits := .forCalls maxDepth

def Setup.natives (s : Setup) : List Native := .clock s.seconds :: s.added

structure Machine where
  frames : Frames Value
  objects : Array (Bindings Value) := #[]
  fresh : Nat := 0
  env : Env := .globals
  depth : Nat := 0
  printed : Array String := #[]

def Machine.start (natives : List Native) : Machine where
  frames := ⟨#[.ofList (natives.mapIdx fun i n ↦ (n.name, .native i))]⟩

def Machine.globals (m : Machine) : Bindings Value := m.frames.bindings 0

/-- The frame that a write goes to: the one at its distance, or the globals if they bind the name. -/
def Machine.target (m : Machine) (name : Token) : Option Nat → Except Interrupt FrameId
  | some d => (m.env.frameAt d).mapError .misfit
  | none =>
    match m.frames.binder? .globals name.lexeme with
    | some f => .ok f
    | none => .error (.error ⟨.undefinedVariable name.lexeme, name⟩)

abbrev Exec := EStateM Interrupt Machine

namespace Exec

variable {α : Type}

def fail (cause : RuntimeError.Cause) (token : Token) : Exec α := throw (.error ⟨cause, token⟩)

def ofExcept : Except RuntimeError α → Exec α
  | .ok a => pure a
  | .error e => throw (.error e)

def ofFit : Except Misfit α → Exec α
  | .ok a => pure a
  | .error m => throw (.misfit m)

def print (text : String) : Exec Unit :=
  modify fun m ↦ { m with printed := m.printed.push text }

def define (name : String) (value : Value) : Exec Unit :=
  modify fun m ↦ { m with frames := m.frames.define m.env.frame name value }

def newFrame (b : Bindings Value) : Exec FrameId :=
  modifyGet fun m ↦ (m.frames.next, { m with frames := m.frames.push b })

def identity : Exec Nat :=
  modifyGet fun m ↦ (m.fresh, { m with fresh := m.fresh + 1 })

/-- The result of an operation. A NaN that it made is told from all others. -/
def result (v : Value) : Exec Value := do
  match v with
  | .scalar (.number x) =>
    if x.isNaN then return .scalar (.nan (.operation (← identity))) else return v
  | _ => return v

def read (name : Token) (hops : Option Nat) : Exec Value := do
  let m ← get
  match hops with
  | some d => ofFit (m.frames.getAt m.env d name.lexeme)
  | none =>
    match m.frames.get? .globals name.lexeme with
    | some v => return v
    | none => fail (.undefinedVariable name.lexeme) name

def write (name : Token) (hops : Option Nat) (value : Value) : Exec Unit := fun m ↦
  match m.target name hops with
  | .ok f => .ok () { m with frames := m.frames.define f name.lexeme value }
  | .error i => .error i m

theorem write_some (name : Token) (hops : Nat) (value : Value) (m : Machine) :
    write name (some hops) value m =
      match m.frames.setAt m.env hops name.lexeme value with
      | .ok frames => .ok () { m with frames }
      | .error e => .error (.misfit e) m := by
  have hw : write name (some hops) value m = match (m.env.frameAt hops).mapError .misfit with
      | .ok f => .ok () { m with frames := m.frames.define f name.lexeme value }
      | .error i => .error i m := rfl
  rw [hw, Frames.setAt]
  cases m.env.frameAt hops <;> rfl

theorem write_none (name : Token) (value : Value) (m : Machine) :
    write name none value m =
      match m.frames.assign? .globals name.lexeme value with
      | some frames => .ok () { m with frames }
      | none => .error (.error ⟨.undefinedVariable name.lexeme, name⟩) m := by
  cases h : m.frames.binder? .globals name.lexeme <;>
    simp [write, Machine.target, Frames.assign?, h]

/-- Runs steps in an environment, and returns to the one before however they end. -/
def within (env : Env) (act : Exec α) : Exec α := fun m ↦
  let outer := m.env
  match act { m with env } with
  | .ok a m => .ok a { m with env := outer }
  | .error i m => .error i { m with env := outer }

/-- Runs the steps of a call, which counts as active meanwhile. Trees that nest too deep inside it are
a stack overflow of this call, at its closing parenthesis. -/
def active (paren : Token) (act : Exec α) : Exec α := fun m ↦
  match act { m with depth := m.depth + 1 } with
  | .ok a m => .ok a { m with depth := m.depth - 1 }
  | .error .tooDeep m =>
    .error (.error ⟨.stackOverflow, paren⟩) { m with depth := m.depth - 1 }
  | .error i m => .error i { m with depth := m.depth - 1 }

def newObject : Exec Nat :=
  modifyGet fun m ↦ (m.objects.size, { m with objects := m.objects.push .empty })

def field? (object : Nat) (name : String) : Exec (Option Value) :=
  return ((← get).objects[object]?.getD .empty).get? name

def setField (object : Nat) (name : String) (value : Value) : Exec Unit :=
  modify fun m ↦ { m with objects := m.objects.modify object (·.set name value) }

end Exec

end TreeWalk
