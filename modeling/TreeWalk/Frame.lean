import TreeWalk.Bindings

namespace TreeWalk

abbrev FrameId := Nat

/-- The innermost frame, and the frames around it from the inside out. -/
structure Env where
  frame : FrameId
  outer : List FrameId
deriving DecidableEq, Repr

namespace Env

def globals : Env := ⟨0, []⟩

def chain (e : Env) : List FrameId := e.frame :: e.outer

def inside (e : Env) (frame : FrameId) : Env := ⟨frame, e.chain⟩

end Env

/-- What goes wrong at a distance that does not fit the frames. -/
inductive Misfit where
  | pastGlobals
  | unbound (name : String)
deriving DecidableEq, Repr

def Env.frameAt (e : Env) (hops : Nat) : Except Misfit FrameId :=
  match e.chain[hops]? with
  | some f => .ok f
  | none => .error .pastGlobals

structure Frames (α : Type) where
  frames : Array (Bindings α) := #[]

namespace Frames

variable {α : Type}

def bindings (fs : Frames α) (f : FrameId) : Bindings α := fs.frames[f]?.getD .empty

def push (fs : Frames α) (b : Bindings α) : Frames α := ⟨fs.frames.push b⟩

def next (fs : Frames α) : FrameId := fs.frames.size

def define (fs : Frames α) (f : FrameId) (name : String) (value : α) : Frames α :=
  ⟨fs.frames.modify f (·.set name value)⟩

theorem bindings_push (fs : Frames α) (b : Bindings α) (f : FrameId) :
    (fs.push b).bindings f = if f = fs.next then b else fs.bindings f := by
  simp only [bindings, push, next, Array.getElem?_push]
  by_cases h : f = fs.frames.size <;> simp [h]

theorem bindings_define (fs : Frames α) (f g : FrameId) (name : String) (value : α) :
    (fs.define f name value).bindings g =
      if g = f ∧ g < fs.next then (fs.bindings g).set name value else fs.bindings g := by
  simp only [bindings, define, next, Array.getElem?_modify]
  grind

def binder? (fs : Frames α) (e : Env) (name : String) : Option FrameId :=
  e.chain.find? fun f ↦ (fs.bindings f).contains name

def get? (fs : Frames α) (e : Env) (name : String) : Option α :=
  e.chain.findSome? fun f ↦ (fs.bindings f).get? name

def assign? (fs : Frames α) (e : Env) (name : String) (value : α) : Option (Frames α) :=
  (fs.binder? e name).map fun f ↦ fs.define f name value

def getAt (fs : Frames α) (e : Env) (hops : Nat) (name : String) : Except Misfit α := do
  let f ← e.frameAt hops
  match (fs.bindings f).get? name with
  | some value => return value
  | none => throw (.unbound name)

def setAt (fs : Frames α) (e : Env) (hops : Nat) (name : String) (value : α) :
    Except Misfit (Frames α) :=
  (e.frameAt hops).map fun f ↦ fs.define f name value

end Frames

end TreeWalk
