import TreeWalk.Frame
import TreeWalk.Scalar
import TreeWalk.Text.Quoted
import TreeWalk.Tree.Basic

namespace TreeWalk

/-- A function together with the environment in which its body runs. -/
structure Closure where
  decl : FunDecl
  env : Env
  isInitializer : Bool

def Closure.arity (c : Closure) : Nat := c.decl.params.length

structure ClassInfo where
  name : String
  methods : Bindings Closure

namespace ClassInfo

def initializer? (c : ClassInfo) : Option Closure := c.methods.get? "init"

def arity (c : ClassInfo) : Nat := (c.initializer?.map (·.arity)).getD 0

end ClassInfo

inductive Value where
  | scalar (s : Scalar)
  | native (index : Nat)
  | function (identity : Nat) (closure : Closure)
  | cls (identity : Nat) (info : ClassInfo)
  | object (identity : Nat) (info : ClassInfo)
  /-- The outcome of a `return` in the place of an expression. -/
  | completion (v : Value)

namespace Value

def nil : Value := scalar .nil

def ofBool (b : Bool) : Value := scalar (.bool b)

def number (x : Float) : Value := scalar (.number x)

def string (s : String) : Value := scalar (.string s)

def describe : Value → String
  | scalar (.string s) => Text.quoted s
  | scalar s => s.describe
  | native _ => "<native fn>"
  | function _ c => "<fn " ++ c.decl.name.lexeme ++ ">"
  | cls _ c => c.name
  | object _ c => c.name ++ " instance"
  | completion v => "ReturnValue(value=" ++ v.describe ++ ")"

def text : Value → String
  | scalar s => s.text
  | v => v.describe

def isTruthy : Value → Bool
  | scalar s => s.isTruthy
  | _ => true

def number? : Value → Option Float
  | scalar s => s.number?
  | _ => none

def string? : Value → Option String
  | scalar (.string s) => some s
  | _ => none

/-- Sameness of what two returns hold. What has an identity is known by it. -/
def same : Value → Value → Bool
  | scalar s, scalar t => s.same t
  | native i, native j => i == j
  | function i _, function j _ => i == j
  | cls i _, cls j _ => i == j
  | object i _, object j _ => i == j
  | completion v, completion w => v.same w
  | _, _ => false

def equals : Value → Value → Bool
  | scalar s, scalar t => s.equals t
  | v, w => v.same w

end Value

/-- A function of the host: it sees its arguments and nothing else. -/
structure Native where
  name : String
  arity : Int
  apply : List Value → Value

def Native.clock (seconds : Float) : Native := ⟨"clock", 0, fun _ ↦ .number seconds⟩

end TreeWalk
