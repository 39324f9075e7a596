import TreeWalk.Machine.Eval
import Mathlib.Logic.Relation

namespace TreeWalk

inductive Event where
  | expr (room : Nat) (e : Expr)
  | stmt (room : Nat) (s : Stmt)
  | enter (room : Nat) (c : Closure) (arguments : List Value)
  | bind (c : Closure) (this : Value)

structure Moment where
  event : Event
  machine : Machine

namespace Machine

/-- In a new frame inside an environment. -/
def inside (m : Machine) (env : Env) (b : Bindings Value) : Machine :=
  { m with frames := m.frames.push b, env := env.inside m.frames.next }

def called (m : Machine) : Machine := { m with depth := m.depth + 1 }

def fields (m : Machine) (object : Nat) : Bindings Value := m.objects[object]?.getD .empty

def newObject (m : Machine) : Machine := { m with objects := m.objects.push .empty }

def setField (m : Machine) (object : Nat) (name : String) (value : Value) : Machine :=
  { m with objects := m.objects.modify object (·.set name value) }

theorem fields_newObject (m : Machine) (object : Nat) :
    m.newObject.fields object = m.fields object := by
  unfold fields newObject
  rw [Array.getElem?_push]
  split
  · next h => simp [h]
  · rfl

theorem fields_setField (m : Machine) (object i : Nat) (name : String) (value : Value) :
    (m.setField object name value).fields i =
      if i = object ∧ i < m.objects.size then (m.fields i).set name value else m.fields i := by
  simp only [fields, setField, Array.getElem?_modify]
  grind

end Machine

def Closure.parameters (c : Closure) (arguments : List Value) : Bindings Value :=
  .ofList ((c.decl.params.map (·.lexeme)).zip arguments)

namespace Moment

open Exec

def env : Moment → Env
  | ⟨.expr _ _, m⟩ | ⟨.stmt _ _, m⟩ => m.env
  | ⟨.enter _ c _, _⟩ | ⟨.bind c _, _⟩ => c.env

/-- Whether the evaluation starts with a new frame. -/
def Opens : Moment → Prop
  | ⟨.stmt _ (.block _), _⟩ | ⟨.enter _ _ _, _⟩ | ⟨.bind _ _, _⟩ => True
  | _ => False

/-- The machines before and after some rounds of a loop. -/
inductive Rounds (test : Exec Value) (body : Exec Flow) : Nat → Machine → Machine → Prop
  | none {m : Machine} : Rounds test body 0 m m
  | more {n : Nat} {m m₁ m₂ m₃ : Machine} {v : Value} :
      Rounds test body n m m₁ → test m₁ = .ok v m₂ → v.isTruthy = true →
      body m₂ = .ok .next m₃ → Rounds test body (n + 1) m m₃

inductive Leads (setup : Setup) : Moment → Moment → Prop
  | group {room : Nat} {e : Expr} {m : Machine} :
      Leads setup ⟨.expr (room + 5) (.group e), m⟩ ⟨.expr (room + 3) e, m⟩
  | unary {room : Nat} {operator : Token} {e : Expr} {m : Machine} :
      Leads setup ⟨.expr (room + 5) (.unary operator e), m⟩ ⟨.expr (room + 3) e, m⟩
  | binaryLeft {room : Nat} {operator : Token} {e i : Expr} {m : Machine} :
      Leads setup ⟨.expr (room + 5) (.binary e operator i), m⟩ ⟨.expr (room + 3) e, m⟩
  | binaryRight {room : Nat} {operator : Token} {e i : Expr} {m m' : Machine} {v : Value} :
      eval setup (room + 3) e m = .ok v m' →
      Leads setup ⟨.expr (room + 5) (.binary e operator i), m⟩ ⟨.expr (room + 3) i, m'⟩
  | logicalLeft {room : Nat} {operator : Token} {e i : Expr} {m : Machine} :
      Leads setup ⟨.expr (room + 5) (.logical e operator i), m⟩ ⟨.expr (room + 3) e, m⟩
  | logicalRight {room : Nat} {operator : Token} {e i : Expr} {m m' : Machine} {v : Value} :
      eval setup (room + 3) e m = .ok v m' → Operator.decides operator v.isTruthy = false →
      Leads setup ⟨.expr (room + 5) (.logical e operator i), m⟩ ⟨.expr (room + 3) i, m'⟩
  | assigned {room : Nat} {name : Token} {ref : Ref} {e : Expr} {m : Machine} :
      Leads setup ⟨.expr (room + 5) (.assign name e ref), m⟩ ⟨.expr (room + 3) e, m⟩
  | callee {room : Nat} {paren : Token} {e : Expr} {es : List Expr} {m : Machine} :
      Leads setup ⟨.expr (room + 5) (.call e paren es), m⟩ ⟨.expr (room + 3) e, m⟩
  | argument {room : Nat} {paren : Token} {e i : Expr} {es is : List Expr} {m m₁ m' : Machine}
      {f : Value} {vs : List Value} :
      eval setup (room + 3) e m = .ok f m₁ → es.mapM (eval setup (room + 2)) m₁ = .ok vs m' →
      Leads setup ⟨.expr (room + 5) (.call e paren (es ++ i :: is)), m⟩ ⟨.expr (room + 2) i, m'⟩
  | enter {room : Nat} {paren : Token} {e : Expr} {es : List Expr} {m m₁ m' : Machine}
      {identity : Nat} {c : Closure} {vs : List Value} :
      eval setup (room + 3) e m = .ok (.function identity c) m₁ →
      es.mapM (eval setup (room + 2)) m₁ = .ok vs m' →
      vs.length = c.arity → m'.depth < setup.maxDepth →
      Leads setup ⟨.expr (room + 5) (.call e paren es), m⟩ ⟨.enter (room + 1) c vs, m'.called⟩
  | bindInitializer {room : Nat} {paren : Token} {e : Expr} {es : List Expr} {m m₁ m' : Machine}
      {identity : Nat} {info : ClassInfo} {c : Closure} {vs : List Value} :
      eval setup (room + 3) e m = .ok (.cls identity info) m₁ →
      es.mapM (eval setup (room + 2)) m₁ = .ok vs m' →
      vs.length = info.arity → m'.depth < setup.maxDepth → info.initializer? = some c →
      Leads setup ⟨.expr (room + 5) (.call e paren es), m⟩
        ⟨.bind c (.object m'.objects.size info), m'.called.newObject⟩
  | enterInitializer {room : Nat} {paren : Token} {e : Expr} {es : List Expr} {m m₁ m' m₂ : Machine}
      {identity : Nat} {info : ClassInfo} {c c' : Closure} {vs : List Value} :
      eval setup (room + 3) e m = .ok (.cls identity info) m₁ →
      es.mapM (eval setup (room + 2)) m₁ = .ok vs m' →
      vs.length = info.arity → m'.depth < setup.maxDepth → info.initializer? = some c →
      bind c (.object m'.objects.size info) m'.called.newObject = .ok c' m₂ →
      Leads setup ⟨.expr (room + 5) (.call e paren es), m⟩ ⟨.enter room c' vs, m₂⟩
  | object {room : Nat} {name : Token} {e : Expr} {m : Machine} :
      Leads setup ⟨.expr (room + 5) (.get e name), m⟩ ⟨.expr (room + 3) e, m⟩
  | bindMethod {room : Nat} {name : Token} {e : Expr} {m m' : Machine} {object : Nat}
      {info : ClassInfo} {c : Closure} :
      eval setup (room + 3) e m = .ok (.object object info) m' →
      (m'.fields object).get? name.lexeme = none → info.methods.get? name.lexeme = some c →
      Leads setup ⟨.expr (room + 5) (.get e name), m⟩ ⟨.bind c (.object object info), m'⟩
  | owner {room : Nat} {name : Token} {e i : Expr} {m : Machine} :
      Leads setup ⟨.expr (room + 5) (.set e name i), m⟩ ⟨.expr (room + 3) e, m⟩
  | field {room : Nat} {name : Token} {e i : Expr} {m m' : Machine} {object : Nat}
      {info : ClassInfo} :
      eval setup (room + 3) e m = .ok (.object object info) m' →
      Leads setup ⟨.expr (room + 5) (.set e name i), m⟩ ⟨.expr (room + 3) i, m'⟩
  | expression {room : Nat} {e : Expr} {m : Machine} :
      Leads setup ⟨.stmt (room + 3) (.expression e), m⟩ ⟨.expr (room + 1) e, m⟩
  | printed {room : Nat} {e : Expr} {m : Machine} :
      Leads setup ⟨.stmt (room + 3) (.print e), m⟩ ⟨.expr (room + 1) e, m⟩
  | initializer {room : Nat} {name : Token} {e : Expr} {m : Machine} :
      Leads setup ⟨.stmt (room + 3) (.var name (some e)), m⟩ ⟨.expr (room + 1) e, m⟩
  | item {room : Nat} {s : Stmt} {ss rest : List Stmt} {m m' : Machine} :
      sequence (exec setup room) ss (m.inside m.env .empty) = .ok .next m' →
      Leads setup ⟨.stmt (room + 3) (.block (ss ++ s :: rest)), m⟩ ⟨.stmt room s, m'⟩
  | condition {room : Nat} {e : Expr} {yes : Stmt} {no : Option Stmt} {m : Machine} :
      Leads setup ⟨.stmt (room + 3) (.branch e yes no), m⟩ ⟨.expr (room + 1) e, m⟩
  | yes {room : Nat} {e : Expr} {yes : Stmt} {no : Option Stmt} {m m' : Machine} {v : Value} :
      eval setup (room + 1) e m = .ok v m' → v.isTruthy = true →
      Leads setup ⟨.stmt (room + 3) (.branch e yes no), m⟩ ⟨.stmt (room + 1) yes, m'⟩
  | no {room : Nat} {e : Expr} {yes no : Stmt} {m m' : Machine} {v : Value} :
      eval setup (room + 1) e m = .ok v m' → v.isTruthy = false →
      Leads setup ⟨.stmt (room + 3) (.branch e yes (some no)), m⟩ ⟨.stmt (room + 1) no, m'⟩
  | test {room : Nat} {e : Expr} {body : Stmt} {n : Nat} {m m' : Machine} :
      Rounds (eval setup (room + 1) e) (exec setup (room + 1) body) n m m' →
      n < setup.limits.rounds →
      Leads setup ⟨.stmt (room + 3) (.loop e body), m⟩ ⟨.expr (room + 1) e, m'⟩
  | round {room : Nat} {e : Expr} {body : Stmt} {n : Nat} {m m₁ m' : Machine} {v : Value} :
      Rounds (eval setup (room + 1) e) (exec setup (room + 1) body) n m m₁ →
      n < setup.limits.rounds → eval setup (room + 1) e m₁ = .ok v m' → v.isTruthy = true →
      Leads setup ⟨.stmt (room + 3) (.loop e body), m⟩ ⟨.stmt (room + 1) body, m'⟩
  | returned {room : Nat} {keyword : Token} {e : Expr} {m : Machine} :
      Leads setup ⟨.stmt (room + 3) (.returns keyword (some e)), m⟩ ⟨.expr (room + 1) e, m⟩
  | statement {room : Nat} {c : Closure} {vs : List Value} {s : Stmt} {ss rest : List Stmt}
      {m m' : Machine} :
      c.decl.body = ss ++ s :: rest →
      sequence (exec setup room) ss (m.inside c.env (c.parameters vs)) = .ok .next m' →
      Leads setup ⟨.enter room c vs, m⟩ ⟨.stmt room s, m'⟩

end Moment

end TreeWalk
