import TreeWalk.Machine.Basic
import TreeWalk.Tree.Anchor

namespace TreeWalk

/-- How a statement ends when nothing interrupts it. -/
inductive Flow where
  | next
  | returned (v : Value)

namespace Flow

/-- A statement in the place of an expression has the value `nil`, unless it returns or branches. -/
def toValue : Flow → Value
  | next => .nil
  | returned v => .completion v

/-- An expression in the place of a statement returns only if its value is the outcome of a return. -/
def ofValue : Value → Flow
  | .completion v => returned v
  | _ => next

end Flow

namespace Exec

def sequence (run : Stmt → Exec Flow) : List Stmt → Exec Flow
  | [] => return .next
  | s :: rest => do
    match ← run s with
    | .next => sequence run rest
    | .returned v => return .returned v

def block (run : Stmt → Exec Flow) (body : List Stmt) : Exec Flow := do
  let frame ← newFrame .empty
  within ((← get).env.inside frame) (sequence run body)

def repeatWhile (test : Exec Value) (body : Exec Flow) : Nat → Exec Flow
  | 0 => throw .endless
  | rounds + 1 => do
    if (← test).isTruthy then
      match ← body with
      | .next => repeatWhile test body rounds
      | .returned v => return .returned v
    else return .next

/-- A closure whose innermost frame holds the object that `this` names. -/
def bind (c : Closure) (this : Value) : Exec Closure := do
  let frame ← newFrame (Bindings.empty.set "this" this)
  return { c with env := c.env.inside frame }

/-- Runs the body of a closure in a new frame with its parameters. An initializer yields its object
whatever it returns. -/
def enter (run : Stmt → Exec Flow) (c : Closure) (arguments : List Value) : Exec Value := do
  let parameters := (c.decl.params.map (·.lexeme)).zip arguments
  let frame ← newFrame (.ofList parameters)
  let flow ← within (c.env.inside frame) (sequence run c.decl.body)
  if c.isInitializer then ofFit ((← get).frames.getAt c.env 0 "this")
  else
    match flow with
    | .next => return .nil
    | .returned v => return v

def instantiate (run : Stmt → Exec Flow) (info : ClassInfo) (arguments : List Value) :
    Exec Value := do
  let object := Value.object (← newObject) info
  match info.initializer? with
  | none => return object
  | some initializer =>
    discard <| enter run (← bind initializer object) arguments
    return object

inductive Callee where
  | native (n : Native)
  | function (c : Closure)
  | cls (info : ClassInfo)

namespace Callee

def arity : Callee → Int
  | native n => n.arity
  | function c => c.arity
  | cls info => info.arity

def apply (run : Stmt → Exec Flow) (arguments : List Value) : Callee → Exec Value
  | native n => return n.apply arguments
  | function c => enter run c arguments
  | cls info => instantiate run info arguments

end Callee

variable (setup : Setup)

def callee? : Value → Option Callee
  | .native i => setup.natives[i]?.map .native
  | .function _ c => some (.function c)
  | .cls _ info => some (.cls info)
  | _ => none

def call (run : Callee → Stmt → Exec Flow) (paren : Token) (value : Value) (arguments : List Value) :
    Exec Value := do
  match callee? setup value with
  | none => fail .notCallable paren
  | some callee =>
    if arguments.length ≠ callee.arity then
      fail (.argumentCount callee.arity arguments.length) paren
    else if setup.maxDepth ≤ (← get).depth then fail .stackOverflow paren
    else active paren (callee.apply (run callee) arguments)

/-- Reads a property: a field, or else a method, which is bound to the object. -/
def getProperty (object : Value) (name : Token) : Exec Value := do
  match object with
  | .object id info =>
    match ← field? id name.lexeme with
    | some v => return v
    | none =>
      match info.methods.get? name.lexeme with
      | some method =>
        let bound ← bind method object
        return .function (← identity) bound
      | none => fail (.undefinedProperty name.lexeme) name
  | _ => fail .noProperties name

def writable (object : Value) (name : Token) : Exec Nat :=
  match object with
  | .object id _ => return id
  | _ => fail .noFields name

/-- The class that a declaration makes. Of two methods with one name the later one stays. -/
def classOf (env : Env) (name : Token) (methods : List FunDecl) : ClassInfo where
  name := name.lexeme
  methods := .ofList <| methods.map fun d ↦ (d.name.lexeme, ⟨d, env, d.name.lexeme = "init"⟩)

mutual

/-- The value of an expression, in the given room. A branching statement has the value of its branch. -/
def eval : Nat → Expr → Exec Value
  | room + 5, e =>
    match e with
    | .literal value => return .scalar value
    | .group inner => eval (room + 3) inner
    | .unary operator right => do
      let r ← eval (room + 3) right
      result (← ofExcept (Operator.unary operator r))
    | .binary left operator right => do
      let l ← eval (room + 3) left
      let r ← eval (room + 3) right
      result (← ofExcept (Operator.binary operator l r))
    | .logical left operator right => do
      let l := (← eval (room + 3) left).isTruthy
      if Operator.decides operator l then return .ofBool l
      else return .ofBool (← eval (room + 3) right).isTruthy
    | .var name ref => read name ref.hops
    | .assign name value ref => do
      let v ← eval (room + 3) value
      write name ref.hops v
      return v
    | .call callee paren arguments => do
      let f ← eval (room + 3) callee
      let vs ← arguments.mapM (eval (room + 2))
      let run : Callee → Stmt → Exec Flow
        | .cls _ => exec room
        | _ => exec (room + 1)
      call setup run paren f vs
    | .get object name => do
      let o ← eval (room + 3) object
      getProperty o name
    | .set object name value => do
      let o ← eval (room + 3) object
      let id ← writable o name
      let v ← eval (room + 3) value
      setField id name.lexeme v
      return v
    | .self keyword ref => read keyword ref.hops
    | .ofStmt (.ofExpr e) => eval (room + 4) e
    | .ofStmt (.branch condition yes no) => do
      if (← eval (room + 3) condition).isTruthy then eval (room + 3) (.ofStmt yes)
      else
        match no with
        | some no => eval (room + 3) (.ofStmt no)
        | none => return .nil
    | .ofStmt s => return (← exec (room + 4) s).toValue
  | _, _ => throw .tooDeep

def exec : Nat → Stmt → Exec Flow
  | room + 3, s =>
    match s with
    | .empty => return .next
    | .expression e => do
      discard <| eval (room + 1) e
      return .next
    | .print e => do
      let v ← eval (room + 1) e
      print v.text
      return .next
    | .var name none => do
      define name.lexeme .nil
      return .next
    | .var name (some e) => do
      let v ← eval (room + 1) e
      define name.lexeme v
      return .next
    | .block body => block (exec room) body
    | .branch condition yes no => do
      if (← eval (room + 1) condition).isTruthy then exec (room + 1) yes
      else
        match no with
        | some no => exec (room + 1) no
        | none => return .next
    | .loop condition body =>
      repeatWhile (eval (room + 1) condition) (exec (room + 1) body) setup.limits.rounds
    | .function d => do
      let c : Closure := ⟨d, (← get).env, false⟩
      define d.name.lexeme (.function (← identity) c)
      return .next
    | .returns _ none => return .returned .nil
    | .returns _ (some e) => return .returned (← eval (room + 1) e)
    | .cls name methods => do
      let info := classOf (← get).env name methods
      define name.lexeme (.cls (← identity) info)
      return .next
    | .ofExpr e => return .ofValue (← eval (room + 2) e)
    | .unknown kind => throw (.unknown kind)
  | _, _ => throw .tooDeep

end

/-- Runs a top-level statement. Trees that nest too deep outside of all calls are a stack overflow at
the anchor of the statement. -/
def topLevel (s : Stmt) : Exec Unit := fun m ↦
  match exec setup setup.limits.nesting s m with
  | .ok _ m => .ok () m
  | .error .tooDeep m =>
    .error (.error ⟨.stackOverflow, s.anchor.getD ⟨.eof, "", .nil, 1⟩⟩) m
  | .error i m => .error i m

/-- Runs the statements of a program. Afterwards, however it ended, no call is active and the machine
is back at top level. -/
def program (statements : List Stmt) : Exec Unit := fun m ↦
  match (statements.forM (topLevel setup)) m with
  | .ok a m => .ok a { m with env := .globals, depth := 0 }
  | .error i m => .error i { m with env := .globals, depth := 0 }

end Exec

end TreeWalk
