import TreeWalk.Bindings
import TreeWalk.Diagnostic
import TreeWalk.Tree.Anchor

namespace TreeWalk

/-- The names declared in a scope so far, each with whether its definition is complete. -/
abbrev Scope := Bindings Bool

inductive RefKind where
  | read
  | write
  | self
deriving DecidableEq, Repr

/-- A reference that was found to be local, and its distance. -/
structure Link where
  kind : RefKind
  name : Token
  hops : Nat
  mark : Option Nat

inductive Role where
  | none
  | function
  | initializer
  | method
deriving DecidableEq, Repr

/-- The state of the walk. -/
structure Resolution where
  scopes : List Scope := []
  role : Role := .none
  inClass : Bool := false
  links : Array Link := #[]
  faults : Array Diagnostic := #[]
  halted : Option Halt := none

abbrev Resolving := StateM Resolution

namespace Resolving

variable {α : Type}

def halt (h : Halt) : Resolving Unit := modify fun r ↦ { r with halted := some h }

def unlessHalted (act : Resolving Unit) : Resolving Unit := do
  if (← get).halted.isNone then act

def complain (t : Token) (c : Complaint) : Resolving Unit :=
  unlessHalted <| modify fun r ↦ { r with faults := r.faults.push (.atToken t c) }

/-- The number of scopes between the innermost one and the one that declares a name. -/
def hops? (scopes : List Scope) (name : String) : Option Nat :=
  scopes.findIdx? (·.contains name)

/-- Links a reference to the nearest enclosing declaration of its name. -/
def link (kind : RefKind) (name : Token) (ref : Ref) : Resolving Ref := do
  let r ← get
  if r.halted.isSome then return { ref with hops := none }
  match hops? r.scopes name.lexeme with
  | none => return { ref with hops := none }
  | some hops =>
    set { r with links := r.links.push ⟨kind, name, hops, ref.mark⟩ }
    return { ref with hops := some hops }

/-- Marks a name in the innermost scope. At top level names are not tracked. -/
def mark (name : String) (defined : Bool) : Resolving Unit :=
  modify fun r ↦
    match r.scopes with
    | [] => r
    | scope :: outer => { r with scopes := scope.set name defined :: outer }

def declare (name : Token) : Resolving Unit := do
  match (← get).scopes with
  | [] => return
  | scope :: _ =>
    if scope.contains name.lexeme then complain name .redeclared
    mark name.lexeme false

def define (name : Token) : Resolving Unit := mark name.lexeme true

def inScope (scope : Scope) (act : Resolving α) : Resolving α := do
  modify fun r ↦ { r with scopes := scope :: r.scopes }
  let a ← act
  modify fun r ↦ { r with scopes := r.scopes.tail }
  return a

def inFunction (role : Role) (act : Resolving α) : Resolving α := do
  let outer := (← get).role
  modify fun r ↦ { r with role }
  let a ← act
  modify fun r ↦ { r with role := outer }
  return a

def inClass (act : Resolving α) : Resolving α := do
  let outer := (← get).inClass
  modify fun r ↦ { r with inClass := true }
  let a ← act
  modify fun r ↦ { r with inClass := outer }
  return a

def function (role : Role) (body : List Stmt → Resolving (List Stmt)) (d : FunDecl) :
    Resolving FunDecl :=
  inFunction role <| inScope .empty do
    for parameter in d.params do
      declare parameter
      define parameter
    return .mk d.name d.params (← body d.body)

def methodRole (d : FunDecl) : Role :=
  if d.name.lexeme = "init" then .initializer else .method

/-- A read of a name whose own initializer is still being evaluated is a mistake. -/
def checkInitialized (name : Token) : Resolving Unit := do
  if (← get).scopes.head?.any (·.get? name.lexeme == some false) then complain name .ownInitializer

def checkReturn (keyword : Token) (hasValue : Bool) : Resolving Unit := do
  match (← get).role with
  | .none => complain keyword .returnOutside
  | .initializer => if hasValue then complain keyword .initializerReturn
  | .function | .method => return

mutual

def expr : Nat → Expr → Resolving Expr
  | room + 2, e => do
    if (← get).halted.isSome then return e
    match e with
    | .literal _ => return e
    | .group inner => return .group (← expr room inner)
    | .unary operator right => return .unary operator (← expr room right)
    | .binary left operator right => return .binary (← expr room left) operator (← expr room right)
    | .logical left operator right =>
      return .logical (← expr room left) operator (← expr room right)
    | .var name ref =>
      checkInitialized name
      return .var name (← link .read name ref)
    | .assign name value ref =>
      let value ← expr room value
      return .assign name value (← link .write name ref)
    | .call callee paren arguments =>
      let callee ← expr room callee
      return .call callee paren (← arguments.mapM (expr room))
    | .get object name => return .get (← expr room object) name
    | .set object name value =>
      let value ← expr room value
      return .set (← expr room object) name value
    | .self keyword ref =>
      if (← get).inClass then return .self keyword (← link .self keyword ref)
      complain keyword .thisOutside
      return .self keyword { ref with hops := none }
    | .ofStmt s => return .ofStmt (← stmt (room + 1) s)
  | _, e => do
    unlessHalted (halt .tooDeep)
    return e

/-- Resolves a statement, in the given room for nesting. Scopes take more of it than other statements. -/
def stmt : Nat → Stmt → Resolving Stmt
  | room + 4, s => do
    if (← get).halted.isSome then return s
    match s with
    | .empty => return s
    | .expression e => return .expression (← expr (room + 2) e)
    | .print e => return .print (← expr (room + 2) e)
    | .var name initializer =>
      declare name
      let initializer ← match initializer with
        | none => pure none
        | some e => some <$> expr (room + 2) e
      define name
      return .var name initializer
    | .block body => return .block (← inScope .empty (body.mapM (stmt (room + 1))))
    | .branch condition yes no =>
      let condition ← expr (room + 2) condition
      let yes ← stmt (room + 2) yes
      match no with
      | none => return .branch condition yes none
      | some no => return .branch condition yes (some (← stmt (room + 2) no))
    | .loop condition body =>
      return .loop (← expr (room + 2) condition) (← stmt (room + 2) body)
    | .function d =>
      declare d.name
      define d.name
      return .function (← function .function (·.mapM (stmt room)) d)
    | .returns keyword value =>
      checkReturn keyword value.isSome
      match value with
      | none => return .returns keyword none
      | some e => return .returns keyword (some (← expr (room + 2) e))
    | .cls name methods =>
      inClass do
        declare name
        define name
        let methods ← inScope (Bindings.empty.set "this" true) <|
          methods.mapM fun d ↦ function (methodRole d) (·.mapM (stmt room)) d
        return .cls name methods
    | .ofExpr e => return .ofExpr (← expr (room + 3) e)
    | .unknown kind =>
      halt (.unknown kind)
      return s
  | _, s => do
    unlessHalted (halt .tooDeep)
    return s

end

/-- Resolves one top-level statement. One that is too deep is complained about on the line of its
anchor, and what was found before that point stays. -/
def topLevel (room : Nat) (s : Stmt) : Resolving Stmt := do
  let resolved ← stmt room s
  if (← get).halted == some .tooDeep then
    let line := (s.anchor.map (·.line)).getD 1
    modify fun r ↦
      { links := r.links, faults := r.faults.push ⟨line, .unspecified, .nestingTooDeep⟩ }
  return resolved

end Resolving

structure Resolved where
  statements : List Stmt
  links : List Link
  faults : List Diagnostic

/-- Resolves top-level statements in order. A statement of unknown kind ends it without a result. -/
def Resolved.ofStatements (room : Nat) (statements : List Stmt) : Except String Resolved :=
  let (resolved, r) := (statements.mapM (Resolving.topLevel room)).run {}
  match r.halted with
  | some (.unknown kind) => .error kind
  | _ => .ok ⟨resolved, r.links.toList, r.faults.toList⟩

end TreeWalk
