import TreeWalk.Proofs.Tree.Levels
import TreeWalk.Proofs.Tree.Regular
import TreeWalk.Scope.Resolution

namespace TreeWalk

/-- What is around a node. -/
structure Around where
  role : Role := .none
  inMethod : Bool := false
  isLocal : Bool := false
  initializing : Option String := none

/-- What is around the nodes right below a node. -/
def Around.inside (a : Around) : Node → Around
  | .stmt (.block _) => { a with isLocal := true }
  | .stmt (.var name _) => if a.isLocal then { a with initializing := some name.lexeme } else a
  | .stmt (.function _) => { a with role := .function, isLocal := true }
  | .function d => { a with role := Resolving.methodRole d, inMethod := true, isLocal := true }
  | _ => a

structure Site where
  around : Around
  node : Node

def Node.sites (a : Around) (n : Node) : List Site :=
  ⟨a, n⟩ :: n.children.attach.flatMap fun ⟨m, _⟩ ↦ m.sites (a.inside n)
termination_by n.size
decreasing_by exact size_lt_of_mem ‹_›

theorem Node.sites_eq (a : Around) (n : Node) :
    n.sites a = ⟨a, n⟩ :: n.children.flatMap (sites (a.inside n)) := by
  rw [sites, List.flatMap_subtype fun _ _ ↦ rfl, List.unattach_attach]

/-- Of names declared in order, those that are spelled like an earlier one. -/
def repeatedAfter (earlier : List String) : List Token → List Token
  | [] => []
  | t :: ts =>
    if t.lexeme ∈ earlier then t :: repeatedAfter earlier ts
    else repeatedAfter (t.lexeme :: earlier) ts

def redeclarations (names : List Token) : List Diagnostic :=
  (repeatedAfter [] names).map (.atToken · .redeclared)

def Stmt.declaredBy (ss : List Stmt) : List Token := ss.filterMap declared?

/-- The names in the scope of a function, where its parameters come first. -/
def FunDecl.names (d : FunDecl) : List Token := d.params ++ Stmt.declaredBy d.body

/-- The rules that a node itself breaks, each with the token at which it does. -/
def Site.violations : Site → List Diagnostic
  | ⟨a, .stmt (.returns keyword value)⟩ =>
    if a.role = .none then [.atToken keyword .returnOutside]
    else if a.role = .initializer ∧ value.isSome then [.atToken keyword .initializerReturn]
    else []
  | ⟨a, .expr (.self keyword _)⟩ => if a.inMethod then [] else [.atToken keyword .thisOutside]
  | ⟨a, .expr (.var name _)⟩ =>
    if a.initializing = some name.lexeme then [.atToken name .ownInitializer] else []
  | ⟨_, .stmt (.block body)⟩ => redeclarations (Stmt.declaredBy body)
  | ⟨_, .stmt (.function d)⟩ | ⟨_, .function d⟩ => redeclarations d.names
  | _ => []

def Node.violations (a : Around) (n : Node) : List Diagnostic := (n.sites a).flatMap Site.violations

theorem Node.violations_eq (a : Around) (n : Node) :
    n.violations a = Site.violations ⟨a, n⟩ ++ n.children.flatMap (violations (a.inside n)) := by
  rw [violations, sites_eq, List.flatMap_cons, List.flatMap_assoc]
  rfl

/-- The rules broken by a program. -/
def violations (program : List Stmt) : List Diagnostic :=
  program.flatMap fun s ↦ (Node.stmt s).violations {}

end TreeWalk
