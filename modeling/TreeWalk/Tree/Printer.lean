import TreeWalk.Tree.Basic

namespace TreeWalk

namespace Printer

/-- `(head part …)`, or `(head)` when the parts are empty. -/
def form (head : String) (parts : List String) : String :=
  let inner := " ".intercalate parts
  if inner.isEmpty then "(" ++ head ++ ")" else "(" ++ head ++ " " ++ inner ++ ")"

def literal : Scalar → String
  | .string s => "\"" ++ s ++ "\""
  | s => s.text

def function (d : FunDecl) (body : List String) : String :=
  let head := "fun " ++ d.name.lexeme ++ " (" ++ " ".intercalate (d.params.map (·.lexeme)) ++ ")"
  "(" ++ " ".intercalate (head :: body) ++ ")"

mutual

/-- The text of an expression, in the given room for nesting. A form takes more of it than the fixed
texts of names and assignments. -/
def expr : Nat → Expr → Except Halt String
  | room + 4, e => do
    match e with
    | .literal value => return literal value
    | .group inner => return form "group" [← expr room inner]
    | .unary operator right => return form operator.lexeme [← expr room right]
    | .binary left operator right | .logical left operator right =>
      return form operator.lexeme [← expr room left, ← expr room right]
    | .var name _ => return name.lexeme
    | .assign name value _ =>
      return "(= " ++ name.lexeme ++ " " ++ (← expr (room + 2) value) ++ ")"
    | .call callee _ arguments =>
      return form "call" ((← expr room callee) :: (← arguments.mapM (expr room)))
    | .get object name =>
      return "(. " ++ (← expr (room + 2) object) ++ " " ++ name.lexeme ++ ")"
    | .set object name value =>
      let target ← expr (room + 2) object
      return "(= (. " ++ target ++ " " ++ name.lexeme ++ ") " ++ (← expr (room + 2) value) ++ ")"
    | .self _ _ => return "this"
    | .ofStmt s => stmt (room + 3) s
  | _, _ => throw .tooDeep

def stmt : Nat → Stmt → Except Halt String
  | room + 6, s => do
    match s with
    | .empty => return "(empty)"
    | .expression e => return form ";" [← expr (room + 2) e]
    | .print e => return form "print" [← expr (room + 2) e]
    | .var name none => return "(var " ++ name.lexeme ++ ")"
    | .var name (some e) => return "(var " ++ name.lexeme ++ " " ++ (← expr (room + 4) e) ++ ")"
    | .block body => return form "block" (← body.mapM (stmt (room + 2)))
    | .branch condition yes none =>
      return form "if" [← expr (room + 2) condition, ← stmt (room + 2) yes]
    | .branch condition yes (some no) =>
      return form "if-else"
        [← expr (room + 2) condition, ← stmt (room + 2) yes, ← stmt (room + 2) no]
    | .loop condition body =>
      return form "while" [← expr (room + 2) condition, ← stmt (room + 2) body]
    | .function d => return function d (← d.body.mapM (stmt (room + 3)))
    | .returns _ none => return "(return)"
    | .returns _ (some e) => return form "return" [← expr (room + 2) e]
    | .cls name methods =>
      let texts ← methods.mapM fun d ↦ return function d (← d.body.mapM (stmt room))
      return form ("class " ++ name.lexeme) texts
    | .ofExpr e => expr (room + 5) e
    | .unknown kind => throw (.unknown kind)
  | _, _ => throw .tooDeep

end

def program (room : Nat) (statements : List Stmt) : Except Halt String :=
  return "\n".intercalate (← statements.mapM (stmt room))

end Printer

end TreeWalk
