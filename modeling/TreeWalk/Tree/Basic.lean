import TreeWalk.Token.Basic

namespace TreeWalk

/-- What is known of a reference to a name. -/
structure Ref where
  hops : Option Nat := none
  /-- Tells which reference it is, where one may stand in several places. -/
  mark : Option Nat := none
deriving DecidableEq, Repr

mutual

inductive Expr where
  | literal (value : Scalar)
  | group (inner : Expr)
  | unary (operator : Token) (right : Expr)
  | binary (left : Expr) (operator : Token) (right : Expr)
  | logical (left : Expr) (operator : Token) (right : Expr)
  | var (name : Token) (ref : Ref)
  | assign (name : Token) (value : Expr) (ref : Ref)
  | call (callee : Expr) (paren : Token) (arguments : List Expr)
  | get (object : Expr) (name : Token)
  | set (object : Expr) (name : Token) (value : Expr)
  | self (keyword : Token) (ref : Ref)
  | ofStmt (s : Stmt)

inductive Stmt where
  | empty
  | expression (e : Expr)
  | print (e : Expr)
  | var (name : Token) (initializer : Option Expr)
  | block (body : List Stmt)
  | branch (condition : Expr) (yes : Stmt) (no : Option Stmt)
  | loop (condition : Expr) (body : Stmt)
  | function (decl : FunDecl)
  | returns (keyword : Token) (value : Option Expr)
  | cls (name : Token) (methods : List FunDecl)
  | ofExpr (e : Expr)
  | unknown (kind : String)

inductive FunDecl where
  | mk (name : Token) (params : List Token) (body : List Stmt)

end

namespace FunDecl

def name : FunDecl → Token
  | mk name _ _ => name

def params : FunDecl → List Token
  | mk _ params _ => params

def body : FunDecl → List Stmt
  | mk _ _ body => body

end FunDecl

inductive Halt where
  | tooDeep
  | unknown (kind : String)
deriving DecidableEq, Repr

/-- A `for` statement: the initializer runs once in a scope around the loop, the increment after each
round of the body. -/
def Stmt.forLoop (initializer : Stmt) (condition : Expr) (increment body : Stmt) : Stmt :=
  .block [initializer, .loop condition (.block [body, increment])]

end TreeWalk
