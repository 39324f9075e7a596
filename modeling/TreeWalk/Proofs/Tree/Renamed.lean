import TreeWalk.Tree.Basic

namespace TreeWalk

section Renamed

variable (x y : String)

def spelling (anew : Bool) (name : String) : String := if anew ∧ name = x then y else name

def Token.spelled (anew : Bool) (t : Token) : Token :=
  { t with lexeme := spelling x y anew t.lexeme }

mutual

/-- Renames a variable in an expression that stands a number of scopes inside the one that declares it. -/
def Expr.renamed (depth : Nat) : Expr → Expr
  | .literal value => .literal value
  | .group e => .group (e.renamed depth)
  | .unary operator e => .unary operator (e.renamed depth)
  | .binary l operator r => .binary (l.renamed depth) operator (r.renamed depth)
  | .logical l operator r => .logical (l.renamed depth) operator (r.renamed depth)
  | .var name ref => .var (name.spelled x y (ref.hops == some depth)) ref
  | .assign name e ref =>
    .assign (name.spelled x y (ref.hops == some depth)) (e.renamed depth) ref
  | .call callee paren arguments =>
    .call (callee.renamed depth) paren (Expr.renamedAll depth arguments)
  | .get e name => .get (e.renamed depth) name
  | .set o name e => .set (o.renamed depth) name (e.renamed depth)
  | .self keyword ref => .self keyword ref
  | .ofStmt s => .ofStmt (s.renamed depth)

def Expr.renamedAll (depth : Nat) : List Expr → List Expr
  | [] => []
  | e :: es => e.renamed depth :: Expr.renamedAll depth es

/-- Renames a variable in a statement that stands a number of scopes inside the one that declares it. A
declaration by `var` is its own if there is no scope between. -/
def Stmt.renamed (depth : Nat) : Stmt → Stmt
  | .empty => .empty
  | .expression e => .expression (e.renamed depth)
  | .print e => .print (e.renamed depth)
  | .var name none => .var (name.spelled x y (depth == 0)) none
  | .var name (some e) => .var (name.spelled x y (depth == 0)) (some (e.renamed depth))
  | .block body => .block (Stmt.renamedAll (depth + 1) body)
  | .branch c yes none => .branch (c.renamed depth) (yes.renamed depth) none
  | .branch c yes (some no) =>
    .branch (c.renamed depth) (yes.renamed depth) (some (no.renamed depth))
  | .loop c body => .loop (c.renamed depth) (body.renamed depth)
  | .function d => .function (d.renamed depth)
  | .returns keyword none => .returns keyword none
  | .returns keyword (some e) => .returns keyword (some (e.renamed depth))
  | .cls name methods => .cls name (FunDecl.renamedAll (depth + 1) methods)
  | .ofExpr e => .ofExpr (e.renamed depth)
  | .unknown kind => .unknown kind

def Stmt.renamedAll (depth : Nat) : List Stmt → List Stmt
  | [] => []
  | s :: ss => s.renamed depth :: Stmt.renamedAll depth ss

/-- The parameters and the body of a function have a scope of their own. -/
def FunDecl.renamed (depth : Nat) : FunDecl → FunDecl
  | .mk name params body => .mk name params (Stmt.renamedAll (depth + 1) body)

def FunDecl.renamedAll (depth : Nat) : List FunDecl → List FunDecl
  | [] => []
  | d :: ds => d.renamed depth :: FunDecl.renamedAll depth ds

end

def Stmt.DeclareVar (ss : List Stmt) : Prop := ∃ name e, .var name e ∈ ss ∧ name.lexeme = x

mutual

/-- A local variable `x` that is declared in a scope inside a statement is renamed to `y`, and nothing
else. -/
inductive Stmt.Renames : Stmt → Stmt → Prop
  | block {body : List Stmt} : Stmt.DeclareVar x body →
      Stmt.Renames (.block body) (.block (Stmt.renamedAll x y 0 body))
  | inBlock {body body' : List Stmt} :
      Stmt.RenamesAmong body body' → Stmt.Renames (.block body) (.block body')
  | yes {c : Expr} {yes yes' : Stmt} {no : Option Stmt} :
      Stmt.Renames yes yes' → Stmt.Renames (.branch c yes no) (.branch c yes' no)
  | no {c : Expr} {yes no no' : Stmt} : Stmt.Renames no no' →
      Stmt.Renames (.branch c yes (some no)) (.branch c yes (some no'))
  | loop {c : Expr} {body body' : Stmt} :
      Stmt.Renames body body' → Stmt.Renames (.loop c body) (.loop c body')
  | function {d d' : FunDecl} :
      FunDecl.Renames d d' → Stmt.Renames (.function d) (.function d')
  | method {name : Token} {before after : List FunDecl} {d d' : FunDecl} :
      FunDecl.Renames d d' →
      Stmt.Renames (.cls name (before ++ d :: after)) (.cls name (before ++ d' :: after))

inductive Stmt.RenamesAmong : List Stmt → List Stmt → Prop
  | mk {before after : List Stmt} {s s' : Stmt} :
      Stmt.Renames s s' → Stmt.RenamesAmong (before ++ s :: after) (before ++ s' :: after)

/-- The same for a function, whose own variables are its parameters and those that its body declares. -/
inductive FunDecl.Renames : FunDecl → FunDecl → Prop
  | own {name : Token} {params : List Token} {body : List Stmt} :
      (∃ t ∈ params, t.lexeme = x) ∨ Stmt.DeclareVar x body →
      FunDecl.Renames (.mk name params body)
        (.mk name (params.map (Token.spelled x y true)) (Stmt.renamedAll x y 0 body))
  | inBody {name : Token} {params : List Token} {body body' : List Stmt} :
      Stmt.RenamesAmong body body' →
      FunDecl.Renames (.mk name params body) (.mk name params body')

end

end Renamed

end TreeWalk
