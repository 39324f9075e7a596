import TreeWalk.Tree.Basic

namespace TreeWalk

mutual

def Expr.size : Expr → Nat
  | .literal _ | .var _ _ | .self _ _ => 1
  | .group e | .unary _ e | .assign _ e _ | .get e _ => e.size + 1
  | .binary l _ r | .logical l _ r | .set l _ r => l.size + r.size + 1
  | .call callee _ arguments => callee.size + Expr.sizes arguments + 1
  | .ofStmt s => s.size + 1

def Expr.sizes : List Expr → Nat
  | [] => 0
  | e :: es => e.size + Expr.sizes es

def Stmt.size : Stmt → Nat
  | .empty | .var _ none | .returns _ none | .unknown _ => 1
  | .expression e | .print e | .var _ (some e) | .returns _ (some e) | .ofExpr e => e.size + 1
  | .block body => Stmt.sizes body + 1
  | .branch c yes none => c.size + yes.size + 1
  | .branch c yes (some no) => c.size + yes.size + no.size + 1
  | .loop c body => c.size + body.size + 1
  | .function d => d.size + 1
  | .cls _ methods => FunDecl.sizes methods + 1

def Stmt.sizes : List Stmt → Nat
  | [] => 0
  | s :: ss => s.size + Stmt.sizes ss

def FunDecl.size : FunDecl → Nat
  | .mk _ _ body => Stmt.sizes body + 1

def FunDecl.sizes : List FunDecl → Nat
  | [] => 0
  | d :: ds => d.size + FunDecl.sizes ds

end

inductive Node where
  | expr (e : Expr)
  | stmt (s : Stmt)
  | function (d : FunDecl)

namespace Node

def size : Node → Nat
  | expr e => e.size
  | stmt s => s.size
  | function d => d.size

def sizes : List Node → Nat
  | [] => 0
  | n :: ns => n.size + sizes ns

mutual

def exprToken? : Expr → Option Token
  | .literal _ | .group _ => none
  | .unary t _ | .binary _ t _ | .logical _ t _ | .var t _ | .assign t _ _ | .call _ t _
  | .get _ t | .set _ t _ | .self t _ => some t
  | .ofStmt s => stmtToken? s

def stmtToken? : Stmt → Option Token
  | .empty | .expression _ | .print _ | .block _ | .branch _ _ _ | .loop _ _ | .unknown _ => none
  | .var t _ | .returns t _ | .cls t _ | .function (.mk t _ _) => some t
  | .ofExpr e => exprToken? e

end

def token? : Node → Option Token
  | expr e => exprToken? e
  | stmt s => stmtToken? s
  | function d => some d.name

mutual

def exprChildren : Expr → List Node
  | .literal _ | .var _ _ | .self _ _ => []
  | .group e | .unary _ e | .assign _ e _ | .get e _ => [expr e]
  | .binary l _ r | .logical l _ r | .set l _ r => [expr l, expr r]
  | .call callee _ arguments => expr callee :: arguments.map expr
  | .ofStmt s => stmtChildren s

def stmtChildren : Stmt → List Node
  | .empty | .unknown _ => []
  | .expression e | .print e => [expr e]
  | .var _ e | .returns _ e => e.toList.map expr
  | .block body | .function (.mk _ _ body) => body.map stmt
  | .branch c yes no => expr c :: stmt yes :: no.toList.map stmt
  | .loop c body => [expr c, stmt body]
  | .cls _ methods => methods.map function
  | .ofExpr e => exprChildren e

end

def children : Node → List Node
  | expr e => exprChildren e
  | stmt s => stmtChildren s
  | function d => d.body.map stmt

theorem sizes_exprs (es : List Expr) : sizes (es.map expr) = Expr.sizes es := by
  induction es with
  | nil => rfl
  | cons e es ih => simpa [sizes, Expr.sizes, size] using ih

theorem sizes_stmts (ss : List Stmt) : sizes (ss.map stmt) = Stmt.sizes ss := by
  induction ss with
  | nil => rfl
  | cons s ss ih => simpa [sizes, Stmt.sizes, size] using ih

theorem sizes_functions (ds : List FunDecl) : sizes (ds.map function) = FunDecl.sizes ds := by
  induction ds with
  | nil => rfl
  | cons d ds ih => simpa [sizes, FunDecl.sizes, size] using ih

theorem sizes_append (a b : List Node) : sizes (a ++ b) = sizes a + sizes b := by
  induction a with
  | nil => simp [sizes]
  | cons n a ih => simp [sizes, ih, Nat.add_assoc]

mutual

theorem sizes_exprChildren_lt : ∀ e : Expr, sizes (exprChildren e) < e.size
  | .literal _ | .var _ _ | .self _ _ => by simp [exprChildren, Expr.size, sizes]
  | .group _ | .unary _ _ | .assign _ _ _ | .get _ _ => by
    simp [exprChildren, Expr.size, sizes, size]
  | .binary _ _ _ | .logical _ _ _ | .set _ _ _ => by
    simp [exprChildren, Expr.size, sizes, size]
  | .call callee paren arguments => by
    have h : sizes (exprChildren (.call callee paren arguments)) =
        callee.size + Expr.sizes arguments :=
      congrArg (callee.size + ·) (sizes_exprs arguments)
    rw [h]
    exact Nat.lt_succ_self _
  | .ofStmt s => by
    have h := sizes_stmtChildren_lt s
    simp only [exprChildren, Expr.size]
    omega

theorem sizes_stmtChildren_lt : ∀ s : Stmt, sizes (stmtChildren s) < s.size
  | .empty | .unknown _ | .var _ none | .returns _ none => by
    simp [stmtChildren, Stmt.size, sizes]
  | .expression _ | .print _ | .var _ (some _) | .returns _ (some _) => by
    simp [stmtChildren, Stmt.size, sizes, size]
  | .block body => by
    simp [stmtChildren, Stmt.size, sizes_stmts]
  | .function (.mk _ _ body) => by
    simp only [stmtChildren, Stmt.size, FunDecl.size, sizes_stmts]
    omega
  | .branch _ _ none | .branch _ _ (some _) => by
    simp [stmtChildren, Stmt.size, sizes, size]
    try omega
  | .loop _ _ => by simp [stmtChildren, Stmt.size, sizes, size]
  | .cls _ methods => by simp [stmtChildren, Stmt.size, sizes_functions]
  | .ofExpr e => by
    have h := sizes_exprChildren_lt e
    simp only [stmtChildren, Stmt.size]
    omega

end

theorem sizes_children_lt : ∀ n : Node, sizes n.children < n.size
  | expr e => sizes_exprChildren_lt e
  | stmt s => sizes_stmtChildren_lt s
  | function (.mk _ _ body) => by
    simp [children, size, FunDecl.size, FunDecl.body, sizes_stmts]

/-- The first token met by a search in the order of a queue: the children of a node wait behind all
nodes that wait already. -/
def anchorAmong : List Node → Option Token
  | [] => none
  | n :: waiting =>
    match n.token? with
    | some t => some t
    | none => anchorAmong (waiting ++ n.children)
termination_by waiting => sizes waiting
decreasing_by
  have h := sizes_children_lt n
  simp only [sizes_append, sizes]
  omega

end Node

/-- The shallowest token of a statement, the leftmost one on its level. -/
def Stmt.anchor (s : Stmt) : Option Token := Node.anchorAmong [.stmt s]

end TreeWalk
