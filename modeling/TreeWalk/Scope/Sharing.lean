import TreeWalk.Scope.Resolution

namespace TreeWalk

mutual

def Expr.mapRefs (f : Ref → Ref) : Expr → Expr
  | .literal value => .literal value
  | .group e => .group (e.mapRefs f)
  | .unary operator e => .unary operator (e.mapRefs f)
  | .binary l operator r => .binary (l.mapRefs f) operator (r.mapRefs f)
  | .logical l operator r => .logical (l.mapRefs f) operator (r.mapRefs f)
  | .var name ref => .var name (f ref)
  | .assign name e ref => .assign name (e.mapRefs f) (f ref)
  | .call callee paren arguments => .call (callee.mapRefs f) paren (Expr.mapRefsAll f arguments)
  | .get e name => .get (e.mapRefs f) name
  | .set o name e => .set (o.mapRefs f) name (e.mapRefs f)
  | .self keyword ref => .self keyword (f ref)
  | .ofStmt s => .ofStmt (s.mapRefs f)

def Expr.mapRefsAll (f : Ref → Ref) : List Expr → List Expr
  | [] => []
  | e :: es => e.mapRefs f :: Expr.mapRefsAll f es

def Stmt.mapRefs (f : Ref → Ref) : Stmt → Stmt
  | .empty => .empty
  | .expression e => .expression (e.mapRefs f)
  | .print e => .print (e.mapRefs f)
  | .var name none => .var name none
  | .var name (some e) => .var name (some (e.mapRefs f))
  | .block body => .block (Stmt.mapRefsAll f body)
  | .branch c yes none => .branch (c.mapRefs f) (yes.mapRefs f) none
  | .branch c yes (some no) => .branch (c.mapRefs f) (yes.mapRefs f) (some (no.mapRefs f))
  | .loop c body => .loop (c.mapRefs f) (body.mapRefs f)
  | .function d => .function (d.mapRefs f)
  | .returns keyword none => .returns keyword none
  | .returns keyword (some e) => .returns keyword (some (e.mapRefs f))
  | .cls name methods => .cls name (FunDecl.mapRefsAll f methods)
  | .ofExpr e => .ofExpr (e.mapRefs f)
  | .unknown kind => .unknown kind

def Stmt.mapRefsAll (f : Ref → Ref) : List Stmt → List Stmt
  | [] => []
  | s :: ss => s.mapRefs f :: Stmt.mapRefsAll f ss

def FunDecl.mapRefs (f : Ref → Ref) : FunDecl → FunDecl
  | .mk name params body => .mk name params (Stmt.mapRefsAll f body)

def FunDecl.mapRefsAll (f : Ref → Ref) : List FunDecl → List FunDecl
  | [] => []
  | d :: ds => d.mapRefs f :: FunDecl.mapRefsAll f ds

end

namespace Link

def isOf (l k : Link) : Bool := l.mark.isSome && l.mark == k.mark

def insert (links : Array Link) (l : Link) : Array Link :=
  match links.findIdx? l.isOf with
  | some i => links.modify i fun _ ↦ l
  | none => links.push l

/-- One link for each reference, in the order of the first ones, with the distances of the last ones. -/
def unify (links : List Link) : List Link := (links.foldl insert #[]).toList

end Link

/-- The distance of a marked reference is that of its link. Others keep what they have. -/
def Ref.relink (links : List Link) (ref : Ref) : Ref :=
  match ref.mark with
  | none => ref
  | some m => { ref with hops := (links.find? (·.mark == some m)).map (·.hops) }

def Resolved.unified (r : Resolved) : Resolved :=
  let links := Link.unify r.links
  { r with links, statements := Stmt.mapRefsAll (Ref.relink links) r.statements }

end TreeWalk
