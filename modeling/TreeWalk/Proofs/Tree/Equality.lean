import TreeWalk.Tree.Parser

namespace TreeWalk

deriving instance DecidableEq for Scalar
deriving instance DecidableEq for Token

mutual

/-- Whether two expressions are equal, in their lines and references too. -/
def Expr.same : Expr → Expr → Bool
  | .literal v, .literal v' => v = v'
  | .group e, .group e' => e.same e'
  | .unary t e, .unary t' e' => t = t' ∧ e.same e'
  | .binary l t r, .binary l' t' r' => l.same l' ∧ t = t' ∧ r.same r'
  | .logical l t r, .logical l' t' r' => l.same l' ∧ t = t' ∧ r.same r'
  | .var t ref, .var t' ref' => t = t' ∧ ref = ref'
  | .assign t e ref, .assign t' e' ref' => t = t' ∧ e.same e' ∧ ref = ref'
  | .call e t es, .call e' t' es' => e.same e' ∧ t = t' ∧ Expr.sameList es es'
  | .get e t, .get e' t' => e.same e' ∧ t = t'
  | .set e t i, .set e' t' i' => e.same e' ∧ t = t' ∧ i.same i'
  | .self t ref, .self t' ref' => t = t' ∧ ref = ref'
  | .ofStmt s, .ofStmt s' => s.same s'
  | _, _ => false

def Expr.sameList : List Expr → List Expr → Bool
  | [], [] => true
  | e :: es, e' :: es' => e.same e' ∧ Expr.sameList es es'
  | _, _ => false

def Expr.sameOption : Option Expr → Option Expr → Bool
  | none, none => true
  | some e, some e' => e.same e'
  | _, _ => false

def Stmt.same : Stmt → Stmt → Bool
  | .empty, .empty => true
  | .expression e, .expression e' => e.same e'
  | .print e, .print e' => e.same e'
  | .var t i, .var t' i' => t = t' ∧ Expr.sameOption i i'
  | .block ss, .block ss' => Stmt.sameList ss ss'
  | .branch c s o, .branch c' s' o' => c.same c' ∧ s.same s' ∧ Stmt.sameOption o o'
  | .loop c s, .loop c' s' => c.same c' ∧ s.same s'
  | .function d, .function d' => d.same d'
  | .returns t e, .returns t' e' => t = t' ∧ Expr.sameOption e e'
  | .cls t ds, .cls t' ds' => t = t' ∧ FunDecl.sameList ds ds'
  | .ofExpr e, .ofExpr e' => e.same e'
  | .unknown k, .unknown k' => k = k'
  | _, _ => false

def Stmt.sameList : List Stmt → List Stmt → Bool
  | [], [] => true
  | s :: ss, s' :: ss' => s.same s' ∧ Stmt.sameList ss ss'
  | _, _ => false

def Stmt.sameOption : Option Stmt → Option Stmt → Bool
  | none, none => true
  | some s, some s' => s.same s'
  | _, _ => false

def FunDecl.same : FunDecl → FunDecl → Bool
  | .mk t ts ss, .mk t' ts' ss' => t = t' ∧ ts = ts' ∧ Stmt.sameList ss ss'

def FunDecl.sameList : List FunDecl → List FunDecl → Bool
  | [], [] => true
  | d :: ds, d' :: ds' => d.same d' ∧ FunDecl.sameList ds ds'
  | _, _ => false

end

mutual

theorem Expr.same_iff : (e e' : Expr) → (e.same e' = true ↔ e = e')
  | .literal v, e' => by cases e' <;> simp [Expr.same]
  | .group e, e' => by cases e' <;> simp [Expr.same, e.same_iff]
  | .unary t e, e' => by cases e' <;> simp [Expr.same, e.same_iff]
  | .binary l t r, e' => by cases e' <;> simp [Expr.same, l.same_iff, r.same_iff]
  | .logical l t r, e' => by cases e' <;> simp [Expr.same, l.same_iff, r.same_iff]
  | .var t ref, e' => by cases e' <;> simp [Expr.same]
  | .assign t e ref, e' => by cases e' <;> simp [Expr.same, e.same_iff]
  | .call e t es, e' => by cases e' <;> simp [Expr.same, e.same_iff, Expr.sameList_iff es]
  | .get e t, e' => by cases e' <;> simp [Expr.same, e.same_iff]
  | .set e t i, e' => by cases e' <;> simp [Expr.same, e.same_iff, i.same_iff]
  | .self t ref, e' => by cases e' <;> simp [Expr.same]
  | .ofStmt s, e' => by cases e' <;> simp [Expr.same, s.same_iff]

theorem Expr.sameList_iff : (es es' : List Expr) → (Expr.sameList es es' = true ↔ es = es')
  | [], es' => by cases es' <;> simp [Expr.sameList]
  | e :: es, es' => by cases es' <;> simp [Expr.sameList, e.same_iff, Expr.sameList_iff es]

theorem Expr.sameOption_iff : (e e' : Option Expr) → (Expr.sameOption e e' = true ↔ e = e')
  | none, e' => by cases e' <;> simp [Expr.sameOption]
  | some e, e' => by cases e' <;> simp [Expr.sameOption, e.same_iff]

theorem Stmt.same_iff : (s s' : Stmt) → (s.same s' = true ↔ s = s')
  | .empty, s' => by cases s' <;> simp [Stmt.same]
  | .expression e, s' => by cases s' <;> simp [Stmt.same, e.same_iff]
  | .print e, s' => by cases s' <;> simp [Stmt.same, e.same_iff]
  | .var t i, s' => by cases s' <;> simp [Stmt.same, Expr.sameOption_iff i]
  | .block ss, s' => by cases s' <;> simp [Stmt.same, Stmt.sameList_iff ss]
  | .branch c s o, s' => by cases s' <;> simp [Stmt.same, c.same_iff, s.same_iff, Stmt.sameOption_iff o]
  | .loop c s, s' => by cases s' <;> simp [Stmt.same, c.same_iff, s.same_iff]
  | .function d, s' => by cases s' <;> simp [Stmt.same, d.same_iff]
  | .returns t e, s' => by cases s' <;> simp [Stmt.same, Expr.sameOption_iff e]
  | .cls t ds, s' => by cases s' <;> simp [Stmt.same, FunDecl.sameList_iff ds]
  | .ofExpr e, s' => by cases s' <;> simp [Stmt.same, e.same_iff]
  | .unknown k, s' => by cases s' <;> simp [Stmt.same]

theorem Stmt.sameList_iff : (ss ss' : List Stmt) → (Stmt.sameList ss ss' = true ↔ ss = ss')
  | [], ss' => by cases ss' <;> simp [Stmt.sameList]
  | s :: ss, ss' => by cases ss' <;> simp [Stmt.sameList, s.same_iff, Stmt.sameList_iff ss]

theorem Stmt.sameOption_iff : (s s' : Option Stmt) → (Stmt.sameOption s s' = true ↔ s = s')
  | none, s' => by cases s' <;> simp [Stmt.sameOption]
  | some s, s' => by cases s' <;> simp [Stmt.sameOption, s.same_iff]

theorem FunDecl.same_iff : (d d' : FunDecl) → (d.same d' = true ↔ d = d')
  | .mk t ts ss, .mk t' ts' ss' => by simp [FunDecl.same, Stmt.sameList_iff ss]

theorem FunDecl.sameList_iff : (ds ds' : List FunDecl) → (FunDecl.sameList ds ds' = true ↔ ds = ds')
  | [], ds' => by cases ds' <;> simp [FunDecl.sameList]
  | d :: ds, ds' => by cases ds' <;> simp [FunDecl.sameList, d.same_iff, FunDecl.sameList_iff ds]

end

instance : DecidableEq FunDecl := fun d d' ↦ decidable_of_iff _ (d.same_iff d')

instance : DecidableEq Stmt := fun s s' ↦ decidable_of_iff _ (s.same_iff s')

deriving instance DecidableEq for Program

end TreeWalk
