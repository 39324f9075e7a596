import TreeWalk.Proofs.Scope.Effect
import Mathlib.Logic.Relation

namespace TreeWalk

def Node.ref? : Node → Option Ref
  | .expr (.var _ ref) | .expr (.assign _ _ ref) | .expr (.self _ ref) => some ref
  | _ => none

/-- No reference of a node or below it is left for the globals. -/
def Node.Local (n : Node) : Prop :=
  ∀ m, Relation.ReflTransGen (fun n m ↦ m ∈ n.children) n m → ∀ ref ∈ m.ref?, ref.hops ≠ none

theorem Node.Local.child {n m : Node} (h : n.Local) (hm : m ∈ n.children) : m.Local :=
  fun k hk ↦ h k (.head hm hk)

/-- No reference in the body of a function, or in the functions and classes there, is left for the globals. -/
def FunDecl.Local (d : FunDecl) : Prop := (Node.function d).Local

theorem Node.local_iff {n : Node} :
    n.Local ↔ (∀ ref ∈ n.ref?, ref.hops ≠ none) ∧ ∀ m ∈ n.children, m.Local := by
  refine ⟨fun h ↦ ⟨h n .refl, fun m hm ↦ h.child hm⟩, fun ⟨hself, hbelow⟩ m hm ↦ ?_⟩
  rcases hm.cases_head with rfl | ⟨k, hk, hm⟩
  · exact hself
  · exact hbelow k hk m hm

theorem FunDecl.local_iff {d : FunDecl} : (Node.stmt (.function d)).Local ↔ d.Local := by
  have hchildren : (Node.stmt (.function d)).children = (Node.function d).children := by
    cases d
    rfl
  rw [FunDecl.Local, Node.local_iff, Node.local_iff, hchildren]
  rfl

def Ref.Within (n : Nat) (ref : Ref) : Prop := ∃ hops < n, ref.hops = some hops

/-- No reference in an expression leads further out than to the innermost scopes, of which there are `n`. -/
inductive Expr.Closed (n : Nat) : Expr → Prop
  | literal {value : Scalar} : Closed n (.literal value)
  | group {inner : Expr} : inner.Closed n → Closed n (.group inner)
  | unary {operator : Token} {right : Expr} : right.Closed n → Closed n (.unary operator right)
  | binary {left right : Expr} {operator : Token} :
      left.Closed n → right.Closed n → Closed n (.binary left operator right)
  | logical {left right : Expr} {operator : Token} :
      left.Closed n → right.Closed n → Closed n (.logical left operator right)
  | var {name : Token} {ref : Ref} : ref.Within n → Closed n (.var name ref)
  | assign {name : Token} {value : Expr} {ref : Ref} :
      value.Closed n → ref.Within n → Closed n (.assign name value ref)
  | call {callee : Expr} {paren : Token} {arguments : List Expr} :
      callee.Closed n → (∀ e ∈ arguments, e.Closed n) → Closed n (.call callee paren arguments)
  | get {object : Expr} {name : Token} : object.Closed n → Closed n (.get object name)
  | set {object value : Expr} {name : Token} :
      object.Closed n → value.Closed n → Closed n (.set object name value)
  | self {keyword : Token} {ref : Ref} : ref.Within n → Closed n (.self keyword ref)

/-- The same for a statement. What it opens itself counts as one scope more, and a class as two: that around
the methods, and that of each method. -/
inductive Stmt.Closed : Nat → Stmt → Prop
  | empty {n : Nat} : Closed n .empty
  | expression {n : Nat} {e : Expr} : e.Closed n → Closed n (.expression e)
  | print {n : Nat} {e : Expr} : e.Closed n → Closed n (.print e)
  | var {n : Nat} {name : Token} {initializer : Option Expr} :
      (∀ e ∈ initializer, e.Closed n) → Closed n (.var name initializer)
  | block {n : Nat} {body : List Stmt} : (∀ s ∈ body, s.Closed (n + 1)) → Closed n (.block body)
  | branch {n : Nat} {condition : Expr} {yes : Stmt} {no : Option Stmt} :
      condition.Closed n → yes.Closed n → (∀ s ∈ no, s.Closed n) →
      Closed n (.branch condition yes no)
  | loop {n : Nat} {condition : Expr} {body : Stmt} :
      condition.Closed n → body.Closed n → Closed n (.loop condition body)
  | function {n : Nat} {d : FunDecl} : (∀ s ∈ d.body, s.Closed (n + 1)) → Closed n (.function d)
  | returns {n : Nat} {keyword : Token} {value : Option Expr} :
      (∀ e ∈ value, e.Closed n) → Closed n (.returns keyword value)
  | cls {n : Nat} {name : Token} {methods : List FunDecl} :
      (∀ d ∈ methods, ∀ s ∈ d.body, s.Closed (n + 2)) → Closed n (.cls name methods)

def FunDecl.Closed (n : Nat) (d : FunDecl) : Prop := ∀ s ∈ d.body, s.Closed (n + 1)

namespace Resolving

theorem within_hops? {scopes : List Scope} {name : String} {ref : Ref}
    (h : hops? scopes name ≠ none) : Ref.Within scopes.length { ref with hops := hops? scopes name } := by
  obtain ⟨d, hd⟩ := Option.ne_none_iff_exists'.mp h
  obtain ⟨hlt, -⟩ := List.findIdx?_eq_some_iff_getElem.mp hd
  exact ⟨d, hlt, hd⟩

section Walks

variable {room : Nat} {r r' : Resolution}

mutual

theorem expr_closed {room : Nat} {e e' : Expr} {r r' : Resolution} (he : e.Regular)
    (hlocal : (Node.expr e').Local) (hwalk : Runs (expr room e) r e' r') :
    e'.Closed r.scopes.length := by
  obtain ⟨room, rfl, hform⟩ := expr_runs hwalk
  cases hform with
  | literal => exact .literal
  | group h => cases he with | group he => exact .group (expr_closed he (hlocal.child (.head _)) h)
  | unary h => cases he with | unary he => exact .unary (expr_closed he (hlocal.child (.head _)) h)
  | binary h h' =>
    cases he with
    | binary he he' =>
      have hright := expr_closed he' (hlocal.child (.tail _ (.head _))) h'
      rw [expr_scopes he h] at hright
      exact .binary (expr_closed he (hlocal.child (.head _)) h) hright
  | logical h h' =>
    cases he with
    | logical he he' =>
      have hright := expr_closed he' (hlocal.child (.tail _ (.head _))) h'
      rw [expr_scopes he h] at hright
      exact .logical (expr_closed he (hlocal.child (.head _)) h) hright
  | var => exact .var (within_hops? (hlocal _ .refl _ rfl))
  | assign h =>
    cases he with
    | assign he =>
      rw [expr_scopes he h] at hlocal ⊢
      exact .assign (expr_closed he (hlocal.child (.head _)) h)
        (within_hops? (hlocal _ .refl _ rfl))
  | call h h' =>
    cases he with
    | call he hes =>
      have harguments := exprs_closed hes
        (fun e hmem ↦ hlocal.child (.tail _ (List.mem_map_of_mem hmem))) (h'.all (expr_careful _))
      rw [expr_scopes he h] at harguments
      exact .call (expr_closed he (hlocal.child (.head _)) h) harguments
  | get h => cases he with | get he => exact .get (expr_closed he (hlocal.child (.head _)) h)
  | set h h' =>
    cases he with
    | set he he' =>
      have hobject := expr_closed he (hlocal.child (.head _)) h'
      rw [expr_scopes he' h] at hobject
      exact .set hobject (expr_closed he' (hlocal.child (.tail _ (.head _))) h)
  | self => exact .self (within_hops? (hlocal _ .refl _ rfl))
  | ofStmt => cases he
termination_by (room, 0)

theorem exprs_closed {room : Nat} {es es' : List Expr} {r r' : Resolution}
    (hes : ∀ e ∈ es, e.Regular) (hlocal : ∀ e ∈ es', (Node.expr e).Local)
    (h : RunsAll (expr room) r es es' r') : ∀ e ∈ es', e.Closed r.scopes.length := by
  cases h with
  | nil => simp
  | cons he hrest =>
    have hregular := hes _ (.head _)
    have hrest := exprs_closed (fun e h ↦ hes e (.tail _ h)) (fun e h ↦ hlocal e (.tail _ h)) hrest
    rw [expr_scopes hregular he] at hrest
    exact List.forall_mem_cons.mpr ⟨expr_closed hregular (hlocal _ (.head _)) he, hrest⟩
termination_by (room, es.length + 1)

end

theorem RunsAll.closed {ss ss' : List Stmt} (h : RunsAll (stmt room) r ss ss' r')
    (hss : ∀ s ∈ ss, s.Regular) (hlocal : ∀ s ∈ ss', (Node.stmt s).Local)
    (hclosed : ∀ s ∈ ss, ∀ {r s' r'}, (Node.stmt s').Local → Runs (stmt room s) r s' r' →
      s'.Closed r.scopes.length) : ∀ s ∈ ss', s.Closed r.scopes.length := by
  induction h with
  | nil => simp
  | @cons r r₁ r' s s' ss ss' hs _ ih =>
    have hrest := ih (fun s h ↦ hss s (.tail _ h)) (fun s h ↦ hlocal s (.tail _ h))
      fun s h ↦ hclosed s (.tail _ h)
    rw [stmt_scopes (hss s (.head _)) hs, Stmt.declaredIn_length] at hrest
    exact List.forall_mem_cons.mpr ⟨hclosed s (.head _) (hlocal s' (.head _)) hs, hrest⟩

theorem function_closed {role : Role} {d d' : FunDecl} (hregular : ∀ s ∈ d.body, s.Regular)
    (hlocal : d'.Local)
    (hclosed : ∀ s ∈ d.body, ∀ {r s' r'}, (Node.stmt s').Local → Runs (stmt room s) r s' r' →
      s'.Closed r.scopes.length)
    (h : OfFunction room role r d d' r') : d'.Closed r.scopes.length := by
  cases h with
  | mk hp hb =>
    have hbody := (hb.all (stmt_careful room)).closed hregular
      (fun s hmem ↦ hlocal.child (List.mem_map_of_mem hmem)) hclosed
    rw [parameters_runs hp, parameters_length] at hbody
    exact hbody

theorem methods_closed {ds ds' : List FunDecl} (hregular : ∀ d ∈ ds, ∀ s ∈ d.body, s.Regular)
    (hlocal : ∀ d ∈ ds', d.Local)
    (hclosed : ∀ d ∈ ds, ∀ s ∈ d.body, ∀ {r s' r'}, (Node.stmt s').Local →
      Runs (stmt room s) r s' r' → s'.Closed r.scopes.length)
    (h : RunsAll (method room) r ds ds' r') : ∀ d ∈ ds', d.Closed r.scopes.length := by
  induction h with
  | nil => simp
  | @cons r r₁ r' d d' ds ds' hd _ ih =>
    have hbody := hregular d (.head _)
    have hrest := ih (fun d h ↦ hregular d (.tail _ h)) (fun d h ↦ hlocal d (.tail _ h))
      fun d h ↦ hclosed d (.tail _ h)
    rw [function_scopes hbody (function_runs hd)] at hrest
    exact List.forall_mem_cons.mpr
      ⟨function_closed hbody (hlocal d' (.head _)) (hclosed d (.head _)) (function_runs hd), hrest⟩

theorem stmt_closed {room : Nat} {s s' : Stmt} {r r' : Resolution} (hs : s.Regular)
    (hlocal : (Node.stmt s').Local) (hwalk : Runs (stmt room s) r s' r') :
    s'.Closed r.scopes.length := by
  obtain ⟨room, rfl, hform⟩ := stmt_runs hwalk
  cases hform with
  | empty => exact .empty
  | expression h =>
    cases hs with
    | expression he => exact .expression (expr_closed he (hlocal.child (.head _)) h)
  | print h =>
    cases hs with
    | print he => exact .print (expr_closed he (hlocal.child (.head _)) h)
  | var => exact .var (by simp)
  | initialized hd h =>
    cases hs with
    | var _ he =>
      have hclosed := expr_closed (he _ rfl) (hlocal.child (.head _)) h
      rw [declare_runs hd, Resolution.within_scopes, markIn_length] at hclosed
      exact .var (by simpa using hclosed)
  | block h =>
    cases hs with
    | block hss =>
      have hbody := (h.all (stmt_careful _)).closed hss
        (fun s hmem ↦ hlocal.child (List.mem_map_of_mem hmem)) fun s hmem ↦ stmt_closed (hss s hmem)
      exact .block hbody
  | branch h h' =>
    cases hs with
    | branch he hs =>
      have hyes := stmt_closed hs (hlocal.child (.tail _ (.head _))) h'
      rw [expr_scopes he h] at hyes
      exact .branch (expr_closed he (hlocal.child (.head _)) h) hyes (by simp)
  | branches h h' h'' =>
    cases hs with
    | branch he hs _ hs' =>
      have hyes := stmt_closed hs (hlocal.child (.tail _ (.head _))) h'
      have hno := stmt_closed (hs' _ rfl) (hlocal.child (.tail _ (.tail _ (.head _)))) h''
      rw [stmt_scopes hs h', Stmt.declaredIn_length, expr_scopes he h] at hno
      rw [expr_scopes he h] at hyes
      exact .branch (expr_closed he (hlocal.child (.head _)) h) hyes (by simpa using hno)
  | loop h h' =>
    cases hs with
    | loop he hs =>
      have hbody := stmt_closed hs (hlocal.child (.tail _ (.head _))) h'
      rw [expr_scopes he h] at hbody
      exact .loop (expr_closed he (hlocal.child (.head _)) h) hbody
  | function hd hd' h =>
    cases hs with
    | function hss =>
      have hclosed := function_closed hss (FunDecl.local_iff.mp hlocal)
        (fun s hmem ↦ stmt_closed (hss s hmem)) (function_runs h)
      rw [define_runs hd', declare_runs hd] at hclosed
      simp only [Resolution.within_scopes, markIn_length] at hclosed
      exact .function hclosed
  | returns => exact .returns (by simp)
  | returnsValue hr h =>
    cases hs with
    | returns he =>
      have hclosed := expr_closed (he _ rfl) (hlocal.child (.head _)) h
      rw [checkReturn_runs hr] at hclosed
      exact .returns (by simpa using hclosed)
  | cls hd hd' h =>
    cases hs with
    | cls hss =>
      have hmethods := methods_closed hss (fun d hmem ↦ hlocal.child (List.mem_map_of_mem hmem))
        (fun d hmem s hmem' ↦ stmt_closed (hss d hmem s hmem')) (h.all (method_careful _))
      rw [define_runs hd', declare_runs hd] at hmethods
      simp only [Resolution.within_scopes, List.length_cons, markIn_length] at hmethods
      exact .cls hmethods
  | ofExpr => cases hs
termination_by room

end Walks

end Resolving

end TreeWalk
