import TreeWalk.Proofs.Scope.Effect
import TreeWalk.Proofs.Tree.Formed

namespace TreeWalk

inductive Expr.SelfAt (d : Option Nat) : Expr → Prop
  | literal {value : Scalar} : SelfAt d (.literal value)
  | group {inner : Expr} : inner.SelfAt d → SelfAt d (.group inner)
  | unary {operator : Token} {right : Expr} : right.SelfAt d → SelfAt d (.unary operator right)
  | binary {left right : Expr} {operator : Token} :
      left.SelfAt d → right.SelfAt d → SelfAt d (.binary left operator right)
  | logical {left right : Expr} {operator : Token} :
      left.SelfAt d → right.SelfAt d → SelfAt d (.logical left operator right)
  | var {name : Token} {ref : Ref} : SelfAt d (.var name ref)
  | assign {name : Token} {value : Expr} {ref : Ref} :
      value.SelfAt d → SelfAt d (.assign name value ref)
  | call {callee : Expr} {paren : Token} {arguments : List Expr} :
      callee.SelfAt d → (∀ e ∈ arguments, e.SelfAt d) → SelfAt d (.call callee paren arguments)
  | get {object : Expr} {name : Token} : object.SelfAt d → SelfAt d (.get object name)
  | set {object value : Expr} {name : Token} :
      object.SelfAt d → value.SelfAt d → SelfAt d (.set object name value)
  | self {keyword : Token} {ref : Ref} : keyword.lexeme = "this" → ref.hops = d →
      SelfAt d (.self keyword ref)

/-- Each `this` in a statement that belongs to what is around the statement has a distance there. What
belongs to the methods of a class in the statement is left out. -/
inductive Stmt.SelfAt : Option Nat → Stmt → Prop
  | empty {d : Option Nat} : SelfAt d .empty
  | expression {d : Option Nat} {e : Expr} : e.SelfAt d → SelfAt d (.expression e)
  | print {d : Option Nat} {e : Expr} : e.SelfAt d → SelfAt d (.print e)
  | var {d : Option Nat} {name : Token} {initializer : Option Expr} :
      (∀ e ∈ initializer, e.SelfAt d) → SelfAt d (.var name initializer)
  | block {d : Option Nat} {body : List Stmt} :
      (∀ s ∈ body, s.SelfAt (d.map (· + 1))) → SelfAt d (.block body)
  | branch {d : Option Nat} {condition : Expr} {yes : Stmt} {no : Option Stmt} :
      condition.SelfAt d → yes.SelfAt d → (∀ s ∈ no, s.SelfAt d) →
      SelfAt d (.branch condition yes no)
  | loop {d : Option Nat} {condition : Expr} {body : Stmt} :
      condition.SelfAt d → body.SelfAt d → SelfAt d (.loop condition body)
  | function {d : Option Nat} {decl : FunDecl} :
      (∀ s ∈ decl.body, s.SelfAt (d.map (· + 1))) → SelfAt d (.function decl)
  | returns {d : Option Nat} {keyword : Token} {value : Option Expr} :
      (∀ e ∈ value, e.SelfAt d) → SelfAt d (.returns keyword value)
  | cls {d : Option Nat} {name : Token} {methods : List FunDecl} : SelfAt d (.cls name methods)

/-- The same for a function that is declared, or a method that is bound, at a place. -/
def FunDecl.SelfAt (d : Option Nat) (decl : FunDecl) : Prop :=
  ∀ s ∈ decl.body, s.SelfAt (d.map (· + 1))

namespace Resolving

section Hops

variable {name k : String}

theorem hops?_cons (scope : Scope) (scopes : List Scope) (k : String) :
    hops? (scope :: scopes) k =
      if scope.contains k then some 0 else (hops? scopes k).map (· + 1) :=
  List.findIdx?_cons

theorem hops?_inside (scopes : List Scope) (k : String) :
    hops? (.empty :: scopes) k = (hops? scopes k).map (· + 1) :=
  hops?_cons _ _ _

theorem hops?_markIn (h : name ≠ k) (defined : Bool) (scopes : List Scope) :
    hops? (markIn name defined scopes) k = hops? scopes k := by
  cases scopes with
  | nil => rfl
  | cons scope outer =>
    have hset : (scope.set name defined).contains k = scope.contains k := by
      rw [Bindings.contains, Bindings.get?_set, if_neg h.symm, Bindings.contains]
    rw [markIn, hops?_cons, hops?_cons, hset]

theorem hops?_declareIn (h : name ≠ k) (scopes : List Scope) :
    hops? (declareIn name scopes) k = hops? scopes k := by
  rw [declareIn, hops?_markIn h, hops?_markIn h]

theorem hops?_declaredIn {s : Stmt} (h : ∀ t ∈ s.declared?, t.lexeme ≠ k) (scopes : List Scope) :
    hops? (s.declaredIn scopes) k = hops? scopes k := by
  unfold Stmt.declaredIn
  cases hs : s.declared? with
  | none => rfl
  | some t => exact hops?_declareIn (h t hs) scopes

theorem hops?_parameters {ts : List Token} (h : ∀ t ∈ ts, t.lexeme ≠ k) (scopes : List Scope) :
    hops? (ts.foldl (fun scopes t ↦ declareIn t.lexeme scopes) scopes) k = hops? scopes k := by
  induction ts generalizing scopes with
  | nil => rfl
  | cons t ts ih =>
    rw [List.foldl_cons, ih fun t ht ↦ h t (.tail _ ht), hops?_declareIn (h t (.head _))]

end Hops

section Walks

variable {room : Nat} {r r' : Resolution} {d : Option Nat}

theorem RunsAll.selfAt {ss ss' : List Stmt} (h : RunsAll (stmt room) r ss ss' r')
    (hss : ∀ s ∈ ss, s.Regular ∧ s.Formed Token.Ordinary)
    (hself : ∀ s ∈ ss, ∀ {r s' r'}, Runs (stmt room s) r s' r' →
      s'.SelfAt (hops? r.scopes "this")) : ∀ s ∈ ss', s.SelfAt (hops? r.scopes "this") := by
  induction h with
  | nil => simp
  | @cons r r₁ r' s s' ss ss' hs _ ih =>
    obtain ⟨hregular, hformed⟩ := hss s (.head _)
    have hhops : hops? r₁.scopes "this" = hops? r.scopes "this" := by
      rw [stmt_scopes hregular hs, hops?_declaredIn hformed.declared]
    have hrest := ih (fun s h ↦ hss s (.tail _ h)) fun s h ↦ hself s (.tail _ h)
    exact List.forall_mem_cons.mpr ⟨hself s (.head _) hs, hhops ▸ hrest⟩

mutual

theorem expr_selfAt {room : Nat} {e e' : Expr} {r r' : Resolution} (he : e.Regular)
    (hwalk : Runs (expr room e) r e' r') : e'.SelfAt (hops? r.scopes "this") := by
  obtain ⟨room, rfl, hform⟩ := expr_runs hwalk
  cases hform with
  | literal => exact .literal
  | group h => cases he with | group he => exact .group (expr_selfAt he h)
  | unary h => cases he with | unary he => exact .unary (expr_selfAt he h)
  | binary h h' =>
    cases he with
    | binary he he' =>
      exact .binary (expr_selfAt he h) (expr_scopes he h ▸ expr_selfAt he' h')
  | logical h h' =>
    cases he with
    | logical he he' =>
      exact .logical (expr_selfAt he h) (expr_scopes he h ▸ expr_selfAt he' h')
  | var => exact .var
  | assign h => cases he with | assign he => exact .assign (expr_selfAt he h)
  | call h h' =>
    cases he with
    | call he hes =>
      exact .call (expr_selfAt he h) (expr_scopes he h ▸ exprs_selfAt hes (h'.all (expr_careful _)))
  | get h => cases he with | get he => exact .get (expr_selfAt he h)
  | set h h' =>
    cases he with
    | set he he' => exact .set (expr_scopes he' h ▸ expr_selfAt he h') (expr_selfAt he' h)
  | self => cases he with | self hthis => exact .self hthis (by rw [hthis])
  | ofStmt => cases he
termination_by (room, 0)

theorem exprs_selfAt {room : Nat} {es es' : List Expr} {r r' : Resolution}
    (hes : ∀ e ∈ es, e.Regular) (h : RunsAll (expr room) r es es' r') :
    ∀ e ∈ es', e.SelfAt (hops? r.scopes "this") := by
  cases h with
  | nil => simp
  | cons he hrest =>
    have hregular := hes _ (.head _)
    have hrest := exprs_selfAt (fun e h ↦ hes e (.tail _ h)) hrest
    rw [expr_scopes hregular he] at hrest
    exact List.forall_mem_cons.mpr ⟨expr_selfAt hregular he, hrest⟩
termination_by (room, es.length + 1)

end

theorem function_selfAt {room : Nat} {role : Role} {d d' : FunDecl} {r r' : Resolution}
    (hregular : ∀ s ∈ d.body, s.Regular) (hd : d.Formed Token.Ordinary)
    (hself : ∀ s ∈ d.body, ∀ {r s' r'}, Runs (stmt room s) r s' r' →
      s'.SelfAt (hops? r.scopes "this"))
    (h : OfFunction room role r d d' r') : d'.SelfAt (hops? r.scopes "this") := by
  cases h with
  | @mk _ params _ _ _ _ _ _ hp hb =>
    have hparams : ∀ t ∈ params, t.Ordinary := hd.params
    have hbody := (hb.all (stmt_careful room)).selfAt
      (fun s hs ↦ ⟨hregular s hs, hd.body s hs⟩) hself
    rw [parameters_runs hp, hops?_parameters hparams] at hbody
    unfold FunDecl.SelfAt
    rwa [← hops?_inside]

theorem stmt_selfAt {room : Nat} {s s' : Stmt} {r r' : Resolution} (hs : s.Regular)
    (hn : s.Formed Token.Ordinary) (hwalk : Runs (stmt room s) r s' r') :
    s'.SelfAt (hops? r.scopes "this") := by
  obtain ⟨room, rfl, hform⟩ := stmt_runs hwalk
  cases hform with
  | empty => exact .empty
  | expression h => cases hs with | expression he => exact .expression (expr_selfAt he h)
  | print h => cases hs with | print he => exact .print (expr_selfAt he h)
  | var => exact .var (by simp)
  | @initialized name _ _ _ _ _ _ _ hd h =>
    cases hs with
    | var hthis he =>
      have hself := expr_selfAt (he _ rfl) h
      rw [declare_runs hd] at hself
      refine .var (by simpa [hops?_markIn hthis] using hself)
  | block h =>
    cases hs with
    | block hss =>
      cases hn with
      | block hns =>
        have hbody := (h.all (stmt_careful _)).selfAt (fun s hs ↦ ⟨hss s hs, hns s hs⟩)
          fun s hmem ↦ stmt_selfAt (hss s hmem) (hns s hmem)
        exact .block (hops?_inside _ _ ▸ hbody)
  | branch h h' =>
    cases hs with
    | branch he hs =>
      cases hn with
      | branch _ hn =>
        exact .branch (expr_selfAt he h) (expr_scopes he h ▸ stmt_selfAt hs hn h') (by simp)
  | branches h h' h'' =>
    cases hs with
    | branch he hs hplain hs' =>
      cases hn with
      | branch _ hn _ hn' =>
        have hno := stmt_selfAt (hs' _ rfl) (hn' _ rfl) h''
        rw [stmt_scopes hs h', Stmt.declaredIn_of_none hplain, expr_scopes he h] at hno
        exact .branch (expr_selfAt he h) (expr_scopes he h ▸ stmt_selfAt hs hn h')
          (by simpa using hno)
  | loop h h' =>
    cases hs with
    | loop he hs =>
      cases hn with
      | loop _ hn => exact .loop (expr_selfAt he h) (expr_scopes he h ▸ stmt_selfAt hs hn h')
  | function hd hd' h =>
    cases hs with
    | function hss =>
      cases hn with
      | function hname hparams hns =>
        have hself := function_selfAt hss ⟨hparams, hns⟩
          (fun s hmem ↦ stmt_selfAt (hss s hmem) (hns s hmem)) (function_runs h)
        have hscopes := congrArg Resolution.scopes (define_runs hd')
        rw [declare_runs hd] at hscopes
        rw [hscopes] at hself
        exact .function ((hops?_declareIn hname r.scopes) ▸ hself)
  | returns => exact .returns (by simp)
  | returnsValue hr h =>
    cases hs with
    | returns he =>
      exact .returns (by simpa [checkReturn_runs hr] using expr_selfAt (he _ rfl) h)
  | cls => exact .cls
  | ofExpr => cases hs
termination_by room

theorem methods_selfAt {room : Nat} {ds ds' : List FunDecl} {scopes : List Scope}
    {r r' : Resolution} (hregular : ∀ d ∈ ds, ∀ s ∈ d.body, s.Regular)
    (hds : ∀ d ∈ ds, d.Formed Token.Ordinary) (hr : r.scopes = thisScope :: scopes)
    (h : RunsAll (method room) r ds ds' r') : ∀ d ∈ ds', d.SelfAt (some 0) := by
  induction h with
  | nil => simp
  | @cons r r₁ r' d d' ds ds' hd _ ih =>
    have hself := function_selfAt (hregular d (.head _)) (hds d (.head _))
      (fun s hmem _ _ _ hs ↦ stmt_selfAt (hregular d (.head _) s hmem)
        ((hds d (.head _)).body s hmem) hs) (function_runs hd)
    have hscopes := function_scopes (hregular d (.head _)) (function_runs hd)
    have hthis : hops? r.scopes "this" = some 0 := by
      rw [hr, hops?_cons, if_pos (by decide)]
    refine List.forall_mem_cons.mpr ⟨hthis ▸ hself, ?_⟩
    exact ih (fun d h ↦ hregular d (.tail _ h)) (fun d h ↦ hds d (.tail _ h)) (hscopes.trans hr)

end Walks

end Resolving

end TreeWalk
