import TreeWalk.Proofs.Tree.Regular
import Mathlib.Data.List.Forall2

namespace TreeWalk

/-- The distance to a scope that is not spare, and what it is without the spare ones. -/
inductive Bypass : List Bool → Nat → Nat → Prop
  | here {marks : List Bool} : Bypass (false :: marks) 0 0
  | scope {marks : List Bool} {d d' : Nat} :
      Bypass marks d d' → Bypass (false :: marks) (d + 1) (d' + 1)
  | spare {marks : List Bool} {d d' : Nat} : Bypass marks d d' → Bypass (true :: marks) (d + 1) d'

def Declares (marks : List Bool) : Prop := marks.head? ≠ some true

theorem declares_scope {marks : List Bool} : Declares (false :: marks) := by simp [Declares]

theorem declares_replicate (n : Nat) : Declares (List.replicate n false) := by
  cases n <;> simp [Declares, List.replicate_succ]

section Thinned

/-- What is known of a reference, with the spare scopes and without them. -/
structure Ref.Thinned (marks : List Bool) (ref ref' : Ref) : Prop where
  hops : Option.Rel (Bypass marks) ref.hops ref'.hops
  mark_eq : ref'.mark = ref.mark

inductive Expr.Thinned (marks : List Bool) : Expr → Expr → Prop
  | literal {value : Scalar} : Thinned marks (.literal value) (.literal value)
  | group {e e' : Expr} : Thinned marks e e' → Thinned marks (.group e) (.group e')
  | unary {operator : Token} {e e' : Expr} :
      Thinned marks e e' → Thinned marks (.unary operator e) (.unary operator e')
  | binary {operator : Token} {l l' r r' : Expr} : Thinned marks l l' → Thinned marks r r' →
      Thinned marks (.binary l operator r) (.binary l' operator r')
  | logical {operator : Token} {l l' r r' : Expr} : Thinned marks l l' → Thinned marks r r' →
      Thinned marks (.logical l operator r) (.logical l' operator r')
  | var {name : Token} {ref ref' : Ref} :
      ref.Thinned marks ref' → Thinned marks (.var name ref) (.var name ref')
  | assign {name : Token} {ref ref' : Ref} {e e' : Expr} : ref.Thinned marks ref' →
      Thinned marks e e' → Thinned marks (.assign name e ref) (.assign name e' ref')
  | call {paren : Token} {e e' : Expr} {es es' : List Expr} :
      Thinned marks e e' → List.Forall₂ (Thinned marks) es es' →
      Thinned marks (.call e paren es) (.call e' paren es')
  | get {name : Token} {e e' : Expr} :
      Thinned marks e e' → Thinned marks (.get e name) (.get e' name)
  | set {name : Token} {e e' i i' : Expr} : Thinned marks e e' → Thinned marks i i' →
      Thinned marks (.set e name i) (.set e' name i')
  | self {keyword : Token} {ref ref' : Ref} :
      ref.Thinned marks ref' → Thinned marks (.self keyword ref) (.self keyword ref')

mutual

inductive Stmt.Thinned : List Bool → Stmt → Stmt → Prop
  | empty {marks : List Bool} : Stmt.Thinned marks .empty .empty
  | expression {marks : List Bool} {e e' : Expr} :
      e.Thinned marks e' → Stmt.Thinned marks (.expression e) (.expression e')
  | print {marks : List Bool} {e e' : Expr} :
      e.Thinned marks e' → Stmt.Thinned marks (.print e) (.print e')
  | var {marks : List Bool} {name : Token} {i i' : Option Expr} :
      Declares marks → Option.Rel (Expr.Thinned marks) i i' →
      Stmt.Thinned marks (.var name i) (.var name i')
  | block {marks : List Bool} {ss ss' : List Stmt} :
      Stmt.AllThinned (false :: marks) ss ss' → Stmt.Thinned marks (.block ss) (.block ss')
  | branch {marks : List Bool} {c c' : Expr} {yes yes' : Stmt} :
      c.Thinned marks c' → Stmt.Thinned marks yes yes' →
      Stmt.Thinned marks (.branch c yes none) (.branch c' yes' none)
  | branches {marks : List Bool} {c c' : Expr} {yes yes' no no' : Stmt} :
      c.Thinned marks c' → Stmt.Thinned marks yes yes' → Stmt.Thinned marks no no' →
      Stmt.Thinned marks (.branch c yes (some no)) (.branch c' yes' (some no'))
  | loop {marks : List Bool} {c c' : Expr} {body body' : Stmt} :
      c.Thinned marks c' → Stmt.Thinned marks body body' →
      Stmt.Thinned marks (.loop c body) (.loop c' body')
  | function {marks : List Bool} {d d' : FunDecl} :
      Declares marks → FunDecl.Thinned marks d d' → Stmt.Thinned marks (.function d) (.function d')
  | returns {marks : List Bool} {keyword : Token} {e e' : Option Expr} :
      Option.Rel (Expr.Thinned marks) e e' →
      Stmt.Thinned marks (.returns keyword e) (.returns keyword e')
  | cls {marks : List Bool} {name : Token} {ds ds' : List FunDecl} :
      Declares marks → FunDecl.AllThinned (false :: marks) ds ds' →
      Stmt.Thinned marks (.cls name ds) (.cls name ds')

inductive Stmt.AllThinned : List Bool → List Stmt → List Stmt → Prop
  | nil {marks : List Bool} : Stmt.AllThinned marks [] []
  | cons {marks : List Bool} {s s' : Stmt} {ss ss' : List Stmt} :
      Stmt.Thinned marks s s' → Stmt.AllThinned marks ss ss' →
      Stmt.AllThinned marks (s :: ss) (s' :: ss')

inductive FunDecl.Thinned : List Bool → FunDecl → FunDecl → Prop
  | mk {marks : List Bool} {name : Token} {params : List Token} {body body' : List Stmt} :
      Stmt.AllThinned (false :: marks) body body' →
      FunDecl.Thinned marks (.mk name params body) (.mk name params body')

inductive FunDecl.AllThinned : List Bool → List FunDecl → List FunDecl → Prop
  | nil {marks : List Bool} : FunDecl.AllThinned marks [] []
  | cons {marks : List Bool} {d d' : FunDecl} {ds ds' : List FunDecl} :
      FunDecl.Thinned marks d d' → FunDecl.AllThinned marks ds ds' →
      FunDecl.AllThinned marks (d :: ds) (d' :: ds')

end

end Thinned

variable {marks : List Bool}

theorem Stmt.allThinned_iff {ss ss' : List Stmt} :
    Stmt.AllThinned marks ss ss' ↔ List.Forall₂ (Stmt.Thinned marks) ss ss' := by
  constructor
  · intro h
    induction ss generalizing ss' with
    | nil => cases h; exact .nil
    | cons s ss ih => cases h with | cons hs hss => exact .cons hs (ih hss)
  · intro h
    induction h with
    | nil => exact .nil
    | cons hs _ ih => exact .cons hs ih

theorem FunDecl.allThinned_iff {ds ds' : List FunDecl} :
    FunDecl.AllThinned marks ds ds' ↔ List.Forall₂ (FunDecl.Thinned marks) ds ds' := by
  constructor
  · intro h
    induction ds generalizing ds' with
    | nil => cases h; exact .nil
    | cons d ds ih => cases h with | cons hd hds => exact .cons hd (ih hds)
  · intro h
    induction h with
    | nil => exact .nil
    | cons hd _ ih => exact .cons hd ih

namespace FunDecl.Thinned

variable {d d' : FunDecl}

theorem name_eq (h : d.Thinned marks d') : d'.name = d.name := by
  cases h
  rfl

theorem params_eq (h : d.Thinned marks d') : d'.params = d.params := by
  cases h
  rfl

theorem body (h : d.Thinned marks d') :
    List.Forall₂ (Stmt.Thinned (false :: marks)) d.body d'.body := by
  cases h with
  | mk hbody => exact Stmt.allThinned_iff.mp hbody

end FunDecl.Thinned

end TreeWalk
