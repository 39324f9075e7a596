import TreeWalk.Proofs.Tree.Alike
import TreeWalk.Proofs.Tree.Regular
import TreeWalk.Proofs.Tree.Renamed

namespace TreeWalk

/-- Whether the scope that a reference is bound to is marked. One that is not local is bound to none. -/
def markAt (marks : List Bool) : Option Nat → Bool
  | none => false
  | some hops => marks.getD hops false

section Respelled

variable (x y : String)

/-- A token of the first text and the same place in the second. -/
def Token.Renamed (t t' : Token) : Prop := ∃ anew, t' = t.spelled x y anew

/-- A name other than `y`, spelled anew where it is to be. -/
structure Token.Respelled (anew : Bool) (t t' : Token) : Prop where
  known : t.lexeme ≠ y
  eq : t' = t.spelled x y anew

inductive Expr.Respelled (marks : List Bool) : Expr → Expr → Prop
  | literal {value : Scalar} : Respelled marks (.literal value) (.literal value)
  | group {e e' : Expr} : Respelled marks e e' → Respelled marks (.group e) (.group e')
  | unary {operator : Token} {e e' : Expr} :
      Respelled marks e e' → Respelled marks (.unary operator e) (.unary operator e')
  | binary {operator : Token} {l l' r r' : Expr} : Respelled marks l l' → Respelled marks r r' →
      Respelled marks (.binary l operator r) (.binary l' operator r')
  | logical {operator : Token} {l l' r r' : Expr} : Respelled marks l l' → Respelled marks r r' →
      Respelled marks (.logical l operator r) (.logical l' operator r')
  | var {name name' : Token} {ref : Ref} : name.Respelled x y (markAt marks ref.hops) name' →
      Respelled marks (.var name ref) (.var name' ref)
  | assign {name name' : Token} {ref : Ref} {e e' : Expr} :
      name.Respelled x y (markAt marks ref.hops) name' → Respelled marks e e' →
      Respelled marks (.assign name e ref) (.assign name' e' ref)
  | call {paren : Token} {e e' : Expr} {es es' : List Expr} :
      Respelled marks e e' → List.Forall₂ (Respelled marks) es es' →
      Respelled marks (.call e paren es) (.call e' paren es')
  | get {name : Token} {e e' : Expr} :
      Respelled marks e e' → Respelled marks (.get e name) (.get e' name)
  | set {name : Token} {e e' i i' : Expr} : Respelled marks e e' → Respelled marks i i' →
      Respelled marks (.set e name i) (.set e' name i')
  | self {keyword : Token} {ref : Ref} : keyword.Respelled x y (markAt marks ref.hops) keyword →
      Respelled marks (.self keyword ref) (.self keyword ref)

mutual

inductive Stmt.Respelled : List Bool → Stmt → Stmt → Prop
  | empty {marks : List Bool} : Stmt.Respelled marks .empty .empty
  | expression {marks : List Bool} {e e' : Expr} :
      e.Respelled x y marks e' → Stmt.Respelled marks (.expression e) (.expression e')
  | print {marks : List Bool} {e e' : Expr} :
      e.Respelled x y marks e' → Stmt.Respelled marks (.print e) (.print e')
  | var {marks : List Bool} {name name' : Token} {i i' : Option Expr} :
      name.Respelled x y (markAt marks (some 0)) name' →
      Option.Rel (Expr.Respelled x y marks) i i' → Stmt.Respelled marks (.var name i) (.var name' i')
  | block {marks : List Bool} {anew : Bool} {ss ss' : List Stmt} :
      Stmt.AllRespelled (anew :: marks) ss ss' → Stmt.Respelled marks (.block ss) (.block ss')
  | branch {marks : List Bool} {c c' : Expr} {yes yes' : Stmt} :
      c.Respelled x y marks c' → Stmt.Respelled marks yes yes' →
      Stmt.Respelled marks (.branch c yes none) (.branch c' yes' none)
  | branches {marks : List Bool} {c c' : Expr} {yes yes' no no' : Stmt} :
      c.Respelled x y marks c' → Stmt.Respelled marks yes yes' → Stmt.Respelled marks no no' →
      Stmt.Respelled marks (.branch c yes (some no)) (.branch c' yes' (some no'))
  | loop {marks : List Bool} {c c' : Expr} {body body' : Stmt} :
      c.Respelled x y marks c' → Stmt.Respelled marks body body' →
      Stmt.Respelled marks (.loop c body) (.loop c' body')
  | function {marks : List Bool} {d d' : FunDecl} :
      d.name.Respelled x y (markAt marks (some 0)) d.name → FunDecl.Respelled marks d d' →
      Stmt.Respelled marks (.function d) (.function d')
  | returns {marks : List Bool} {keyword : Token} {e e' : Option Expr} :
      Option.Rel (Expr.Respelled x y marks) e e' →
      Stmt.Respelled marks (.returns keyword e) (.returns keyword e')
  | cls {marks : List Bool} {name : Token} {ds ds' : List FunDecl} :
      name.Respelled x y (markAt marks (some 0)) name →
      FunDecl.AllRespelled (false :: marks) ds ds' →
      Stmt.Respelled marks (.cls name ds) (.cls name ds')

inductive Stmt.AllRespelled : List Bool → List Stmt → List Stmt → Prop
  | nil {marks : List Bool} : Stmt.AllRespelled marks [] []
  | cons {marks : List Bool} {s s' : Stmt} {ss ss' : List Stmt} :
      Stmt.Respelled marks s s' → Stmt.AllRespelled marks ss ss' →
      Stmt.AllRespelled marks (s :: ss) (s' :: ss')

inductive FunDecl.Respelled : List Bool → FunDecl → FunDecl → Prop
  | mk {marks : List Bool} {anew : Bool} {name : Token} {params params' : List Token}
      {body body' : List Stmt} : List.Forall₂ (Token.Respelled x y anew) params params' →
      Stmt.AllRespelled (anew :: marks) body body' →
      FunDecl.Respelled marks (.mk name params body) (.mk name params' body')

inductive FunDecl.AllRespelled : List Bool → List FunDecl → List FunDecl → Prop
  | nil {marks : List Bool} : FunDecl.AllRespelled marks [] []
  | cons {marks : List Bool} {d d' : FunDecl} {ds ds' : List FunDecl} :
      FunDecl.Respelled marks d d' → FunDecl.AllRespelled marks ds ds' →
      FunDecl.AllRespelled marks (d :: ds) (d' :: ds')

end

end Respelled

variable {x y : String} {marks : List Bool}

theorem Stmt.allRespelled_iff {ss ss' : List Stmt} :
    Stmt.AllRespelled x y marks ss ss' ↔ List.Forall₂ (Stmt.Respelled x y marks) ss ss' := by
  constructor
  · intro h
    induction ss generalizing ss' with
    | nil => cases h; exact .nil
    | cons s ss ih => cases h with | cons hs hss => exact .cons hs (ih hss)
  · intro h
    induction h with
    | nil => exact .nil
    | cons hs _ ih => exact .cons hs ih

theorem FunDecl.allRespelled_iff {ds ds' : List FunDecl} :
    FunDecl.AllRespelled x y marks ds ds' ↔ List.Forall₂ (FunDecl.Respelled x y marks) ds ds' := by
  constructor
  · intro h
    induction ds generalizing ds' with
    | nil => cases h; exact .nil
    | cons d ds ih => cases h with | cons hd hds => exact .cons hd (ih hds)
  · intro h
    induction h with
    | nil => exact .nil
    | cons hd _ ih => exact .cons hd ih

section Tokens

variable {t t' : Token} {anew : Bool}

@[simp] theorem spelling_false (name : String) : spelling x y false name = name :=
  if_neg (by simp)

@[simp] theorem Token.spelled_false (t : Token) : t.spelled x y false = t := by
  rw [spelled, spelling_false]

theorem spelling_of_ne {name : String} (h : name ≠ x) : spelling x y anew name = name :=
  if_neg fun hx ↦ h hx.2

theorem Token.Renamed.refl (t : Token) : t.Renamed x y t := ⟨false, (t.spelled_false).symm⟩

theorem Token.Respelled.renamed (h : t.Respelled x y anew t') : t.Renamed x y t' := ⟨anew, h.eq⟩

theorem Token.Respelled.same (h : t.lexeme ≠ y) : t.Respelled x y false t :=
  ⟨h, t.spelled_false.symm⟩

theorem Token.Respelled.other (h : t.lexeme ≠ y) (hx : t.lexeme ≠ x) : t.Respelled x y anew t :=
  ⟨h, by rw [spelled, spelling_of_ne hx]⟩

theorem Token.Respelled.lexeme_eq (h : t.Respelled x y anew t') :
    t'.lexeme = spelling x y anew t.lexeme := by rw [h.eq]; rfl

end Tokens

section Alike

mutual

theorem Expr.Respelled.alike : ∀ {e e' : Expr}, e.Respelled x y marks e' →
    e.Alike (Token.Renamed x y) e'
  | .literal _, _, .literal => .literal
  | .group _, _, .group he => .group he.alike
  | .unary _ _, _, .unary he => .unary (.refl _) he.alike
  | .binary _ _ _, _, .binary hl hr => .binary hl.alike (.refl _) hr.alike
  | .logical _ _ _, _, .logical hl hr => .logical hl.alike (.refl _) hr.alike
  | .var _ _, _, .var hname => .var hname.renamed
  | .assign _ _ _, _, .assign hname he => .assign hname.renamed he.alike
  | .call _ _ _, _, .call he hes => .call he.alike (.refl _) (exprs_alike hes)
  | .get _ _, _, .get he => .get he.alike (.refl _)
  | .set _ _ _, _, .set he hi => .set he.alike (.refl _) hi.alike
  | .self _ _, _, .self hname => .self hname.renamed

theorem exprs_alike : ∀ {es es' : List Expr}, List.Forall₂ (Expr.Respelled x y marks) es es' →
    List.Forall₂ (Expr.Alike (Token.Renamed x y)) es es'
  | [], _, .nil => .nil
  | _ :: _, _, .cons he hes => .cons he.alike (exprs_alike hes)

end

theorem Expr.Respelled.option_alike {i i' : Option Expr}
    (h : Option.Rel (Expr.Respelled x y marks) i i') :
    Option.Rel (Expr.Alike (Token.Renamed x y)) i i' := by
  cases h with
  | none => exact .none
  | some he => exact .some he.alike

mutual

/-- Trees that are respelled are alike. -/
theorem Stmt.Respelled.alike : ∀ {s s' : Stmt} {marks : List Bool}, s.Respelled x y marks s' →
    s.Alike (Token.Renamed x y) s'
  | .empty, _, _, .empty => .empty
  | .expression _, _, _, .expression he => .expression he.alike
  | .print _, _, _, .print he => .print he.alike
  | .var _ _, _, _, .var hname hi => .var hname.renamed (Expr.Respelled.option_alike hi)
  | .block _, _, _, .block hss => .block (Stmt.AllRespelled.alike hss)
  | .branch _ _ none, _, _, .branch hc hyes => .branch hc.alike hyes.alike .none
  | .branch _ _ (some _), _, _, .branches hc hyes hno =>
    .branch hc.alike hyes.alike (.some hno.alike)
  | .loop _ _, _, _, .loop hc hbody => .loop hc.alike hbody.alike
  | .function _, _, _, .function _ hd => .function (FunDecl.Respelled.alike hd)
  | .returns _ _, _, _, .returns he => .returns (.refl _) (Expr.Respelled.option_alike he)
  | .cls _ _, _, _, .cls _ hds => .cls (.refl _) (FunDecl.AllRespelled.alike hds)

theorem Stmt.AllRespelled.alike : ∀ {ss ss' : List Stmt} {marks : List Bool},
    Stmt.AllRespelled x y marks ss ss' → List.Forall₂ (Stmt.Alike (Token.Renamed x y)) ss ss'
  | [], _, _, .nil => .nil
  | _ :: _, _, _, .cons hs hss => .cons hs.alike (Stmt.AllRespelled.alike hss)

theorem FunDecl.Respelled.alike : ∀ {d d' : FunDecl} {marks : List Bool},
    d.Respelled x y marks d' → d.Alike (Token.Renamed x y) d'
  | .mk _ _ _, _, _, .mk hparams hbody =>
    .mk (.refl _) (hparams.imp fun _ _ h ↦ h.renamed) (Stmt.AllRespelled.alike hbody)

theorem FunDecl.AllRespelled.alike : ∀ {ds ds' : List FunDecl} {marks : List Bool},
    FunDecl.AllRespelled x y marks ds ds' →
    List.Forall₂ (FunDecl.Alike (Token.Renamed x y)) ds ds'
  | [], _, _, .nil => .nil
  | _ :: _, _, _, .cons hd hds => .cons (FunDecl.Respelled.alike hd) (FunDecl.AllRespelled.alike hds)

end

end Alike

end TreeWalk
