import TreeWalk.Proofs.Grammar.Basic
import TreeWalk.Proofs.Tree.Alike

namespace TreeWalk.Grammar

/-- Related tokens are of the same kind, and each is related to itself. -/
structure Kindred (R : Token → Token → Prop) : Prop where
  refl : ∀ t, R t t
  kind_eq : ∀ t t', R t t' → t'.kind = t.kind

variable {R : Token → Token → Prop} {α : Type} {S : α → α → Prop} {w : List Token}

/-- What is related to the value of a phrase is the value of a phrase of related words. -/
def Traces {α : Type} (R : Token → Token → Prop) (G : Phrase α) (S : α → α → Prop) : Prop :=
  ∀ ⦃w a a'⦄, G w a → S a a' → ∃ w', List.Forall₂ R w w' ∧ G w' a'

theorem sequence_traces {item : Phrase α} (h : Traces R item S) :
    Traces R (Sequence item) (List.Forall₂ S) := by
  intro w as as' hs hS
  induction hs generalizing as' with
  | nil =>
    cases hS
    exact ⟨[], .nil, .nil⟩
  | cons ha _ ih =>
    cases hS with
    | cons hSa hSas =>
      obtain ⟨w', hw, ha'⟩ := h ha hSa
      obtain ⟨v', hv, has'⟩ := ih hSas
      exact ⟨w' ++ v', List.rel_append hw hv, .cons ha' has'⟩

section Kindred

variable (hR : Kindred R)
include hR

theorem separated_traces {item : Phrase α} (h : Traces R item S) :
    Traces R (Separated item) (List.Forall₂ S) := by
  intro w as as' hs hS
  induction hs generalizing as' with
  | one ha =>
    cases hS with
    | cons hSa hnil =>
      cases hnil
      obtain ⟨w', hw, ha'⟩ := h ha hSa
      exact ⟨w', hw, .one ha'⟩
  | more ha hcomma _ ih =>
    cases hS with
    | cons hSa hSas =>
      obtain ⟨w', hw, ha'⟩ := h ha hSa
      obtain ⟨v', hv, has'⟩ := ih hSas
      exact ⟨_, List.rel_append hw (.cons (hR.refl _) hv), .more ha' hcomma has'⟩

theorem parenthesised_traces {item : Phrase α} (h : Traces R item S) {as as' : List α}
    {paren paren' : Token} (hp : Parenthesised item w (as, paren)) (hS : List.Forall₂ S as as')
    (hparen : R paren paren') :
    ∃ w', List.Forall₂ R w w' ∧ Parenthesised item w' (as', paren') := by
  cases hp with
  | none hclose =>
    cases hS
    exact ⟨_, .cons hparen .nil, .none ((hR.kind_eq _ _ hparen).trans hclose)⟩
  | some has hlen hclose =>
    obtain ⟨w', hw, has'⟩ := separated_traces hR h has hS
    exact ⟨_, List.rel_append hw (.cons hparen .nil),
      .some has' (hS.length_eq ▸ hlen) ((hR.kind_eq _ _ hparen).trans hclose)⟩

theorem name_traces : Traces R Name R := by
  intro w t t' ht hS
  cases ht with
  | name hname => exact ⟨[t'], .cons hS .nil, .name ((hR.kind_eq _ _ hS).trans hname)⟩

section Expressions

def Tier.Splits (R : Token → Token → Prop) (t : Tier) : Prop :=
  ∀ ⦃l operator r e'⦄, (t.join l operator r).Alike R e' →
    ∃ l' operator' r', e' = t.join l' operator' r' ∧ l.Alike R l' ∧ R operator operator' ∧
      r.Alike R r'

theorem joined_traces {tier : Tier} {operand : Phrase Expr} (ht : tier.Splits R)
    (h : Traces R operand (Expr.Alike R)) : Traces R (Joined tier operand) (Expr.Alike R) := by
  intro w e e' he hS
  induction he generalizing e' with
  | one he =>
    obtain ⟨w', hw, he'⟩ := h he hS
    exact ⟨w', hw, .one he'⟩
  | more _ hoperator hr ih =>
    obtain ⟨l', operator', r', rfl, hL, hO, hR'⟩ := ht hS
    obtain ⟨w', hw, hl'⟩ := ih hL
    obtain ⟨v', hv, hr'⟩ := h hr hR'
    exact ⟨_, List.rel_append hw (.cons hO hv),
      .more hl' ((hR.kind_eq _ _ hO).symm ▸ hoperator) hr'⟩

theorem operation_traces {operand : Phrase Expr} (h : Traces R operand (Expr.Alike R)) :
    Traces R (Operation operand) (Expr.Alike R) := by
  have hbinary {kinds : List Kind} : Tier.Splits R ⟨kinds, .binary⟩ := by
    intro l operator r e' hS
    cases hS with
    | binary hl ht hr => exact ⟨_, _, _, rfl, hl, ht, hr⟩
  have hlogical {kinds : List Kind} : Tier.Splits R ⟨kinds, .logical⟩ := by
    intro l operator r e' hS
    cases hS with
    | logical hl ht hr => exact ⟨_, _, _, rfl, hl, ht, hr⟩
  exact joined_traces hR hlogical <| joined_traces hR hlogical <| joined_traces hR hbinary <|
    joined_traces hR hbinary <| joined_traces hR hbinary <| joined_traces hR hbinary h

theorem primary_traces {inner : Phrase Expr} (h : Traces R inner (Expr.Alike R)) :
    Traces R (Primary inner) (Expr.Alike R) := by
  intro w e e' he hS
  have hsame (t : Token) : List.Forall₂ R [t] [t] := .cons (hR.refl t) .nil
  cases he with
  | false ht =>
    cases hS
    exact ⟨_, hsame _, .false ht⟩
  | true ht =>
    cases hS
    exact ⟨_, hsame _, .true ht⟩
  | nil ht =>
    cases hS
    exact ⟨_, hsame _, .nil ht⟩
  | value ht =>
    cases hS
    exact ⟨_, hsame _, .value ht⟩
  | self ht =>
    cases hS with
    | self hS => exact ⟨_, .cons hS .nil, .self ((hR.kind_eq _ _ hS).trans ht)⟩
  | name ht =>
    cases hS with
    | var hS => exact ⟨_, .cons hS .nil, .name ((hR.kind_eq _ _ hS).trans ht)⟩
  | group hopen he hclose =>
    cases hS with
    | group hS =>
      obtain ⟨w', hw, he'⟩ := h he hS
      exact ⟨_, .cons (hR.refl _) (List.rel_append hw (hsame _)), .group hopen he' hclose⟩

theorem suffixed_traces {argument primary : Phrase Expr}
    (h : Traces R argument (Expr.Alike R)) (hp : Traces R primary (Expr.Alike R)) :
    Traces R (Suffixed argument primary) (Expr.Alike R) := by
  intro w e e' he hS
  induction he generalizing e' with
  | primary he =>
    obtain ⟨w', hw, he'⟩ := hp he hS
    exact ⟨w', hw, .primary he'⟩
  | call _ hopen hargs ih =>
    cases hS with
    | call hS hparen hSs =>
      obtain ⟨w', hw, he'⟩ := ih hS
      obtain ⟨v', hv, hargs'⟩ := parenthesised_traces hR h hargs hSs hparen
      exact ⟨_, List.rel_append hw (.cons (hR.refl _) hv), .call he' hopen hargs'⟩
  | property _ hdot hname ih =>
    cases hS with
    | get hS ht =>
      obtain ⟨w', hw, he'⟩ := ih hS
      exact ⟨_, List.rel_append hw (.cons (hR.refl _) (.cons ht .nil)),
        .property he' hdot ((hR.kind_eq _ _ ht).trans hname)⟩

theorem assignment_traces {operation value : Phrase Expr}
    (ho : Traces R operation (Expr.Alike R)) (h : Traces R value (Expr.Alike R)) :
    Traces R (Assignment operation value) (Expr.Alike R) := by
  intro w e e' he hS
  cases he with
  | operation he =>
    obtain ⟨w', hw, he'⟩ := ho he hS
    exact ⟨w', hw, .operation he'⟩
  | assign htarget hequals he =>
    cases hS with
    | assign ht hS =>
      obtain ⟨w', hw, htarget'⟩ := ho htarget (.var ht)
      obtain ⟨v', hv, he'⟩ := h he hS
      exact ⟨_, List.rel_append hw (.cons (hR.refl _) hv), .assign htarget' hequals he'⟩
  | set htarget hequals he =>
    cases hS with
    | set hO ht hS =>
      obtain ⟨w', hw, htarget'⟩ := ho htarget (.get hO ht)
      obtain ⟨v', hv, he'⟩ := h he hS
      exact ⟨_, List.rel_append hw (.cons (hR.refl _) hv), .set htarget' hequals he'⟩

mutual

theorem expression_traces : ∀ depth, Traces R (Expression depth) (Expr.Alike R)
  | depth + 7 => by
    rw [Expression]
    exact assignment_traces hR (operation_traces hR (operand_traces depth))
      (expression_traces (depth + 6))
  | 0 | 1 | 2 | 3 | 4 | 5 | 6 => fun _ _ _ h ↦ h.elim

theorem operand_traces : ∀ depth, Traces R (Operand depth) (Expr.Alike R)
  | depth + 4 => by
    rw [Operand]
    intro w e e' he hS
    cases he with
    | sign hsign he =>
      cases hS with
      | unary ht hS =>
        obtain ⟨w', hw, he'⟩ := operand_traces (depth + 3) he hS
        exact ⟨_, .cons ht hw, .sign ((hR.kind_eq _ _ ht).symm ▸ hsign) he'⟩
    | call he =>
      have hinner := expression_traces depth
      obtain ⟨w', hw, he'⟩ := suffixed_traces hR hinner (primary_traces hR hinner) he hS
      exact ⟨w', hw, .call he'⟩
  | 0 | 1 | 2 | 3 => fun _ _ _ h ↦ h.elim

end

end Expressions

section Statements

variable {expression : Phrase Expr} {item : Phrase Stmt}

theorem variable_traces (h : Traces R expression (Expr.Alike R)) :
    Traces R (Variable expression) (Stmt.Alike R) := by
  intro w s s' hs hS
  cases hs with
  | bare hname hend =>
    cases hS with
    | var ht hS =>
      cases hS
      exact ⟨_, .cons ht (.cons (hR.refl _) .nil), .bare ((hR.kind_eq _ _ ht).trans hname) hend⟩
  | initialized hname hequals he hend =>
    cases hS with
    | var ht hS =>
      cases hS with
      | some hS =>
        obtain ⟨w', hw, he'⟩ := h he hS
        exact ⟨_, .cons ht (.cons (hR.refl _) (List.rel_append hw (.cons (hR.refl _) .nil))),
          .initialized ((hR.kind_eq _ _ ht).trans hname) hequals he' hend⟩

theorem body_traces {item : Phrase α} (h : Traces R item S) :
    Traces R (Body item) (List.Forall₂ S) := by
  intro w as as' hs hS
  cases hs with
  | close hs hbrace =>
    obtain ⟨w', hw, has'⟩ := sequence_traces h hs hS
    exact ⟨_, List.rel_append hw (.cons (hR.refl _) .nil), .close has' hbrace⟩

theorem function_traces (h : Traces R item (Stmt.Alike R)) :
    Traces R (Function item) (FunDecl.Alike R) := by
  intro w d d' hd hS
  cases hd with
  | mk hname hopen hparams hbrace hbody =>
    cases hS with
    | mk ht hP hB =>
      obtain ⟨w', hw, hparams'⟩ := parenthesised_traces hR (name_traces hR) hparams hP (hR.refl _)
      obtain ⟨v', hv, hbody'⟩ := body_traces hR h hbody hB
      exact ⟨_, .cons ht (.cons (hR.refl _) (List.rel_append hw (.cons (hR.refl _) hv))),
        .mk ((hR.kind_eq _ _ ht).trans hname) hopen hparams' hbrace hbody'⟩

theorem initializer_traces (h : Traces R expression (Expr.Alike R)) :
    Traces R (Initializer expression) (Stmt.Alike R) := by
  intro w s s' hs hS
  cases hs with
  | none hend =>
    cases hS
    exact ⟨_, .cons (hR.refl _) .nil, .none hend⟩
  | declares hvar hs =>
    obtain ⟨w', hw, hs'⟩ := variable_traces hR h hs hS
    exact ⟨_, .cons (hR.refl _) hw, .declares hvar hs'⟩
  | expression he hend =>
    cases hS with
    | expression hS =>
      obtain ⟨w', hw, he'⟩ := h he hS
      exact ⟨_, List.rel_append hw (.cons (hR.refl _) .nil), .expression he' hend⟩

theorem condition_traces (h : Traces R expression (Expr.Alike R)) :
    Traces R (Condition expression) (Expr.Alike R) := by
  intro w e e' he hS
  cases he with
  | none hend =>
    cases hS
    exact ⟨_, .cons (hR.refl _) .nil, .none hend⟩
  | some he hend =>
    obtain ⟨w', hw, he'⟩ := h he hS
    exact ⟨_, List.rel_append hw (.cons (hR.refl _) .nil), .some he' hend⟩

theorem increment_traces (h : Traces R expression (Expr.Alike R)) :
    Traces R (Increment expression) (Stmt.Alike R) := by
  intro w s s' hs hS
  cases hs with
  | none hend =>
    cases hS
    exact ⟨_, .cons (hR.refl _) .nil, .none hend⟩
  | some he hend =>
    cases hS with
    | expression hS =>
      obtain ⟨w', hw, he'⟩ := h he hS
      exact ⟨_, List.rel_append hw (.cons (hR.refl _) .nil), .some he' hend⟩

theorem undeclared_traces {statement : Bool → Phrase Stmt} {dangling : Bool}
    (he : Traces R expression (Expr.Alike R))
    (hs : ∀ dangling, Traces R (statement dangling) (Stmt.Alike R))
    (hi : Traces R item (Stmt.Alike R)) :
    Traces R (Undeclared expression statement item dangling) (Stmt.Alike R) := by
  intro w s s' h hS
  have hsame {v v' : List Token} (t : Token) (hv : List.Forall₂ R v v') :
      List.Forall₂ R (t :: v) (t :: v') := .cons (hR.refl t) hv
  cases h with
  | expression h hend =>
    cases hS with
    | expression hE =>
      obtain ⟨w', hw, he'⟩ := he h hE
      exact ⟨_, List.rel_append hw (hsame _ .nil), .expression he' hend⟩
  | print hkey h hend =>
    cases hS with
    | print hE =>
      obtain ⟨w', hw, he'⟩ := he h hE
      exact ⟨_, hsame _ (List.rel_append hw (hsame _ .nil)), .print hkey he' hend⟩
  | returns hkey hend =>
    cases hS with
    | returns ht hE =>
      cases hE
      exact ⟨_, .cons ht (hsame _ .nil), .returns ((hR.kind_eq _ _ ht).trans hkey) hend⟩
  | returnsValue hkey h hend =>
    cases hS with
    | returns ht hE =>
      cases hE with
      | some hE =>
        obtain ⟨w', hw, he'⟩ := he h hE
        exact ⟨_, .cons ht (List.rel_append hw (hsame _ .nil)),
          .returnsValue ((hR.kind_eq _ _ ht).trans hkey) he' hend⟩
  | block hbrace h =>
    cases hS with
    | block hB =>
      obtain ⟨w', hw, hbody'⟩ := body_traces hR hi h hB
      exact ⟨_, hsame _ hw, .block hbrace hbody'⟩
  | ifThen hkey hopen hc hclose h =>
    cases hS with
    | branch hC hY hN =>
      cases hN
      obtain ⟨w', hw, hc'⟩ := he hc hC
      obtain ⟨v', hv, hyes'⟩ := hs _ h hY
      exact ⟨_, hsame _ (hsame _ (List.rel_append hw (hsame _ hv))),
        .ifThen hkey hopen hc' hclose hyes'⟩
  | ifElse hkey hopen hc hclose h helse h' =>
    cases hS with
    | branch hC hY hN =>
      cases hN with
      | some hN =>
        obtain ⟨w', hw, hc'⟩ := he hc hC
        obtain ⟨v', hv, hyes'⟩ := hs _ h hY
        obtain ⟨u', hu, hno'⟩ := hs _ h' hN
        exact ⟨_, hsame _ (hsame _ (List.rel_append (List.rel_append hw (hsame _ hv)) (hsame _ hu))),
          .ifElse hkey hopen hc' hclose hyes' helse hno'⟩
  | loop hkey hopen hc hclose h =>
    cases hS with
    | loop hC hB =>
      obtain ⟨w', hw, hc'⟩ := he hc hC
      obtain ⟨v', hv, hbody'⟩ := hs _ h hB
      exact ⟨_, hsame _ (hsame _ (List.rel_append hw (hsame _ hv))),
        .loop hkey hopen hc' hclose hbody'⟩
  | forLoop hkey hopen hinitial hc hincrement h =>
    cases hS with
    | block hB =>
      rcases hB with _ | ⟨hI, _ | ⟨hL, _ | _⟩⟩
      cases hL with
      | loop hC hround =>
        cases hround with
        | block hround =>
          rcases hround with _ | ⟨hB, _ | ⟨hN, _ | _⟩⟩
          obtain ⟨w', hw, hinitial'⟩ := initializer_traces hR he hinitial hI
          obtain ⟨v', hv, hc'⟩ := condition_traces hR he hc hC
          obtain ⟨u', hu, hincrement'⟩ := increment_traces hR he hincrement hN
          obtain ⟨z', hz, hbody'⟩ := hs _ h hB
          exact ⟨_, hsame _ (hsame _ (List.rel_append (List.rel_append (List.rel_append hw hv) hu) hz)),
            .forLoop hkey hopen hinitial' hc' hincrement' hbody'⟩

mutual

theorem statement_traces : ∀ depth dangling, Traces R (Statement depth dangling) (Stmt.Alike R)
  | depth + 3, dangling => by
    rw [Statement]
    exact undeclared_traces hR (expression_traces hR depth) (statement_traces (depth + 1))
      (declaration_traces (depth + 1))
  | 0, _ | 1, _ | 2, _ => fun _ _ _ h ↦ h.elim

theorem declaration_traces : ∀ depth, Traces R (Declaration depth) (Stmt.Alike R)
  | depth + 4 => by
    rw [Declaration]
    intro w s s' h hS
    cases h with
    | cls hkey hname hbrace h =>
      cases hS with
      | cls ht hM =>
        have hmethod := function_traces hR (declaration_traces depth)
        obtain ⟨w', hw, hmethods'⟩ := body_traces hR hmethod h hM
        exact ⟨_, .cons (hR.refl _) (.cons ht (.cons (hR.refl _) hw)),
          .cls hkey ((hR.kind_eq _ _ ht).trans hname) hbrace hmethods'⟩
    | function hkey h =>
      cases hS with
      | function hD =>
        obtain ⟨w', hw, hd'⟩ := function_traces hR (declaration_traces (depth + 1)) h hD
        exact ⟨_, .cons (hR.refl _) hw, .function hkey hd'⟩
    | declares hkey h =>
      obtain ⟨w', hw, hs'⟩ := variable_traces hR (expression_traces hR (depth + 1)) h hS
      exact ⟨_, .cons (hR.refl _) hw, .declares hkey hs'⟩
    | statement h =>
      obtain ⟨w', hw, hs'⟩ := statement_traces (depth + 3) _ h hS
      exact ⟨w', hw, .statement hs'⟩
  | 0 | 1 | 2 | 3 => fun _ _ _ h ↦ h.elim

end

end Statements

end Kindred

end TreeWalk.Grammar
