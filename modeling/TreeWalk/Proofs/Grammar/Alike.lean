import TreeWalk.Proofs.Grammar.Basic
import TreeWalk.Proofs.Tree.Alike

namespace TreeWalk.Grammar

theorem Sequence.append {α : Type} {item : Phrase α} {w v : List Token} {as bs : List α}
    (h : Sequence item w as) (h' : Sequence item v bs) : Sequence item (w ++ v) (as ++ bs) := by
  induction h with
  | nil => exact h'
  | cons ha _ ih =>
    rw [List.append_assoc]
    exact .cons ha ih

section Carries

variable (R : Token → Token → Prop) (f : Token → Token)

def Changed (w : List Token) : Prop := ∀ t ∈ w, R t (f t)

/-- Phrases stay phrases when their words are changed, with values that are alike. -/
def Carries {α : Type} (G : Phrase α) (S : α → α → Prop) : Prop :=
  ∀ ⦃w a⦄, G w a → Changed R f w → ∃ a', G (w.map f) a' ∧ S a a'

variable {R f} {α : Type} {S : α → α → Prop} {w v : List Token} {t : Token}

@[simp] theorem changed_append : Changed R f (w ++ v) ↔ Changed R f w ∧ Changed R f v :=
  List.forall_mem_append

@[simp] theorem changed_cons : Changed R f (t :: w) ↔ R t (f t) ∧ Changed R f w :=
  List.forall_mem_cons

theorem sequence_carries {item : Phrase α} (h : Carries R f item S) :
    Carries R f (Sequence item) (List.Forall₂ S) := by
  intro w as hs hw
  induction hs with
  | nil => exact ⟨[], .nil, .nil⟩
  | cons ha _ ih =>
    simp only [changed_append] at hw
    obtain ⟨a', ha', hSa⟩ := h ha hw.1
    obtain ⟨as', has', hSas⟩ := ih hw.2
    rw [List.map_append]
    exact ⟨a' :: as', .cons ha' has', .cons hSa hSas⟩

variable (hf : ∀ t : Token, t.Like (f t))
include hf

theorem separated_carries {item : Phrase α} (h : Carries R f item S) :
    Carries R f (Separated item) (List.Forall₂ S) := by
  intro w as hs hw
  induction hs with
  | one ha =>
    obtain ⟨a', ha', hSa⟩ := h ha hw
    exact ⟨[a'], .one ha', .cons hSa .nil⟩
  | @more _ _ comma _ _ ha hcomma _ ih =>
    simp only [changed_append, changed_cons] at hw
    obtain ⟨a', ha', hSa⟩ := h ha hw.1
    obtain ⟨as', has', hSas⟩ := ih hw.2.2
    rw [List.map_append, List.map_cons]
    exact ⟨a' :: as', .more ha' ((hf comma).kind_eq.trans hcomma) has', .cons hSa hSas⟩

theorem parenthesised_carries {item : Phrase α} (h : Carries R f item S) {as : List α}
    {paren : Token} (hp : Parenthesised item w (as, paren)) (hw : Changed R f w) :
    ∃ as', Parenthesised item (w.map f) (as', f paren) ∧ List.Forall₂ S as as' ∧
      R paren (f paren) := by
  cases hp with
  | none hclose => exact ⟨[], .none ((hf _).kind_eq.trans hclose), .nil, hw _ (.head _)⟩
  | some has hlen hclose =>
    simp only [changed_append, changed_cons] at hw
    obtain ⟨as', has', hS⟩ := separated_carries hf h has hw.1
    rw [List.map_append]
    exact ⟨as', .some has' (hS.length_eq ▸ hlen) ((hf _).kind_eq.trans hclose), hS, hw.2.1⟩

theorem name_carries : Carries R f Name R := by
  intro w t ht hw
  cases ht with
  | name hname => exact ⟨f t, .name ((hf t).kind_eq.trans hname), hw t (.head _)⟩

section Expressions

def Tier.Alike (R : Token → Token → Prop) (t : Tier) : Prop :=
  ∀ ⦃l l' operator operator' r r'⦄, Expr.Alike R l l' → R operator operator' → Expr.Alike R r r' →
    Expr.Alike R (t.join l operator r) (t.join l' operator' r')

theorem joined_carries {tier : Tier} {operand : Phrase Expr} (ht : tier.Alike R)
    (h : Carries R f operand (Expr.Alike R)) : Carries R f (Joined tier operand) (Expr.Alike R) := by
  intro w e he hw
  induction he with
  | one he =>
    obtain ⟨e', he', hS⟩ := h he hw
    exact ⟨e', .one he', hS⟩
  | @more _ _ operator _ _ _ hoperator hr ih =>
    simp only [changed_append, changed_cons] at hw
    obtain ⟨l', hl', hL⟩ := ih hw.1
    obtain ⟨r', hr', hR⟩ := h hr hw.2.2
    rw [List.map_append, List.map_cons]
    exact ⟨_, .more hl' ((hf operator).kind_eq ▸ hoperator) hr', ht hL hw.2.1 hR⟩

theorem operation_carries {operand : Phrase Expr} (h : Carries R f operand (Expr.Alike R)) :
    Carries R f (Operation operand) (Expr.Alike R) := by
  have hbinary {kinds : List Kind} : Tier.Alike R ⟨kinds, .binary⟩ := fun _ _ _ _ _ _ ↦ .binary
  have hlogical {kinds : List Kind} : Tier.Alike R ⟨kinds, .logical⟩ := fun _ _ _ _ _ _ ↦ .logical
  exact joined_carries hf hlogical <| joined_carries hf hlogical <| joined_carries hf hbinary <|
    joined_carries hf hbinary <| joined_carries hf hbinary <| joined_carries hf hbinary h

theorem primary_carries {inner : Phrase Expr} (h : Carries R f inner (Expr.Alike R)) :
    Carries R f (Primary inner) (Expr.Alike R) := by
  intro w e he hw
  cases he with
  | false ht => exact ⟨_, .false ((hf _).kind_eq.trans ht), .literal⟩
  | true ht => exact ⟨_, .true ((hf _).kind_eq.trans ht), .literal⟩
  | nil ht => exact ⟨_, .nil ((hf _).kind_eq.trans ht), .literal⟩
  | @value t ht =>
    refine ⟨_, .value (t := f t) (by rwa [(hf t).kind_eq]), ?_⟩
    rw [(hf t).literal_eq]
    exact .literal
  | self ht => exact ⟨_, .self ((hf _).kind_eq.trans ht), .self (hw _ (.head _))⟩
  | name ht => exact ⟨_, .name ((hf _).kind_eq.trans ht), .var (hw _ (.head _))⟩
  | group hopen he hclose =>
    simp only [List.cons_append, changed_cons, changed_append] at hw
    obtain ⟨e', he', hS⟩ := h he hw.2.1
    rw [List.cons_append, List.map_cons, List.map_append]
    exact ⟨_, .group ((hf _).kind_eq.trans hopen) he' ((hf _).kind_eq.trans hclose), .group hS⟩

theorem suffixed_carries {argument primary : Phrase Expr}
    (h : Carries R f argument (Expr.Alike R)) (hp : Carries R f primary (Expr.Alike R)) :
    Carries R f (Suffixed argument primary) (Expr.Alike R) := by
  intro w e he hw
  induction he with
  | primary he =>
    obtain ⟨e', he', hS⟩ := hp he hw
    exact ⟨e', .primary he', hS⟩
  | call _ hopen hargs ih =>
    simp only [changed_append, changed_cons] at hw
    obtain ⟨e', he', hS⟩ := ih hw.1
    obtain ⟨es', hes', hSs, hparen⟩ := parenthesised_carries hf h hargs hw.2.2
    rw [List.map_append, List.map_cons]
    exact ⟨_, .call he' ((hf _).kind_eq.trans hopen) hes', .call hS hparen hSs⟩
  | property _ hdot hname ih =>
    simp only [changed_append, changed_cons] at hw
    obtain ⟨e', he', hS⟩ := ih hw.1
    rw [List.map_append]
    exact ⟨_, .property he' ((hf _).kind_eq.trans hdot) ((hf _).kind_eq.trans hname),
      .get hS hw.2.2.1⟩

theorem assignment_carries {operation value : Phrase Expr}
    (ho : Carries R f operation (Expr.Alike R)) (h : Carries R f value (Expr.Alike R)) :
    Carries R f (Assignment operation value) (Expr.Alike R) := by
  intro w e he hw
  cases he with
  | operation he =>
    obtain ⟨e', he', hS⟩ := ho he hw
    exact ⟨e', .operation he', hS⟩
  | assign htarget hequals he =>
    simp only [changed_append, changed_cons] at hw
    obtain ⟨target', htarget', hT⟩ := ho htarget hw.1
    obtain ⟨e', he', hS⟩ := h he hw.2.2
    rw [List.map_append, List.map_cons]
    cases hT with
    | var hname =>
      exact ⟨_, .assign htarget' ((hf _).kind_eq.trans hequals) he', .assign hname hS⟩
  | set htarget hequals he =>
    simp only [changed_append, changed_cons] at hw
    obtain ⟨target', htarget', hT⟩ := ho htarget hw.1
    obtain ⟨e', he', hS⟩ := h he hw.2.2
    rw [List.map_append, List.map_cons]
    cases hT with
    | get hO hname => exact ⟨_, .set htarget' ((hf _).kind_eq.trans hequals) he', .set hO hname hS⟩

mutual

theorem expression_carries : ∀ depth, Carries R f (Expression depth) (Expr.Alike R)
  | depth + 7 => by
    rw [Expression]
    exact assignment_carries hf (operation_carries hf (operand_carries depth))
      (expression_carries (depth + 6))
  | 0 | 1 | 2 | 3 | 4 | 5 | 6 => fun _ _ h ↦ h.elim

theorem operand_carries : ∀ depth, Carries R f (Operand depth) (Expr.Alike R)
  | depth + 4 => by
    rw [Operand]
    intro w e he hw
    cases he with
    | @sign _ operator _ hsign he =>
      simp only [changed_cons] at hw
      obtain ⟨e', he', hS⟩ := operand_carries (depth + 3) he hw.2
      exact ⟨_, .sign (by rwa [(hf operator).kind_eq]) he', .unary hw.1 hS⟩
    | call he =>
      have hinner := expression_carries depth
      obtain ⟨e', he', hS⟩ := suffixed_carries hf hinner (primary_carries hf hinner) he hw
      exact ⟨e', .call he', hS⟩
  | 0 | 1 | 2 | 3 => fun _ _ h ↦ h.elim

end

end Expressions

section Statements

variable {expression : Phrase Expr} {item : Phrase Stmt}

theorem variable_carries (h : Carries R f expression (Expr.Alike R)) :
    Carries R f (Variable expression) (Stmt.Alike R) := by
  intro w s hs hw
  cases hs with
  | bare hname hend =>
    exact ⟨_, .bare ((hf _).kind_eq.trans hname) ((hf _).kind_eq.trans hend),
      .var (hw _ (.head _)) .none⟩
  | initialized hname hequals he hend =>
    simp only [List.cons_append, changed_cons, changed_append] at hw
    obtain ⟨e', he', hS⟩ := h he hw.2.2.1
    rw [List.cons_append, List.cons_append, List.map_cons, List.map_cons, List.map_append]
    exact ⟨_, .initialized ((hf _).kind_eq.trans hname) ((hf _).kind_eq.trans hequals) he'
      ((hf _).kind_eq.trans hend), .var hw.1 (.some hS)⟩

theorem body_carries {item : Phrase α} (h : Carries R f item S) :
    Carries R f (Body item) (List.Forall₂ S) := by
  intro w as hs hw
  cases hs with
  | close hs hbrace =>
    simp only [changed_append] at hw
    obtain ⟨as', has', hS⟩ := sequence_carries h hs hw.1
    rw [List.map_append]
    exact ⟨as', .close has' ((hf _).kind_eq.trans hbrace), hS⟩

theorem function_carries (h : Carries R f item (Stmt.Alike R)) :
    Carries R f (Function item) (FunDecl.Alike R) := by
  intro w d hd hw
  cases hd with
  | mk hname hopen hparams hbrace hbody =>
    simp only [List.cons_append, changed_cons, changed_append] at hw
    obtain ⟨params', hparams', hP, -⟩ :=
      parenthesised_carries hf (name_carries hf) hparams hw.2.2.1
    obtain ⟨body', hbody', hB⟩ := body_carries hf h hbody hw.2.2.2.2
    rw [List.cons_append, List.cons_append, List.map_cons, List.map_cons, List.map_append,
      List.map_cons]
    exact ⟨_, .mk ((hf _).kind_eq.trans hname) ((hf _).kind_eq.trans hopen) hparams'
      ((hf _).kind_eq.trans hbrace) hbody', .mk hw.1 hP hB⟩

theorem initializer_carries (h : Carries R f expression (Expr.Alike R)) :
    Carries R f (Initializer expression) (Stmt.Alike R) := by
  intro w s hs hw
  cases hs with
  | none hend => exact ⟨_, .none ((hf _).kind_eq.trans hend), .empty⟩
  | declares hvar hs =>
    simp only [changed_cons] at hw
    obtain ⟨s', hs', hS⟩ := variable_carries hf h hs hw.2
    exact ⟨s', .declares ((hf _).kind_eq.trans hvar) hs', hS⟩
  | expression he hend =>
    simp only [changed_append] at hw
    obtain ⟨e', he', hS⟩ := h he hw.1
    rw [List.map_append]
    exact ⟨_, .expression he' ((hf _).kind_eq.trans hend), .expression hS⟩

theorem condition_carries (h : Carries R f expression (Expr.Alike R)) :
    Carries R f (Condition expression) (Expr.Alike R) := by
  intro w e he hw
  cases he with
  | none hend => exact ⟨_, .none ((hf _).kind_eq.trans hend), .literal⟩
  | some he hend =>
    simp only [changed_append] at hw
    obtain ⟨e', he', hS⟩ := h he hw.1
    rw [List.map_append]
    exact ⟨e', .some he' ((hf _).kind_eq.trans hend), hS⟩

theorem increment_carries (h : Carries R f expression (Expr.Alike R)) :
    Carries R f (Increment expression) (Stmt.Alike R) := by
  intro w s hs hw
  cases hs with
  | none hend => exact ⟨_, .none ((hf _).kind_eq.trans hend), .empty⟩
  | some he hend =>
    simp only [changed_append] at hw
    obtain ⟨e', he', hS⟩ := h he hw.1
    rw [List.map_append]
    exact ⟨_, .some he' ((hf _).kind_eq.trans hend), .expression hS⟩

theorem undeclared_carries {statement : Bool → Phrase Stmt} {dangling : Bool}
    (he : Carries R f expression (Expr.Alike R))
    (hs : ∀ dangling, Carries R f (statement dangling) (Stmt.Alike R))
    (hi : Carries R f item (Stmt.Alike R)) :
    Carries R f (Undeclared expression statement item dangling) (Stmt.Alike R) := by
  intro w s h hw
  cases h with
  | expression h hend =>
    simp only [changed_append] at hw
    obtain ⟨e', he', hE⟩ := he h hw.1
    rw [List.map_append]
    exact ⟨_, .expression he' ((hf _).kind_eq.trans hend), .expression hE⟩
  | print hkey h hend =>
    simp only [List.cons_append, changed_cons, changed_append] at hw
    obtain ⟨e', he', hE⟩ := he h hw.2.1
    rw [List.cons_append, List.map_cons, List.map_append]
    exact ⟨_, .print ((hf _).kind_eq.trans hkey) he' ((hf _).kind_eq.trans hend), .print hE⟩
  | returns hkey hend =>
    exact ⟨_, .returns ((hf _).kind_eq.trans hkey) ((hf _).kind_eq.trans hend),
      .returns (hw _ (.head _)) .none⟩
  | returnsValue hkey h hend =>
    simp only [List.cons_append, changed_cons, changed_append] at hw
    obtain ⟨e', he', hE⟩ := he h hw.2.1
    rw [List.cons_append, List.map_cons, List.map_append]
    exact ⟨_, .returnsValue ((hf _).kind_eq.trans hkey) he' ((hf _).kind_eq.trans hend),
      .returns hw.1 (.some hE)⟩
  | block hbrace h =>
    simp only [changed_cons] at hw
    obtain ⟨body', hbody', hB⟩ := body_carries hf hi h hw.2
    exact ⟨_, .block ((hf _).kind_eq.trans hbrace) hbody', .block hB⟩
  | ifThen hkey hopen hc hclose h =>
    simp only [List.cons_append, changed_cons, changed_append] at hw
    obtain ⟨-, -, hwc, -, hws⟩ := hw
    obtain ⟨c', hc', hC⟩ := he hc hwc
    obtain ⟨yes', hyes', hY⟩ := hs _ h hws
    simp only [List.cons_append, List.map_cons, List.map_append]
    exact ⟨_, .ifThen ((hf _).kind_eq.trans hkey) ((hf _).kind_eq.trans hopen) hc'
      ((hf _).kind_eq.trans hclose) hyes', .branch hC hY .none⟩
  | ifElse hkey hopen hc hclose h helse h' =>
    simp only [List.cons_append, List.append_assoc, changed_cons, changed_append] at hw
    obtain ⟨-, -, hwc, -, hws, -, hws'⟩ := hw
    obtain ⟨c', hc', hC⟩ := he hc hwc
    obtain ⟨yes', hyes', hY⟩ := hs _ h hws
    obtain ⟨no', hno', hN⟩ := hs _ h' hws'
    simp only [List.cons_append, List.map_cons, List.map_append]
    exact ⟨_, .ifElse ((hf _).kind_eq.trans hkey) ((hf _).kind_eq.trans hopen) hc'
      ((hf _).kind_eq.trans hclose) hyes' ((hf _).kind_eq.trans helse) hno',
      .branch hC hY (.some hN)⟩
  | loop hkey hopen hc hclose h =>
    simp only [List.cons_append, changed_cons, changed_append] at hw
    obtain ⟨-, -, hwc, -, hws⟩ := hw
    obtain ⟨c', hc', hC⟩ := he hc hwc
    obtain ⟨body', hbody', hB⟩ := hs _ h hws
    simp only [List.cons_append, List.map_cons, List.map_append]
    exact ⟨_, .loop ((hf _).kind_eq.trans hkey) ((hf _).kind_eq.trans hopen) hc'
      ((hf _).kind_eq.trans hclose) hbody', .loop hC hB⟩
  | forLoop hkey hopen hinitial hc hincrement h =>
    simp only [List.cons_append, List.append_assoc, changed_cons, changed_append] at hw
    obtain ⟨-, -, hwi, hwc, hwn, hws⟩ := hw
    obtain ⟨initial', hinitial', hI⟩ := initializer_carries hf he hinitial hwi
    obtain ⟨c', hc', hC⟩ := condition_carries hf he hc hwc
    obtain ⟨increment', hincrement', hN⟩ := increment_carries hf he hincrement hwn
    obtain ⟨body', hbody', hB⟩ := hs _ h hws
    simp only [List.cons_append, List.map_cons, List.map_append]
    have hround : Stmt.Alike R (.block [_, _]) (.block [body', increment']) :=
      .block (.cons hB (.cons hN .nil))
    exact ⟨_, .forLoop ((hf _).kind_eq.trans hkey) ((hf _).kind_eq.trans hopen) hinitial' hc'
      hincrement' hbody', .block (.cons hI (.cons (.loop hC hround) .nil))⟩

mutual

theorem statement_carries : ∀ depth dangling, Carries R f (Statement depth dangling) (Stmt.Alike R)
  | depth + 3, dangling => by
    rw [Statement]
    exact undeclared_carries hf (expression_carries hf depth) (statement_carries (depth + 1))
      (declaration_carries (depth + 1))
  | 0, _ | 1, _ | 2, _ => fun _ _ h ↦ h.elim

theorem declaration_carries : ∀ depth, Carries R f (Declaration depth) (Stmt.Alike R)
  | depth + 4 => by
    rw [Declaration]
    intro w s h hw
    cases h with
    | cls hkey hname hbrace h =>
      simp only [changed_cons] at hw
      have hmethod := function_carries hf (declaration_carries depth)
      obtain ⟨methods', hmethods', hM⟩ := body_carries hf hmethod h hw.2.2.2
      exact ⟨_, .cls ((hf _).kind_eq.trans hkey) ((hf _).kind_eq.trans hname)
        ((hf _).kind_eq.trans hbrace) hmethods', .cls hw.2.1 hM⟩
    | function hkey h =>
      simp only [changed_cons] at hw
      obtain ⟨d', hd', hD⟩ := function_carries hf (declaration_carries (depth + 1)) h hw.2
      exact ⟨_, .function ((hf _).kind_eq.trans hkey) hd', .function hD⟩
    | declares hkey h =>
      simp only [changed_cons] at hw
      obtain ⟨s', hs', hS⟩ := variable_carries hf (expression_carries hf (depth + 1)) h hw.2
      exact ⟨s', .declares ((hf _).kind_eq.trans hkey) hs', hS⟩
    | statement h =>
      obtain ⟨s', hs', hS⟩ := statement_carries (depth + 3) _ h hw
      exact ⟨s', .statement hs', hS⟩
  | 0 | 1 | 2 | 3 => fun _ _ h ↦ h.elim

end

end Statements

end Carries

end TreeWalk.Grammar
