import TreeWalk.Proofs.Grammar.Program
import TreeWalk.Proofs.Token.Lexical

namespace TreeWalk

def Stmt.declared? : Stmt → Option Token
  | .var name _ => some name
  | .function d => some d.name
  | .cls name _ => some name
  | _ => none

inductive Expr.Regular : Expr → Prop
  | literal {value : Scalar} : Regular (.literal value)
  | group {inner : Expr} : inner.Regular → Regular (.group inner)
  | unary {operator : Token} {right : Expr} : right.Regular → Regular (.unary operator right)
  | binary {left right : Expr} {operator : Token} :
      left.Regular → right.Regular → Regular (.binary left operator right)
  | logical {left right : Expr} {operator : Token} :
      left.Regular → right.Regular → Regular (.logical left operator right)
  | var {name : Token} {ref : Ref} : Regular (.var name ref)
  | assign {name : Token} {value : Expr} {ref : Ref} :
      value.Regular → Regular (.assign name value ref)
  | call {callee : Expr} {paren : Token} {arguments : List Expr} :
      callee.Regular → (∀ e ∈ arguments, e.Regular) → Regular (.call callee paren arguments)
  | get {object : Expr} {name : Token} : object.Regular → Regular (.get object name)
  | set {object value : Expr} {name : Token} :
      object.Regular → value.Regular → Regular (.set object name value)
  | self {keyword : Token} {ref : Ref} : keyword.lexeme = "this" → Regular (.self keyword ref)

inductive Stmt.Regular : Stmt → Prop
  | empty : Regular .empty
  | expression {e : Expr} : e.Regular → Regular (.expression e)
  | print {e : Expr} : e.Regular → Regular (.print e)
  | var {name : Token} {initializer : Option Expr} :
      name.lexeme ≠ "this" → (∀ e ∈ initializer, e.Regular) → Regular (.var name initializer)
  | block {body : List Stmt} : (∀ s ∈ body, s.Regular) → Regular (.block body)
  | branch {condition : Expr} {yes : Stmt} {no : Option Stmt} :
      condition.Regular → yes.Regular → yes.declared? = none →
      (∀ s ∈ no, s.Regular) → (∀ s ∈ no, s.declared? = none) →
      Regular (.branch condition yes no)
  | loop {condition : Expr} {body : Stmt} :
      condition.Regular → body.Regular → body.declared? = none → Regular (.loop condition body)
  | function {d : FunDecl} : (∀ s ∈ d.body, s.Regular) → Regular (.function d)
  | returns {keyword : Token} {value : Option Expr} :
      (∀ e ∈ value, e.Regular) → Regular (.returns keyword value)
  | cls {name : Token} {methods : List FunDecl} :
      (∀ d ∈ methods, ∀ s ∈ d.body, s.Regular) → Regular (.cls name methods)

namespace Grammar

variable {α : Type} {w v : List Token}

def Lexical (w : List Token) : Prop := ∀ t ∈ w, t.Lexical

@[simp] theorem lexical_append : Lexical (w ++ v) ↔ Lexical w ∧ Lexical v := List.forall_mem_append

@[simp] theorem lexical_cons {t : Token} : Lexical (t :: w) ↔ t.Lexical ∧ Lexical w :=
  List.forall_mem_cons

/-- All values of a kind of phrase have a property, if its words are lexical. -/
def Yields (G : Phrase α) (P : α → Prop) : Prop := ∀ ⦃w a⦄, G w a → Lexical w → P a

section Expressions

theorem Sequence.forall_mem {item : Phrase α} {P : α → Prop} {as : List α} (h : Sequence item w as)
    (hP : Yields item P) (hw : Lexical w) : ∀ a ∈ as, P a := by
  induction h with
  | nil => simp
  | cons ha _ ih =>
    simp only [lexical_append] at hw
    simpa using ⟨hP ha hw.1, ih hw.2⟩

theorem Separated.forall_mem {item : Phrase α} {P : α → Prop} {as : List α}
    (h : Separated item w as) (hP : Yields item P) (hw : Lexical w) : ∀ a ∈ as, P a := by
  induction h with
  | one ha => simpa using hP ha hw
  | more ha _ _ ih =>
    simp only [lexical_append, lexical_cons] at hw
    simpa using ⟨hP ha hw.1, ih hw.2.2⟩

theorem Parenthesised.forall_mem {item : Phrase α} {P : α → Prop} {as : List α} {paren : Token}
    (h : Parenthesised item w (as, paren)) (hP : Yields item P) (hw : Lexical w) :
    ∀ a ∈ as, P a := by
  cases h with
  | none => simp
  | some h => exact h.forall_mem hP (lexical_append.mp hw).1

def Tier.Regular (t : Tier) : Prop :=
  ∀ l operator r, Expr.Regular l → Expr.Regular r → Expr.Regular (t.join l operator r)

theorem joined_regular {t : Tier} {operand : Phrase Expr} (ht : t.Regular)
    (h : Yields operand Expr.Regular) : Yields (Joined t operand) Expr.Regular := by
  intro w e he hw
  induction he with
  | one he => exact h he hw
  | more _ _ hr ih =>
    simp only [lexical_append, lexical_cons] at hw
    exact ht _ _ _ (ih hw.1) (h hr hw.2.2)

theorem operation_regular {operand : Phrase Expr} (h : Yields operand Expr.Regular) :
    Yields (Operation operand) Expr.Regular := by
  have hbinary {kinds : List Kind} : Tier.Regular ⟨kinds, .binary⟩ := fun _ _ _ ↦ .binary
  have hlogical {kinds : List Kind} : Tier.Regular ⟨kinds, .logical⟩ := fun _ _ _ ↦ .logical
  exact joined_regular hlogical <| joined_regular hlogical <| joined_regular hbinary <|
    joined_regular hbinary <| joined_regular hbinary <| joined_regular hbinary h

theorem primary_regular {inner : Phrase Expr} (h : Yields inner Expr.Regular) :
    Yields (Primary inner) Expr.Regular := by
  intro w e he hw
  cases he with
  | false | true | nil | value => exact .literal
  | self hself => exact .self ((hw _ (.head _)).this hself)
  | name => exact .var
  | group _ he =>
    simp only [List.cons_append, lexical_cons, lexical_append] at hw
    exact .group (h he hw.2.1)

theorem suffixed_regular {argument primary : Phrase Expr} (h : Yields argument Expr.Regular)
    (hp : Yields primary Expr.Regular) : Yields (Suffixed argument primary) Expr.Regular := by
  intro w e he hw
  induction he with
  | primary he => exact hp he hw
  | call _ _ hargs ih =>
    simp only [lexical_append, lexical_cons] at hw
    exact .call (ih hw.1) (hargs.forall_mem h hw.2.2)
  | property _ _ _ ih => exact .get (ih (lexical_append.mp hw).1)

mutual

theorem expression_regular : ∀ depth, Yields (Expression depth) Expr.Regular
  | depth + 7 => by
    rw [Expression]
    intro w e he hw
    cases he with
    | operation he => exact operation_regular (operand_regular depth) he hw
    | assign _ _ he =>
      simp only [lexical_append, lexical_cons] at hw
      exact .assign (expression_regular (depth + 6) he hw.2.2)
    | set ho _ he =>
      simp only [lexical_append, lexical_cons] at hw
      cases operation_regular (operand_regular depth) ho hw.1 with
      | get ho => exact .set ho (expression_regular (depth + 6) he hw.2.2)
  | 0 | 1 | 2 | 3 | 4 | 5 | 6 => fun _ _ h ↦ h.elim

theorem operand_regular : ∀ depth, Yields (Operand depth) Expr.Regular
  | depth + 4 => by
    rw [Operand]
    intro w e he hw
    cases he with
    | sign _ he => exact .unary (operand_regular (depth + 3) he (lexical_cons.mp hw).2)
    | call he =>
      exact suffixed_regular (expression_regular depth) (primary_regular (expression_regular depth))
        he hw
  | 0 | 1 | 2 | 3 => fun _ _ h ↦ h.elim

end

end Expressions

section Statements

variable {expression : Phrase Expr} {item : Phrase Stmt}

theorem variable_regular (h : Yields expression Expr.Regular) :
    Yields (Variable expression) Stmt.Regular := by
  intro w s hs hw
  cases hs with
  | bare hname => exact .var ((hw _ (.head _)).name hname) (by simp)
  | initialized hname _ he =>
    have hthis := (hw _ (.head _)).name hname
    simp only [List.cons_append, lexical_cons, lexical_append] at hw
    exact .var hthis (by simpa using h he hw.2.2.1)

theorem body_regular (h : Yields item Stmt.Regular) {body : List Stmt} (hb : Body item w body)
    (hw : Lexical w) : ∀ s ∈ body, s.Regular := by
  cases hb with
  | close hs => exact hs.forall_mem h (lexical_append.mp hw).1

theorem function_regular (h : Yields item Stmt.Regular) :
    Yields (Function item) fun d ↦ ∀ s ∈ d.body, s.Regular := by
  intro w d hd hw
  cases hd with
  | mk _ _ _ _ hb =>
    simp only [List.cons_append, lexical_cons, lexical_append] at hw
    exact body_regular h hb hw.2.2.2.2

theorem initializer_regular (h : Yields expression Expr.Regular) :
    Yields (Initializer expression) Stmt.Regular := by
  intro w s hs hw
  cases hs with
  | none => exact .empty
  | declares _ hs => exact variable_regular h hs (lexical_cons.mp hw).2
  | expression he => exact .expression (h he (lexical_append.mp hw).1)

theorem condition_regular (h : Yields expression Expr.Regular) :
    Yields (Condition expression) Expr.Regular := by
  intro w e he hw
  cases he with
  | none => exact .literal
  | some he => exact h he (lexical_append.mp hw).1

theorem increment_regular (h : Yields expression Expr.Regular) :
    Yields (Increment expression) Stmt.Regular := by
  intro w s hs hw
  cases hs with
  | none => exact .empty
  | some he => exact .expression (h he (lexical_append.mp hw).1)

def Plain (s : Stmt) : Prop := s.Regular ∧ s.declared? = none

theorem undeclared_plain {statement : Bool → Phrase Stmt} {dangling : Bool}
    (he : Yields expression Expr.Regular) (hs : ∀ dangling, Yields (statement dangling) Plain)
    (hi : Yields item Stmt.Regular) :
    Yields (Undeclared expression statement item dangling) Plain := by
  intro w s h hw
  cases h with
  | expression h => exact ⟨.expression (he h (lexical_append.mp hw).1), rfl⟩
  | print _ h =>
    simp only [List.cons_append, lexical_cons, lexical_append] at hw
    exact ⟨.print (he h hw.2.1), rfl⟩
  | returns => exact ⟨.returns (by simp), rfl⟩
  | returnsValue _ h =>
    simp only [List.cons_append, lexical_cons, lexical_append] at hw
    exact ⟨.returns (by simpa using he h hw.2.1), rfl⟩
  | block _ h => exact ⟨.block (body_regular hi h (lexical_cons.mp hw).2), rfl⟩
  | ifThen _ _ hc _ h =>
    simp only [List.cons_append, lexical_cons, lexical_append] at hw
    obtain ⟨-, -, hwc, -, hws⟩ := hw
    obtain ⟨hyes, hplain⟩ := hs _ h hws
    exact ⟨.branch (he hc hwc) hyes hplain (by simp) (by simp), rfl⟩
  | ifElse _ _ hc _ h _ h' =>
    simp only [List.cons_append, List.append_assoc, lexical_cons, lexical_append] at hw
    obtain ⟨-, -, hwc, -, hws, -, hws'⟩ := hw
    obtain ⟨hyes, hplain⟩ := hs _ h hws
    obtain ⟨hno, hplain'⟩ := hs _ h' hws'
    exact ⟨.branch (he hc hwc) hyes hplain (by simpa using hno) (by simpa using hplain'), rfl⟩
  | loop _ _ hc _ h =>
    simp only [List.cons_append, lexical_cons, lexical_append] at hw
    obtain ⟨-, -, hwc, -, hws⟩ := hw
    obtain ⟨hbody, hplain⟩ := hs _ h hws
    exact ⟨.loop (he hc hwc) hbody hplain, rfl⟩
  | forLoop _ _ hinitial hc hincrement h =>
    simp only [List.cons_append, List.append_assoc, lexical_cons, lexical_append] at hw
    obtain ⟨-, -, hwi, hwc, hwn, hws⟩ := hw
    have hround : Stmt.Regular (.block [_, _]) := .block (by
      simpa using ⟨(hs _ h hws).1, increment_regular he hincrement hwn⟩)
    have hloop := Stmt.Regular.loop (condition_regular he hc hwc) hround rfl
    exact ⟨.block (by simpa using ⟨initializer_regular he hinitial hwi, hloop⟩), rfl⟩

mutual

theorem statement_plain : ∀ depth dangling, Yields (Statement depth dangling) Plain
  | depth + 3, dangling => by
    rw [Statement]
    exact undeclared_plain (expression_regular depth) (statement_plain (depth + 1))
      (declaration_regular (depth + 1))
  | 0, _ | 1, _ | 2, _ => fun _ _ h ↦ h.elim

theorem declaration_regular : ∀ depth, Yields (Declaration depth) Stmt.Regular
  | depth + 4 => by
    rw [Declaration]
    intro w s h hw
    cases h with
    | cls _ _ _ h =>
      cases h with
      | close hms =>
        simp only [lexical_cons, lexical_append] at hw
        exact .cls (hms.forall_mem (function_regular (declaration_regular depth)) hw.2.2.2.1)
    | function _ h =>
      exact .function (function_regular (declaration_regular (depth + 1)) h (lexical_cons.mp hw).2)
    | declares _ h =>
      exact variable_regular (expression_regular (depth + 1)) h (lexical_cons.mp hw).2
    | statement h => exact (statement_plain (depth + 3) _ h hw).1
  | 0 | 1 | 2 | 3 => fun _ _ h ↦ h.elim

end

theorem derives_regular {ss : List Stmt} (h : Derives w ss) (hw : Lexical w) :
    ∀ s ∈ ss, s.Regular := by
  obtain ⟨depth, h⟩ := h
  exact h.forall_mem (declaration_regular depth) hw

end Statements

end Grammar

theorem Program.ofWords_regular {room : Nat} {words : List Token} {last : Token}
    (hwords : ∀ t ∈ words, t.Lexical) (h : (ofWords room words last).faults = []) :
    ∀ s ∈ (ofWords room words last).statements, s.Regular :=
  Grammar.derives_regular ⟨room, ofWords_sound h⟩ hwords

end TreeWalk
