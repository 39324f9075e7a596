import TreeWalk.Proofs.Tree.Regular

namespace TreeWalk

/-- Not spelled as the name under which frames keep what `this` is. -/
abbrev Token.Ordinary (t : Token) : Prop := t.lexeme ≠ "this"

inductive Expr.Formed (N : Token → Prop) : Expr → Prop
  | literal {value : Scalar} : Formed N (.literal value)
  | group {inner : Expr} : inner.Formed N → Formed N (.group inner)
  | unary {operator : Token} {right : Expr} : right.Formed N → Formed N (.unary operator right)
  | binary {left right : Expr} {operator : Token} :
      left.Formed N → right.Formed N → Formed N (.binary left operator right)
  | logical {left right : Expr} {operator : Token} :
      left.Formed N → right.Formed N → Formed N (.logical left operator right)
  | var {name : Token} {ref : Ref} : N name → Formed N (.var name ref)
  | assign {name : Token} {value : Expr} {ref : Ref} :
      N name → value.Formed N → Formed N (.assign name value ref)
  | call {callee : Expr} {paren : Token} {arguments : List Expr} :
      callee.Formed N → (∀ e ∈ arguments, e.Formed N) → Formed N (.call callee paren arguments)
  | get {object : Expr} {name : Token} : object.Formed N → Formed N (.get object name)
  | set {object value : Expr} {name : Token} :
      object.Formed N → value.Formed N → Formed N (.set object name value)
  | self {keyword : Token} {ref : Ref} : Formed N (.self keyword ref)

inductive Stmt.Formed (N : Token → Prop) : Stmt → Prop
  | empty : Formed N .empty
  | expression {e : Expr} : e.Formed N → Formed N (.expression e)
  | print {e : Expr} : e.Formed N → Formed N (.print e)
  | var {name : Token} {initializer : Option Expr} :
      N name → (∀ e ∈ initializer, e.Formed N) → Formed N (.var name initializer)
  | block {body : List Stmt} : (∀ s ∈ body, s.Formed N) → Formed N (.block body)
  | branch {condition : Expr} {yes : Stmt} {no : Option Stmt} :
      condition.Formed N → yes.Formed N → yes.declared? = none →
      (∀ s ∈ no, s.Formed N) → (∀ s ∈ no, s.declared? = none) →
      Formed N (.branch condition yes no)
  | loop {condition : Expr} {body : Stmt} :
      condition.Formed N → body.Formed N → body.declared? = none → Formed N (.loop condition body)
  | function {d : FunDecl} :
      N d.name → (∀ t ∈ d.params, N t) → (∀ s ∈ d.body, s.Formed N) → Formed N (.function d)
  | returns {keyword : Token} {value : Option Expr} :
      (∀ e ∈ value, e.Formed N) → Formed N (.returns keyword value)
  | cls {name : Token} {methods : List FunDecl} :
      N name → (∀ d ∈ methods, ∀ t ∈ d.params, N t) →
      (∀ d ∈ methods, ∀ s ∈ d.body, s.Formed N) → Formed N (.cls name methods)

structure FunDecl.Formed (N : Token → Prop) (d : FunDecl) : Prop where
  params : ∀ t ∈ d.params, N t
  body : ∀ s ∈ d.body, s.Formed N

theorem Stmt.Formed.declared {N : Token → Prop} {s : Stmt} (h : s.Formed N) :
    ∀ name ∈ s.declared?, N name := by
  cases h with
  | var hname | function hname | cls hname => simpa [Stmt.declared?] using hname
  | _ => simp [Stmt.declared?]

namespace Grammar

variable {α : Type} {N : Token → Prop} {w v : List Token}

def Known (N : Token → Prop) (w : List Token) : Prop := ∀ t ∈ w, t.kind = .identifier → N t

@[simp] theorem known_append : Known N (w ++ v) ↔ Known N w ∧ Known N v := List.forall_mem_append

@[simp] theorem known_cons {t : Token} :
    Known N (t :: w) ↔ (t.kind = .identifier → N t) ∧ Known N w :=
  List.forall_mem_cons

/-- All values of a kind of phrase have a property, if it is known of the identifiers among its words. -/
def Forms (N : Token → Prop) (G : Phrase α) (P : α → Prop) : Prop :=
  ∀ ⦃w a⦄, G w a → Known N w → P a

theorem Sequence.formed {item : Phrase α} {P : α → Prop} {as : List α} (h : Sequence item w as)
    (hP : Forms N item P) (hw : Known N w) : ∀ a ∈ as, P a := by
  induction h with
  | nil => simp
  | cons ha _ ih =>
    simp only [known_append] at hw
    simpa using ⟨hP ha hw.1, ih hw.2⟩

theorem Separated.formed {item : Phrase α} {P : α → Prop} {as : List α}
    (h : Separated item w as) (hP : Forms N item P) (hw : Known N w) : ∀ a ∈ as, P a := by
  induction h with
  | one ha => simpa using hP ha hw
  | more ha _ _ ih =>
    simp only [known_append, known_cons] at hw
    simpa using ⟨hP ha hw.1, ih hw.2.2⟩

theorem Parenthesised.formed {item : Phrase α} {P : α → Prop} {as : List α} {paren : Token}
    (h : Parenthesised item w (as, paren)) (hP : Forms N item P) (hw : Known N w) :
    ∀ a ∈ as, P a := by
  cases h with
  | none => simp
  | some h => exact h.formed hP (known_append.mp hw).1

theorem name_forms : Forms N Name N := by
  intro w t ht hw
  cases ht with
  | name hname => exact (known_cons.mp hw).1 hname

section Expressions

def Tier.Forms (N : Token → Prop) (t : Tier) : Prop :=
  ∀ l operator r, Expr.Formed N l → Expr.Formed N r → Expr.Formed N (t.join l operator r)

theorem joined_forms {t : Tier} {operand : Phrase Expr} (ht : t.Forms N)
    (h : Forms N operand (Expr.Formed N)) : Forms N (Joined t operand) (Expr.Formed N) := by
  intro w e he hw
  induction he with
  | one he => exact h he hw
  | more _ _ hr ih =>
    simp only [known_append, known_cons] at hw
    exact ht _ _ _ (ih hw.1) (h hr hw.2.2)

theorem operation_forms {operand : Phrase Expr} (h : Forms N operand (Expr.Formed N)) :
    Forms N (Operation operand) (Expr.Formed N) := by
  have hbinary {kinds : List Kind} : Tier.Forms N ⟨kinds, .binary⟩ := fun _ _ _ ↦ .binary
  have hlogical {kinds : List Kind} : Tier.Forms N ⟨kinds, .logical⟩ := fun _ _ _ ↦ .logical
  exact joined_forms hlogical <| joined_forms hlogical <| joined_forms hbinary <|
    joined_forms hbinary <| joined_forms hbinary <| joined_forms hbinary h

theorem primary_forms {inner : Phrase Expr} (h : Forms N inner (Expr.Formed N)) :
    Forms N (Primary inner) (Expr.Formed N) := by
  intro w e he hw
  cases he with
  | false | true | nil | value => exact .literal
  | self => exact .self
  | name hname => exact .var ((known_cons.mp hw).1 hname)
  | group _ he =>
    simp only [List.cons_append, known_cons, known_append] at hw
    exact .group (h he hw.2.1)

theorem suffixed_forms {argument primary : Phrase Expr} (h : Forms N argument (Expr.Formed N))
    (hp : Forms N primary (Expr.Formed N)) :
    Forms N (Suffixed argument primary) (Expr.Formed N) := by
  intro w e he hw
  induction he with
  | primary he => exact hp he hw
  | call _ _ hargs ih =>
    simp only [known_append, known_cons] at hw
    exact .call (ih hw.1) (hargs.formed h hw.2.2)
  | property _ _ _ ih => exact .get (ih (known_append.mp hw).1)

mutual

theorem expression_forms : ∀ depth, Forms N (Expression depth) (Expr.Formed N)
  | depth + 7 => by
    rw [Expression]
    intro w e he hw
    cases he with
    | operation he => exact operation_forms (operand_forms depth) he hw
    | assign hname _ he =>
      simp only [known_append, known_cons] at hw
      cases operation_forms (operand_forms depth) hname hw.1 with
      | var hname => exact .assign hname (expression_forms (depth + 6) he hw.2.2)
    | set ho _ he =>
      simp only [known_append, known_cons] at hw
      cases operation_forms (operand_forms depth) ho hw.1 with
      | get ho => exact .set ho (expression_forms (depth + 6) he hw.2.2)
  | 0 | 1 | 2 | 3 | 4 | 5 | 6 => fun _ _ h ↦ h.elim

theorem operand_forms : ∀ depth, Forms N (Operand depth) (Expr.Formed N)
  | depth + 4 => by
    rw [Operand]
    intro w e he hw
    cases he with
    | sign _ he => exact .unary (operand_forms (depth + 3) he (known_cons.mp hw).2)
    | call he =>
      exact suffixed_forms (expression_forms depth) (primary_forms (expression_forms depth)) he hw
  | 0 | 1 | 2 | 3 => fun _ _ h ↦ h.elim

end

end Expressions

section Statements

variable {expression : Phrase Expr} {item : Phrase Stmt}

theorem variable_forms (h : Forms N expression (Expr.Formed N)) :
    Forms N (Variable expression) (Stmt.Formed N) := by
  intro w s hs hw
  cases hs with
  | bare hname => exact .var ((known_cons.mp hw).1 hname) (by simp)
  | initialized hname _ he =>
    simp only [List.cons_append, known_cons, known_append] at hw
    exact .var (hw.1 hname) (by simpa using h he hw.2.2.1)

theorem body_forms (h : Forms N item (Stmt.Formed N)) :
    Forms N (Body item) fun body ↦ ∀ s ∈ body, s.Formed N := by
  intro w body hb hw
  cases hb with
  | close hs => exact hs.formed h (known_append.mp hw).1

theorem function_forms (h : Forms N item (Stmt.Formed N)) :
    Forms N (Function item) fun d ↦ N d.name ∧ d.Formed N := by
  intro w d hd hw
  cases hd with
  | mk hname _ hparams _ hb =>
    simp only [List.cons_append, known_cons, known_append] at hw
    exact ⟨hw.1 hname, hparams.formed name_forms hw.2.2.1, body_forms h hb hw.2.2.2.2⟩

theorem initializer_forms (h : Forms N expression (Expr.Formed N)) :
    Forms N (Initializer expression) (Stmt.Formed N) := by
  intro w s hs hw
  cases hs with
  | none => exact .empty
  | declares _ hs => exact variable_forms h hs (known_cons.mp hw).2
  | expression he => exact .expression (h he (known_append.mp hw).1)

theorem condition_forms (h : Forms N expression (Expr.Formed N)) :
    Forms N (Condition expression) (Expr.Formed N) := by
  intro w e he hw
  cases he with
  | none => exact .literal
  | some he => exact h he (known_append.mp hw).1

theorem increment_forms (h : Forms N expression (Expr.Formed N)) :
    Forms N (Increment expression) (Stmt.Formed N) := by
  intro w s hs hw
  cases hs with
  | none => exact .empty
  | some he => exact .expression (h he (known_append.mp hw).1)

theorem undeclared_forms {statement : Bool → Phrase Stmt} {dangling : Bool}
    (he : Forms N expression (Expr.Formed N))
    (hs : ∀ dangling, Forms N (statement dangling) fun s ↦ s.Formed N ∧ s.declared? = none)
    (hi : Forms N item (Stmt.Formed N)) :
    Forms N (Undeclared expression statement item dangling)
      fun s ↦ s.Formed N ∧ s.declared? = none := by
  intro w s h hw
  cases h with
  | expression h => exact ⟨.expression (he h (known_append.mp hw).1), rfl⟩
  | print _ h =>
    simp only [List.cons_append, known_cons, known_append] at hw
    exact ⟨.print (he h hw.2.1), rfl⟩
  | returns => exact ⟨.returns (by simp), rfl⟩
  | returnsValue _ h =>
    simp only [List.cons_append, known_cons, known_append] at hw
    exact ⟨.returns (by simpa using he h hw.2.1), rfl⟩
  | block _ h => exact ⟨.block (body_forms hi h (known_cons.mp hw).2), rfl⟩
  | ifThen _ _ hc _ h =>
    simp only [List.cons_append, known_cons, known_append] at hw
    obtain ⟨-, -, hwc, -, hws⟩ := hw
    obtain ⟨hyes, hplain⟩ := hs _ h hws
    exact ⟨.branch (he hc hwc) hyes hplain (by simp) (by simp), rfl⟩
  | ifElse _ _ hc _ h _ h' =>
    simp only [List.cons_append, List.append_assoc, known_cons, known_append] at hw
    obtain ⟨-, -, hwc, -, hws, -, hws'⟩ := hw
    obtain ⟨hyes, hplain⟩ := hs _ h hws
    obtain ⟨hno, hplain'⟩ := hs _ h' hws'
    exact ⟨.branch (he hc hwc) hyes hplain (by simpa using hno) (by simpa using hplain'), rfl⟩
  | loop _ _ hc _ h =>
    simp only [List.cons_append, known_cons, known_append] at hw
    obtain ⟨-, -, hwc, -, hws⟩ := hw
    obtain ⟨hbody, hplain⟩ := hs _ h hws
    exact ⟨.loop (he hc hwc) hbody hplain, rfl⟩
  | forLoop _ _ hinitial hc hincrement h =>
    simp only [List.cons_append, List.append_assoc, known_cons, known_append] at hw
    obtain ⟨-, -, hwi, hwc, hwn, hws⟩ := hw
    have hround : Stmt.Formed N (.block [_, _]) := .block (by
      simpa using ⟨(hs _ h hws).1, increment_forms he hincrement hwn⟩)
    have hloop := Stmt.Formed.loop (condition_forms he hc hwc) hround rfl
    exact ⟨.block (by simpa using ⟨initializer_forms he hinitial hwi, hloop⟩), rfl⟩

mutual

theorem statement_forms : ∀ depth dangling,
    Forms N (Statement depth dangling) fun s ↦ s.Formed N ∧ s.declared? = none
  | depth + 3, dangling => by
    rw [Statement]
    exact undeclared_forms (expression_forms depth) (statement_forms (depth + 1))
      (declaration_forms (depth + 1))
  | 0, _ | 1, _ | 2, _ => fun _ _ h ↦ h.elim

theorem declaration_forms : ∀ depth, Forms N (Declaration depth) (Stmt.Formed N)
  | depth + 4 => by
    rw [Declaration]
    intro w s h hw
    cases h with
    | cls _ hname _ h =>
      cases h with
      | close hms =>
        simp only [known_cons, known_append] at hw
        have hformed := hms.formed (function_forms (declaration_forms depth)) hw.2.2.2.1
        exact .cls (hw.2.1 hname) (fun d hd ↦ (hformed d hd).2.params) fun d hd ↦ (hformed d hd).2.body
    | function _ h =>
      obtain ⟨hname, hd⟩ :=
        function_forms (declaration_forms (depth + 1)) h (known_cons.mp hw).2
      exact .function hname hd.params hd.body
    | declares _ h => exact variable_forms (expression_forms (depth + 1)) h (known_cons.mp hw).2
    | statement h => exact (statement_forms (depth + 3) _ h hw).1
  | 0 | 1 | 2 | 3 => fun _ _ h ↦ h.elim

end

end Statements

end Grammar

/-- What is read without a complaint is formed so, whatever the words. -/
theorem Program.ofWords_formed {N : Token → Prop} {room : Nat} {words : List Token} {last : Token}
    (hwords : ∀ t ∈ words, t.kind = .identifier → N t) (h : (ofWords room words last).faults = []) :
    ∀ s ∈ (ofWords room words last).statements, s.Formed N :=
  (ofWords_sound h).formed (Grammar.declaration_forms room) hwords

end TreeWalk
