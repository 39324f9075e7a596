import TreeWalk.Proofs.Tree.Regular

namespace TreeWalk

/-- The variables and parameters that are declared in a statement are named by identifiers. -/
inductive Stmt.Named : Stmt → Prop
  | empty : Named .empty
  | expression {e : Expr} : Named (.expression e)
  | print {e : Expr} : Named (.print e)
  | var {name : Token} {initializer : Option Expr} :
      name.kind = .identifier → Named (.var name initializer)
  | block {body : List Stmt} : (∀ s ∈ body, s.Named) → Named (.block body)
  | branch {condition : Expr} {yes : Stmt} {no : Option Stmt} :
      yes.Named → (∀ s ∈ no, s.Named) → Named (.branch condition yes no)
  | loop {condition : Expr} {body : Stmt} : body.Named → Named (.loop condition body)
  | function {d : FunDecl} : (∀ t ∈ d.params, t.kind = .identifier) → (∀ s ∈ d.body, s.Named) →
      Named (.function d)
  | returns {keyword : Token} {value : Option Expr} : Named (.returns keyword value)
  | cls {name : Token} {methods : List FunDecl} :
      (∀ d ∈ methods, ∀ t ∈ d.params, t.kind = .identifier) →
      (∀ d ∈ methods, ∀ s ∈ d.body, s.Named) → Named (.cls name methods)

structure FunDecl.Named (d : FunDecl) : Prop where
  params : ∀ t ∈ d.params, t.kind = .identifier
  body : ∀ s ∈ d.body, s.Named

namespace Grammar

variable {expression : Phrase Expr} {item : Phrase Stmt}

theorem name_named : Yields Name fun t ↦ t.kind = .identifier := by
  intro w t ht _
  cases ht with
  | name hname => exact hname

theorem variable_named : Yields (Variable expression) Stmt.Named := by
  intro w s hs _
  cases hs with
  | bare hname | initialized hname => exact .var hname

theorem body_named (h : Yields item Stmt.Named) :
    Yields (Body item) fun body ↦ ∀ s ∈ body, s.Named := by
  intro w body hb hw
  cases hb with
  | close hs => exact hs.forall_mem h (lexical_append.mp hw).1

theorem function_named (h : Yields item Stmt.Named) : Yields (Function item) FunDecl.Named := by
  intro w d hd hw
  cases hd with
  | mk _ _ hparams _ hb =>
    simp only [List.cons_append, lexical_cons, lexical_append] at hw
    exact ⟨hparams.forall_mem name_named hw.2.2.1, body_named h hb hw.2.2.2.2⟩

theorem initializer_named : Yields (Initializer expression) Stmt.Named := by
  intro w s hs hw
  cases hs with
  | none => exact .empty
  | declares _ hs => exact variable_named hs (lexical_cons.mp hw).2
  | expression => exact .expression

theorem increment_named : Yields (Increment expression) Stmt.Named := by
  intro w s hs _
  cases hs with
  | none => exact .empty
  | some => exact .expression

theorem undeclared_named {statement : Bool → Phrase Stmt} {dangling : Bool}
    (hs : ∀ dangling, Yields (statement dangling) Stmt.Named) (hi : Yields item Stmt.Named) :
    Yields (Undeclared expression statement item dangling) Stmt.Named := by
  intro w s h hw
  cases h with
  | expression => exact .expression
  | print => exact .print
  | returns | returnsValue => exact .returns
  | block _ h => exact .block (body_named hi h (lexical_cons.mp hw).2)
  | ifThen _ _ _ _ h =>
    simp only [List.cons_append, lexical_cons, lexical_append] at hw
    exact .branch (hs _ h hw.2.2.2.2) (by simp)
  | ifElse _ _ _ _ h _ h' =>
    simp only [List.cons_append, List.append_assoc, lexical_cons, lexical_append] at hw
    obtain ⟨-, -, -, -, hyes, -, hno⟩ := hw
    exact .branch (hs _ h hyes) (by simpa using hs _ h' hno)
  | loop _ _ _ _ h =>
    simp only [List.cons_append, lexical_cons, lexical_append] at hw
    exact .loop (hs _ h hw.2.2.2.2)
  | forLoop _ _ hinitial _ hincrement h =>
    simp only [List.cons_append, List.append_assoc, lexical_cons, lexical_append] at hw
    obtain ⟨-, -, hwi, -, hwn, hws⟩ := hw
    have hround : Stmt.Named (.block [_, _]) := .block (by
      simpa using ⟨hs _ h hws, increment_named hincrement hwn⟩)
    exact .block (by simpa using ⟨initializer_named hinitial hwi, .loop hround⟩)

mutual

theorem statement_named : ∀ depth dangling, Yields (Statement depth dangling) Stmt.Named
  | depth + 3, dangling => by
    rw [Statement]
    exact undeclared_named (statement_named (depth + 1)) (declaration_named (depth + 1))
  | 0, _ | 1, _ | 2, _ => fun _ _ h ↦ h.elim

theorem declaration_named : ∀ depth, Yields (Declaration depth) Stmt.Named
  | depth + 4 => by
    rw [Declaration]
    intro w s h hw
    cases h with
    | cls _ _ _ h =>
      cases h with
      | close hms =>
        simp only [lexical_cons, lexical_append] at hw
        have hnamed := hms.forall_mem (function_named (declaration_named depth)) hw.2.2.2.1
        exact .cls (fun d hd ↦ (hnamed d hd).params) fun d hd ↦ (hnamed d hd).body
    | function _ h =>
      have hnamed := function_named (declaration_named (depth + 1)) h (lexical_cons.mp hw).2
      exact .function hnamed.params hnamed.body
    | declares _ h => exact variable_named h (lexical_cons.mp hw).2
    | statement h => exact statement_named (depth + 3) _ h hw
  | 0 | 1 | 2 | 3 => fun _ _ h ↦ h.elim

end

end Grammar

theorem Program.ofWords_named {room : Nat} {words : List Token} {last : Token}
    (hwords : ∀ t ∈ words, t.Lexical) (h : (ofWords room words last).faults = []) :
    ∀ s ∈ (ofWords room words last).statements, s.Named :=
  (ofWords_sound h).forall_mem (Grammar.declaration_named room) hwords

end TreeWalk
