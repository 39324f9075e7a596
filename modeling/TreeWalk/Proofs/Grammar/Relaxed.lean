import TreeWalk.Proofs.Grammar.Basic

namespace TreeWalk

def Expr.isTarget : Expr → Bool
  | .var _ _ | .get _ _ => true
  | _ => false

namespace Grammar

variable {α : Type}

/-- A kind of phrase: which words are read as what, with which complaints. -/
abbrev Reading (α : Type) := List Token → α → List Diagnostic → Prop

def Reading.phrase (G : Reading α) : Phrase α := fun w a ↦ ∃ ds, G w a ds

namespace Relaxed

inductive Sequence (item : Reading α) : Reading (List α)
  | nil : Sequence item [] [] []
  | cons {w v : List Token} {a : α} {as : List α} {ds ds' : List Diagnostic} :
      item w a ds → Sequence item v as ds' → Sequence item (w ++ v) (a :: as) (ds ++ ds')

/-- The complaint about an item behind `n` others, at its first word, if it is one too many. -/
def surplus (tooMany : Complaint) (n : Nat) (w : List Token) : List Diagnostic :=
  if maxArguments ≤ n then w.head?.toList.map (.atToken · tooMany) else []

/-- `item ("," item)*`, behind `n` items. -/
inductive Separated (tooMany : Complaint) (item : Reading α) : Nat → Reading (List α)
  | one {n : Nat} {w : List Token} {a : α} {ds : List Diagnostic} :
      item w a ds → Separated tooMany item n w [a] (surplus tooMany n w ++ ds)
  | more {n : Nat} {w v : List Token} {comma : Token} {a : α} {as : List α} {ds ds' : List Diagnostic} :
      item w a ds → comma.kind = .comma → Separated tooMany item (n + 1) v as ds' →
      Separated tooMany item n (w ++ comma :: v) (a :: as) (surplus tooMany n w ++ (ds ++ ds'))

inductive Parenthesised (tooMany : Complaint) (item : Reading α) : Reading (List α × Token)
  | none {close : Token} : close.kind = .rightParen → Parenthesised tooMany item [close] ([], close) []
  | some {w : List Token} {as : List α} {close : Token} {ds : List Diagnostic} :
      Separated tooMany item 0 w as ds → close.kind = .rightParen →
      Parenthesised tooMany item (w ++ [close]) (as, close) ds

inductive Name : Reading Token
  | name {t : Token} : t.kind = .identifier → Name [t] t []

section Expressions

inductive Joined (t : Tier) (operand : Reading Expr) : Reading Expr
  | one {w : List Token} {e : Expr} {ds : List Diagnostic} : operand w e ds → Joined t operand w e ds
  | more {w v : List Token} {operator : Token} {l r : Expr} {ds ds' : List Diagnostic} :
      Joined t operand w l ds → operator.kind ∈ t.kinds → operand v r ds' →
      Joined t operand (w ++ operator :: v) (t.join l operator r) (ds ++ ds')

def Operation (operand : Reading Expr) : Reading Expr :=
  Joined disjunction <| Joined conjunction <| Joined equality <| Joined comparison <|
    Joined term <| Joined factor operand

/-- `operation ("=" value)?`. Where the operation cannot be assigned to it stands for the whole, and there is
a complaint about the sign, after those about the value. -/
inductive Assignment (operation value : Reading Expr) : Reading Expr
  | operation {w : List Token} {e : Expr} {ds : List Diagnostic} :
      operation w e ds → Assignment operation value w e ds
  | assign {w v : List Token} {equals name : Token} {ref : Ref} {e : Expr} {ds ds' : List Diagnostic} :
      operation w (.var name ref) ds → equals.kind = .equal → value v e ds' →
      Assignment operation value (w ++ equals :: v) (.assign name e {}) (ds ++ ds')
  | set {w v : List Token} {equals name : Token} {object e : Expr} {ds ds' : List Diagnostic} :
      operation w (.get object name) ds → equals.kind = .equal → value v e ds' →
      Assignment operation value (w ++ equals :: v) (.set object name e) (ds ++ ds')
  | invalid {w v : List Token} {equals : Token} {target e : Expr} {ds ds' : List Diagnostic} :
      operation w target ds → target.isTarget = false → equals.kind = .equal → value v e ds' →
      Assignment operation value (w ++ equals :: v) target
        (ds ++ (ds' ++ [.atToken equals .assignmentTarget]))

inductive Signed (signed call : Reading Expr) : Reading Expr
  | sign {w : List Token} {operator : Token} {e : Expr} {ds : List Diagnostic} :
      operator.kind = .bang ∨ operator.kind = .minus → signed w e ds →
      Signed signed call (operator :: w) (.unary operator e) ds
  | call {w : List Token} {e : Expr} {ds : List Diagnostic} : call w e ds → Signed signed call w e ds

inductive Suffixed (argument primary : Reading Expr) : Reading Expr
  | primary {w : List Token} {e : Expr} {ds : List Diagnostic} :
      primary w e ds → Suffixed argument primary w e ds
  | call {w v : List Token} {opening paren : Token} {callee : Expr} {arguments : List Expr}
      {ds ds' : List Diagnostic} :
      Suffixed argument primary w callee ds → opening.kind = .leftParen →
      Parenthesised .tooManyArguments argument v (arguments, paren) ds' →
      Suffixed argument primary (w ++ opening :: v) (.call callee paren arguments) (ds ++ ds')
  | property {w : List Token} {dot name : Token} {object : Expr} {ds : List Diagnostic} :
      Suffixed argument primary w object ds → dot.kind = .dot → name.kind = .identifier →
      Suffixed argument primary (w ++ [dot, name]) (.get object name) ds

inductive Primary (inner : Reading Expr) : Reading Expr
  | word {w : List Token} {e : Expr} :
      Grammar.Primary (fun _ _ ↦ False) w e → Primary inner w e []
  | group {w : List Token} {opening close : Token} {e : Expr} {ds : List Diagnostic} :
      opening.kind = .leftParen → inner w e ds → close.kind = .rightParen →
      Primary inner (opening :: w ++ [close]) (.group e) ds

mutual

def Expression : Nat → Reading Expr
  | depth + 7 => Assignment (Operation (Operand depth)) (Expression (depth + 6))
  | _ => fun _ _ _ ↦ False

def Operand : Nat → Reading Expr
  | depth + 4 =>
    Signed (Operand (depth + 3)) (Suffixed (Expression depth) (Primary (Expression depth)))
  | _ => fun _ _ _ ↦ False

end

end Expressions

section Statements

inductive Body (item : Reading α) : Reading (List α)
  | close {w : List Token} {as : List α} {brace : Token} {ds : List Diagnostic} :
      Sequence item w as ds → brace.kind = .rightBrace → Body item (w ++ [brace]) as ds

inductive Function (item : Reading Stmt) : Reading FunDecl
  | mk {w v : List Token} {name opening paren brace : Token} {params : List Token}
      {body : List Stmt} {ds ds' : List Diagnostic} :
      name.kind = .identifier → opening.kind = .leftParen →
      Parenthesised .tooManyParameters Name w (params, paren) ds →
      brace.kind = .leftBrace → Body item v body ds' →
      Function item (name :: opening :: w ++ brace :: v) (.mk name params body) (ds ++ ds')

inductive Variable (expression : Reading Expr) : Reading Stmt
  | bare {name semicolon : Token} : name.kind = .identifier → semicolon.kind = .semicolon →
      Variable expression [name, semicolon] (.var name none) []
  | initialized {w : List Token} {name equals semicolon : Token} {e : Expr} {ds : List Diagnostic} :
      name.kind = .identifier → equals.kind = .equal → expression w e ds →
      semicolon.kind = .semicolon →
      Variable expression (name :: equals :: w ++ [semicolon]) (.var name (some e)) ds

inductive Initializer (expression : Reading Expr) : Reading Stmt
  | none {semicolon : Token} : semicolon.kind = .semicolon →
      Initializer expression [semicolon] .empty []
  | declares {w : List Token} {keyword : Token} {s : Stmt} {ds : List Diagnostic} :
      keyword.kind = .varWord → Variable expression w s ds → Initializer expression (keyword :: w) s ds
  | expression {w : List Token} {semicolon : Token} {e : Expr} {ds : List Diagnostic} :
      expression w e ds → semicolon.kind = .semicolon →
      Initializer expression (w ++ [semicolon]) (.expression e) ds

inductive Condition (expression : Reading Expr) : Reading Expr
  | none {semicolon : Token} : semicolon.kind = .semicolon →
      Condition expression [semicolon] (.literal (.bool true)) []
  | some {w : List Token} {semicolon : Token} {e : Expr} {ds : List Diagnostic} :
      expression w e ds → semicolon.kind = .semicolon → Condition expression (w ++ [semicolon]) e ds

inductive Increment (expression : Reading Expr) : Reading Stmt
  | none {paren : Token} : paren.kind = .rightParen → Increment expression [paren] .empty []
  | some {w : List Token} {paren : Token} {e : Expr} {ds : List Diagnostic} :
      expression w e ds → paren.kind = .rightParen →
      Increment expression (w ++ [paren]) (.expression e) ds

/-- A statement that is no declaration. It dangles if it ends in an `if` without `else`. -/
inductive Undeclared (expression : Reading Expr) (statement : Bool → Reading Stmt)
    (item : Reading Stmt) : Bool → Reading Stmt
  | expression {w : List Token} {semicolon : Token} {e : Expr} {ds : List Diagnostic} :
      expression w e ds → semicolon.kind = .semicolon →
      Undeclared expression statement item false (w ++ [semicolon]) (.expression e) ds
  | print {w : List Token} {keyword semicolon : Token} {e : Expr} {ds : List Diagnostic} :
      keyword.kind = .printWord → expression w e ds → semicolon.kind = .semicolon →
      Undeclared expression statement item false (keyword :: w ++ [semicolon]) (.print e) ds
  | returns {keyword semicolon : Token} :
      keyword.kind = .returnWord → semicolon.kind = .semicolon →
      Undeclared expression statement item false [keyword, semicolon] (.returns keyword none) []
  | returnsValue {w : List Token} {keyword semicolon : Token} {e : Expr} {ds : List Diagnostic} :
      keyword.kind = .returnWord → expression w e ds → semicolon.kind = .semicolon →
      Undeclared expression statement item false (keyword :: w ++ [semicolon])
        (.returns keyword (some e)) ds
  | block {w : List Token} {brace : Token} {body : List Stmt} {ds : List Diagnostic} :
      brace.kind = .leftBrace → Body item w body ds →
      Undeclared expression statement item false (brace :: w) (.block body) ds
  | ifThen {w v : List Token} {keyword opening paren : Token} {c : Expr} {yes : Stmt}
      {dangling : Bool} {ds ds' : List Diagnostic} :
      keyword.kind = .ifWord → opening.kind = .leftParen → expression w c ds →
      paren.kind = .rightParen → statement dangling v yes ds' →
      Undeclared expression statement item true (keyword :: opening :: w ++ paren :: v)
        (.branch c yes none) (ds ++ ds')
  | ifElse {w v u : List Token} {keyword opening paren otherwise : Token} {c : Expr}
      {yes no : Stmt} {dangling : Bool} {ds ds' ds'' : List Diagnostic} :
      keyword.kind = .ifWord → opening.kind = .leftParen → expression w c ds →
      paren.kind = .rightParen → statement false v yes ds' → otherwise.kind = .elseWord →
      statement dangling u no ds'' →
      Undeclared expression statement item dangling
        (keyword :: opening :: w ++ paren :: v ++ otherwise :: u) (.branch c yes (some no))
        (ds ++ (ds' ++ ds''))
  | loop {w v : List Token} {keyword opening paren : Token} {c : Expr} {body : Stmt}
      {dangling : Bool} {ds ds' : List Diagnostic} :
      keyword.kind = .whileWord → opening.kind = .leftParen → expression w c ds →
      paren.kind = .rightParen → statement dangling v body ds' →
      Undeclared expression statement item dangling (keyword :: opening :: w ++ paren :: v)
        (.loop c body) (ds ++ ds')
  | forLoop {w v u x : List Token} {keyword opening : Token} {initial increment body : Stmt}
      {c : Expr} {dangling : Bool} {ds ds' ds'' dx : List Diagnostic} :
      keyword.kind = .forWord → opening.kind = .leftParen → Initializer expression w initial ds →
      Condition expression v c ds' → Increment expression u increment ds'' →
      statement dangling x body dx →
      Undeclared expression statement item dangling (keyword :: opening :: w ++ v ++ u ++ x)
        (.block [initial, .loop c (.block [body, increment])]) (ds ++ (ds' ++ (ds'' ++ dx)))

inductive Declared (initializer : Reading Expr) (statement : Bool → Reading Stmt)
    (functionItem methodItem : Reading Stmt) : Reading Stmt
  | cls {w : List Token} {keyword name brace : Token} {methods : List FunDecl} {ds : List Diagnostic} :
      keyword.kind = .classWord → name.kind = .identifier → brace.kind = .leftBrace →
      Body (Function methodItem) w methods ds →
      Declared initializer statement functionItem methodItem (keyword :: name :: brace :: w)
        (.cls name methods) ds
  | function {w : List Token} {keyword : Token} {d : FunDecl} {ds : List Diagnostic} :
      keyword.kind = .funWord → Function functionItem w d ds →
      Declared initializer statement functionItem methodItem (keyword :: w) (.function d) ds
  | declares {w : List Token} {keyword : Token} {s : Stmt} {ds : List Diagnostic} :
      keyword.kind = .varWord → Variable initializer w s ds →
      Declared initializer statement functionItem methodItem (keyword :: w) s ds
  | statement {w : List Token} {s : Stmt} {dangling : Bool} {ds : List Diagnostic} :
      statement dangling w s ds → Declared initializer statement functionItem methodItem w s ds

mutual

def Statement : Nat → Bool → Reading Stmt
  | depth + 3 =>
    Undeclared (Expression depth) (Statement (depth + 1)) (Declaration (depth + 1))
  | _ => fun _ _ _ _ ↦ False

def Declaration : Nat → Reading Stmt
  | depth + 4 =>
    Declared (Expression (depth + 1)) (Statement (depth + 3)) (Declaration (depth + 1))
      (Declaration depth)
  | _ => fun _ _ _ ↦ False

end

end Statements

/-- The words of a program, its statements, and what is complained about in it. -/
def Derives (words : List Token) (statements : List Stmt) (faults : List Diagnostic) : Prop :=
  ∃ depth, Sequence (Declaration depth) words statements faults

def Unended (G : Reading α) : Prop := ∀ ⦃w a ds⦄, G w a ds → ∀ t ∈ w, t.kind ≠ .eof

section Unended

variable {item : Reading α}

theorem sequence_unended (h : Unended item) : Unended (Sequence item) := by
  intro w as ds hs
  induction hs with
  | nil => simp
  | cons ha _ ih => exact List.forall_mem_append.mpr ⟨h ha, ih⟩

theorem separated_unended {tooMany : Complaint} {n : Nat} (h : Unended item) :
    Unended (Separated tooMany item n) := by
  intro w as ds hs
  induction hs with
  | one ha => exact h ha
  | more ha hcomma _ ih => simpa [hcomma, or_imp, forall_and] using ⟨h ha, ih⟩

theorem parenthesised_unended {tooMany : Complaint} (h : Unended item) :
    Unended (Parenthesised tooMany item) := by
  intro w as ds hs
  cases hs with
  | none hclose => simp [hclose]
  | some has hclose => simpa [hclose, or_imp, forall_and] using separated_unended h has

theorem body_unended (h : Unended item) : Unended (Body item) := by
  intro w as ds hs
  cases hs with
  | close has hbrace => simpa [hbrace, or_imp, forall_and] using sequence_unended h has

theorem joined_unended {t : Tier} {operand : Reading Expr} (ht : Kind.eof ∉ t.kinds)
    (h : Unended operand) : Unended (Joined t operand) := by
  intro w e ds he
  induction he with
  | one he => exact h he
  | more _ hoperator hr ih =>
    have hne := ne_of_mem_of_not_mem hoperator ht
    simpa [hne, or_imp, forall_and] using ⟨ih, h hr⟩

theorem operation_unended {operand : Reading Expr} (h : Unended operand) : Unended (Operation operand) :=
  joined_unended (by decide) <| joined_unended (by decide) <| joined_unended (by decide) <|
    joined_unended (by decide) <| joined_unended (by decide) <| joined_unended (by decide) h

theorem assignment_unended {operation value : Reading Expr} (h : Unended operation) (hv : Unended value) :
    Unended (Assignment operation value) := by
  intro w e ds he
  cases he with
  | operation he => exact h he
  | assign he hequals hvalue | set he hequals hvalue | invalid he _ hequals hvalue =>
    simpa [hequals, or_imp, forall_and] using ⟨h he, hv hvalue⟩

theorem primary_unended {inner : Reading Expr} (h : Unended inner) : Unended (Primary inner) := by
  intro w e ds he
  cases he with
  | word hw =>
    cases hw with
    | value hk => rcases hk with hk | hk <;> simp [hk]
    | group _ he => exact he.elim
    | false hk | true hk | nil hk | self hk | name hk => simp [hk]
  | group hopening he hclose => simpa [hopening, hclose, or_imp, forall_and] using h he

theorem suffixed_unended {argument primary : Reading Expr} (ha : Unended argument) (h : Unended primary) :
    Unended (Suffixed argument primary) := by
  intro w e ds he
  induction he with
  | primary he => exact h he
  | call _ hopening harguments ih =>
    simpa [hopening, or_imp, forall_and] using ⟨ih, parenthesised_unended ha harguments⟩
  | property _ hdot hname ih => simpa [hdot, hname, or_imp, forall_and] using ih

mutual

theorem expression_unended : ∀ depth, Unended (Expression depth)
  | depth + 7 => by
    rw [Expression]
    exact assignment_unended (operation_unended (operand_unended depth)) (expression_unended (depth + 6))
  | 0 | 1 | 2 | 3 | 4 | 5 | 6 => fun _ _ _ h ↦ h.elim

theorem operand_unended : ∀ depth, Unended (Operand depth)
  | depth + 4 => by
    rw [Operand]
    intro w e ds h
    cases h with
    | sign hsign he =>
      have hrest := operand_unended (depth + 3) he
      rcases hsign with hk | hk <;> simpa [hk] using hrest
    | call h =>
      exact suffixed_unended (expression_unended depth) (primary_unended (expression_unended depth)) h
  | 0 | 1 | 2 | 3 => fun _ _ _ h ↦ h.elim

end

variable {expression : Reading Expr} {statement : Bool → Reading Stmt} {part : Reading Stmt}

theorem function_unended (h : Unended part) : Unended (Function part) := by
  have hname : Unended Name := by
    intro w t ds ht
    cases ht with
    | name hk => simp [hk]
  intro w d ds hd
  cases hd with
  | mk hn hopening hparams hbrace hbody =>
    simpa [hn, hopening, hbrace, or_imp, forall_and] using
      ⟨parenthesised_unended hname hparams, body_unended h hbody⟩

theorem variable_unended (h : Unended expression) : Unended (Variable expression) := by
  intro w s ds hs
  cases hs with
  | bare hname hsemicolon => simp [hname, hsemicolon]
  | initialized hname hequals he hsemicolon =>
    simpa [hname, hequals, hsemicolon, or_imp, forall_and] using h he

theorem initializer_unended (h : Unended expression) : Unended (Initializer expression) := by
  intro w s ds hs
  cases hs with
  | none hsemicolon => simp [hsemicolon]
  | declares hkeyword hs => simpa [hkeyword] using variable_unended h hs
  | expression he hsemicolon => simpa [hsemicolon, or_imp, forall_and] using h he

theorem condition_unended (h : Unended expression) : Unended (Condition expression) := by
  intro w e ds hs
  cases hs with
  | none hsemicolon => simp [hsemicolon]
  | some he hsemicolon => simpa [hsemicolon, or_imp, forall_and] using h he

theorem increment_unended (h : Unended expression) : Unended (Increment expression) := by
  intro w s ds hs
  cases hs with
  | none hparen => simp [hparen]
  | some he hparen => simpa [hparen, or_imp, forall_and] using h he

theorem undeclared_unended (h : Unended expression) (hs : ∀ dangling, Unended (statement dangling))
    (hi : Unended part) (dangling : Bool) : Unended (Undeclared expression statement part dangling) := by
  intro w s ds hw
  cases hw with
  | expression he hsemicolon => simpa [hsemicolon, or_imp, forall_and] using h he
  | print hkeyword he hsemicolon | returnsValue hkeyword he hsemicolon =>
    simpa [hkeyword, hsemicolon, or_imp, forall_and] using h he
  | returns hkeyword hsemicolon => simp [hkeyword, hsemicolon]
  | block hbrace hbody => simpa [hbrace] using body_unended hi hbody
  | ifThen hkeyword hopening hc hparen hyes | loop hkeyword hopening hc hparen hyes =>
    simpa [hkeyword, hopening, hparen, or_imp, forall_and] using ⟨h hc, hs _ hyes⟩
  | ifElse hkeyword hopening hc hparen hyes helse hno =>
    simpa [hkeyword, hopening, hparen, helse, or_imp, forall_and, and_assoc] using
      ⟨h hc, hs _ hyes, hs _ hno⟩
  | forLoop hkeyword hopening hinitial hcondition hincrement hbody =>
    simpa [hkeyword, hopening, or_imp, forall_and, and_assoc] using ⟨initializer_unended h hinitial,
      condition_unended h hcondition, increment_unended h hincrement, hs _ hbody⟩

mutual

theorem statement_unended : ∀ depth dangling, Unended (Statement depth dangling)
  | depth + 3, dangling => by
    rw [Statement]
    exact undeclared_unended (expression_unended depth) (statement_unended (depth + 1))
      (declaration_unended (depth + 1)) dangling
  | 0, _ | 1, _ | 2, _ => fun _ _ _ h ↦ h.elim

theorem declaration_unended : ∀ depth, Unended (Declaration depth)
  | depth + 4 => by
    rw [Declaration]
    intro w s ds h
    cases h with
    | cls hkeyword hname hbrace hmethods =>
      have hbody := body_unended (function_unended (declaration_unended depth)) hmethods
      simpa [hkeyword, hname, hbrace] using hbody
    | function hkeyword hd =>
      simpa [hkeyword] using function_unended (declaration_unended (depth + 1)) hd
    | declares hkeyword hs =>
      simpa [hkeyword] using variable_unended (expression_unended (depth + 1)) hs
    | statement hs => exact statement_unended (depth + 3) _ hs
  | 0 | 1 | 2 | 3 => fun _ _ _ h ↦ h.elim

end

end Unended

/-- What a phrase derives, a relaxed one derives without a complaint. -/
def Includes (G : Reading α) (G' : Phrase α) : Prop := ∀ ⦃w a⦄, G' w a → G w a []

section Includes

theorem sequence_includes {item : Reading α} {item' : Phrase α} (h : Includes item item') :
    Includes (Sequence item) (Grammar.Sequence item') := by
  intro w as hs
  induction hs with
  | nil => exact .nil
  | cons ha _ ih => exact .cons (h ha) ih

theorem body_includes {item : Reading α} {item' : Phrase α} (h : Includes item item') :
    Includes (Body item) (Grammar.Body item') := by
  intro w as hs
  cases hs with
  | close has hbrace => exact .close (sequence_includes h has) hbrace

theorem surplus_of_lt {tooMany : Complaint} {n : Nat} {w : List Token} (h : n < maxArguments) :
    surplus tooMany n w = [] :=
  if_neg (Nat.not_le_of_lt h)

theorem separated_includes {item : Reading α} {item' : Phrase α} (tooMany : Complaint)
    (h : Includes item item') {w : List Token} {as : List α} (hs : Grammar.Separated item' w as) :
    ∀ {n : Nat}, n + as.length ≤ maxArguments → Separated tooMany item n w as [] := by
  induction hs with
  | one ha =>
    intro n hn
    have hone : Separated tooMany item n _ [_] _ := .one (h ha)
    have hlt : n < maxArguments := hn
    rwa [surplus_of_lt hlt] at hone
  | @more w v comma a as ha hcomma _ ih =>
    intro n hn
    rw [List.length_cons] at hn
    have hmore := Separated.more (n := n) (h ha) hcomma (ih (n := n + 1) (by omega))
    rwa [surplus_of_lt (by omega)] at hmore

theorem parenthesised_includes {item : Reading α} {item' : Phrase α} (tooMany : Complaint)
    (h : Includes item item') : Includes (Parenthesised tooMany item) (Grammar.Parenthesised item') := by
  intro w as hs
  cases hs with
  | none hclose => exact .none hclose
  | some has hlen hclose =>
    exact .some (separated_includes tooMany h has (by rwa [Nat.zero_add])) hclose

section Expressions

variable {operand value : Reading Expr} {operand' value' : Phrase Expr}

theorem joined_includes {t : Tier} (h : Includes operand operand') :
    Includes (Joined t operand) (Grammar.Joined t operand') := by
  intro w e he
  induction he with
  | one he => exact .one (h he)
  | more _ hoperator hr ih => exact .more ih hoperator (h hr)

theorem operation_includes (h : Includes operand operand') :
    Includes (Operation operand) (Grammar.Operation operand') :=
  joined_includes <| joined_includes <| joined_includes <| joined_includes <| joined_includes <|
    joined_includes h

theorem assignment_includes (h : Includes operand operand') (hv : Includes value value') :
    Includes (Assignment operand value) (Grammar.Assignment operand' value') := by
  intro w e he
  cases he with
  | operation he => exact .operation (h he)
  | assign he hequals hvalue => exact .assign (h he) hequals (hv hvalue)
  | set he hequals hvalue => exact .set (h he) hequals (hv hvalue)

theorem primary_includes (h : Includes operand operand') :
    Includes (Primary operand) (Grammar.Primary operand') := by
  intro w e he
  cases he with
  | false hk => exact .word (.false hk)
  | true hk => exact .word (.true hk)
  | nil hk => exact .word (.nil hk)
  | value hk => exact .word (.value hk)
  | self hk => exact .word (.self hk)
  | name hk => exact .word (.name hk)
  | group hopening he hclose => exact .group hopening (h he) hclose

theorem suffixed_includes (ha : Includes value value') (h : Includes operand operand') :
    Includes (Suffixed value operand) (Grammar.Suffixed value' operand') := by
  intro w e he
  induction he with
  | primary he => exact .primary (h he)
  | call _ hopening harguments ih => exact .call ih hopening (parenthesised_includes _ ha harguments)
  | property _ hdot hname ih => exact .property ih hdot hname

mutual

theorem expression_includes : ∀ depth, Includes (Expression depth) (Grammar.Expression depth)
  | depth + 7 => by
    rw [Expression, Grammar.Expression]
    exact assignment_includes (operation_includes (operand_includes depth)) (expression_includes (depth + 6))
  | 0 | 1 | 2 | 3 | 4 | 5 | 6 => fun _ _ h ↦ h.elim

theorem operand_includes : ∀ depth, Includes (Operand depth) (Grammar.Operand depth)
  | depth + 4 => by
    rw [Operand, Grammar.Operand]
    intro w e h
    cases h with
    | sign hsign he => exact .sign hsign (operand_includes (depth + 3) he)
    | call h =>
      have hinner := expression_includes depth
      exact .call (suffixed_includes hinner (primary_includes hinner) h)
  | 0 | 1 | 2 | 3 => fun _ _ h ↦ h.elim

end

end Expressions

section Statements

variable {expression : Reading Expr} {expression' : Phrase Expr} {statement : Bool → Reading Stmt}
  {statement' : Bool → Phrase Stmt} {part : Reading Stmt} {part' : Phrase Stmt}

theorem function_includes (h : Includes part part') :
    Includes (Function part) (Grammar.Function part') := by
  have hname : Includes Name Grammar.Name := by
    intro w t ht
    cases ht with
    | name hk => exact .name hk
  intro w d hd
  cases hd with
  | mk hn hopening hparams hbrace hbody =>
    exact .mk hn hopening (parenthesised_includes _ hname hparams) hbrace (body_includes h hbody)

theorem variable_includes (h : Includes expression expression') :
    Includes (Variable expression) (Grammar.Variable expression') := by
  intro w s hs
  cases hs with
  | bare hname hsemicolon => exact .bare hname hsemicolon
  | initialized hname hequals he hsemicolon => exact .initialized hname hequals (h he) hsemicolon

theorem initializer_includes (h : Includes expression expression') :
    Includes (Initializer expression) (Grammar.Initializer expression') := by
  intro w s hs
  cases hs with
  | none hsemicolon => exact .none hsemicolon
  | declares hkeyword hs => exact .declares hkeyword (variable_includes h hs)
  | expression he hsemicolon => exact .expression (h he) hsemicolon

theorem condition_includes (h : Includes expression expression') :
    Includes (Condition expression) (Grammar.Condition expression') := by
  intro w e hs
  cases hs with
  | none hsemicolon => exact .none hsemicolon
  | some he hsemicolon => exact .some (h he) hsemicolon

theorem increment_includes (h : Includes expression expression') :
    Includes (Increment expression) (Grammar.Increment expression') := by
  intro w s hs
  cases hs with
  | none hparen => exact .none hparen
  | some he hparen => exact .some (h he) hparen

theorem undeclared_includes (h : Includes expression expression')
    (hs : ∀ dangling, Includes (statement dangling) (statement' dangling)) (hi : Includes part part')
    (dangling : Bool) : Includes (Undeclared expression statement part dangling)
      (Grammar.Undeclared expression' statement' part' dangling) := by
  intro w s hw
  cases hw with
  | expression he hsemicolon => exact .expression (h he) hsemicolon
  | print hkeyword he hsemicolon => exact .print hkeyword (h he) hsemicolon
  | returns hkeyword hsemicolon => exact .returns hkeyword hsemicolon
  | returnsValue hkeyword he hsemicolon => exact .returnsValue hkeyword (h he) hsemicolon
  | block hbrace hbody => exact .block hbrace (body_includes hi hbody)
  | ifThen hkeyword hopening hc hparen hyes =>
    exact .ifThen hkeyword hopening (h hc) hparen (hs _ hyes)
  | ifElse hkeyword hopening hc hparen hyes helse hno =>
    exact .ifElse hkeyword hopening (h hc) hparen (hs _ hyes) helse (hs _ hno)
  | loop hkeyword hopening hc hparen hbody => exact .loop hkeyword hopening (h hc) hparen (hs _ hbody)
  | forLoop hkeyword hopening hinitial hcondition hincrement hbody =>
    exact .forLoop hkeyword hopening (initializer_includes h hinitial) (condition_includes h hcondition)
      (increment_includes h hincrement) (hs _ hbody)

mutual

theorem statement_includes : ∀ depth dangling,
    Includes (Statement depth dangling) (Grammar.Statement depth dangling)
  | depth + 3, dangling => by
    rw [Statement, Grammar.Statement]
    exact undeclared_includes (expression_includes depth) (statement_includes (depth + 1))
      (declaration_includes (depth + 1)) dangling
  | 0, _ | 1, _ | 2, _ => fun _ _ h ↦ h.elim

theorem declaration_includes : ∀ depth, Includes (Declaration depth) (Grammar.Declaration depth)
  | depth + 4 => by
    rw [Declaration, Grammar.Declaration]
    intro w s h
    cases h with
    | cls hkeyword hname hbrace hmethods =>
      have hmethod := function_includes (declaration_includes depth)
      exact .cls hkeyword hname hbrace (body_includes hmethod hmethods)
    | function hkeyword hd =>
      exact .function hkeyword (function_includes (declaration_includes (depth + 1)) hd)
    | declares hkeyword hs =>
      exact .declares hkeyword (variable_includes (expression_includes (depth + 1)) hs)
    | statement hs => exact .statement (statement_includes (depth + 3) _ hs)
  | 0 | 1 | 2 | 3 => fun _ _ h ↦ h.elim

end

end Statements

end Includes

end Relaxed

end Grammar

end TreeWalk
