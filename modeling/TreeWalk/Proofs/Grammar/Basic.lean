import TreeWalk.Tree.Parser

namespace TreeWalk.Grammar

/-- A kind of phrase: which words are read as what. -/
abbrev Phrase (α : Type) := List Token → α → Prop

variable {α : Type}

inductive Sequence (item : Phrase α) : Phrase (List α)
  | nil : Sequence item [] []
  | cons {w v : List Token} {a : α} {as : List α} :
      item w a → Sequence item v as → Sequence item (w ++ v) (a :: as)

/-- `item ("," item)*` -/
inductive Separated (item : Phrase α) : Phrase (List α)
  | one {w : List Token} {a : α} : item w a → Separated item w [a]
  | more {w v : List Token} {comma : Token} {a : α} {as : List α} :
      item w a → comma.kind = .comma → Separated item v as →
      Separated item (w ++ comma :: v) (a :: as)

/-- `(item ("," item)*)? ")"`, of at most as many items as there may be arguments. The closing
parenthesis is kept. -/
inductive Parenthesised (item : Phrase α) : Phrase (List α × Token)
  | none {close : Token} : close.kind = .rightParen → Parenthesised item [close] ([], close)
  | some {w : List Token} {as : List α} {close : Token} :
      Separated item w as → as.length ≤ maxArguments → close.kind = .rightParen →
      Parenthesised item (w ++ [close]) (as, close)

inductive Name : Phrase Token
  | name {t : Token} : t.kind = .identifier → Name [t] t

section Expressions

/-- The binary operators of one precedence. -/
structure Tier where
  kinds : List Kind
  join : Expr → Token → Expr → Expr

/-- `operand (operator operand)*`, grouped to the left. -/
inductive Joined (t : Tier) (operand : Phrase Expr) : Phrase Expr
  | one {w : List Token} {e : Expr} : operand w e → Joined t operand w e
  | more {w v : List Token} {operator : Token} {l r : Expr} :
      Joined t operand w l → operator.kind ∈ t.kinds → operand v r →
      Joined t operand (w ++ operator :: v) (t.join l operator r)

def disjunction : Tier := ⟨[.orWord], .logical⟩

def conjunction : Tier := ⟨[.andWord], .logical⟩

def equality : Tier := ⟨[.bangEqual, .equalEqual], .binary⟩

def comparison : Tier := ⟨[.greater, .greaterEqual, .less, .lessEqual], .binary⟩

def term : Tier := ⟨[.minus, .plus], .binary⟩

def factor : Tier := ⟨[.slash, .star], .binary⟩

def Operation (operand : Phrase Expr) : Phrase Expr :=
  Joined disjunction <| Joined conjunction <| Joined equality <| Joined comparison <|
    Joined term <| Joined factor operand

/-- `operation | variable "=" value | property "=" value` -/
inductive Assignment (operation value : Phrase Expr) : Phrase Expr
  | operation {w : List Token} {e : Expr} : operation w e → Assignment operation value w e
  | assign {w v : List Token} {equals name : Token} {ref : Ref} {e : Expr} :
      operation w (.var name ref) → equals.kind = .equal → value v e →
      Assignment operation value (w ++ equals :: v) (.assign name e {})
  | set {w v : List Token} {equals name : Token} {object e : Expr} :
      operation w (.get object name) → equals.kind = .equal → value v e →
      Assignment operation value (w ++ equals :: v) (.set object name e)

/-- `("!" | "-") signed | call` -/
inductive Signed (signed call : Phrase Expr) : Phrase Expr
  | sign {w : List Token} {operator : Token} {e : Expr} :
      operator.kind = .bang ∨ operator.kind = .minus → signed w e →
      Signed signed call (operator :: w) (.unary operator e)
  | call {w : List Token} {e : Expr} : call w e → Signed signed call w e

/-- `primary ("(" arguments ")" | "." IDENTIFIER)*` -/
inductive Suffixed (argument primary : Phrase Expr) : Phrase Expr
  | primary {w : List Token} {e : Expr} : primary w e → Suffixed argument primary w e
  | call {w v : List Token} {opening paren : Token} {callee : Expr} {arguments : List Expr} :
      Suffixed argument primary w callee → opening.kind = .leftParen →
      Parenthesised argument v (arguments, paren) →
      Suffixed argument primary (w ++ opening :: v) (.call callee paren arguments)
  | property {w : List Token} {dot name : Token} {object : Expr} :
      Suffixed argument primary w object → dot.kind = .dot → name.kind = .identifier →
      Suffixed argument primary (w ++ [dot, name]) (.get object name)

/-- A literal, a name, `this`, or `"(" inner ")"`. -/
inductive Primary (inner : Phrase Expr) : Phrase Expr
  | false {t : Token} : t.kind = .falseWord → Primary inner [t] (.literal (.bool false))
  | true {t : Token} : t.kind = .trueWord → Primary inner [t] (.literal (.bool true))
  | nil {t : Token} : t.kind = .nilWord → Primary inner [t] (.literal .nil)
  | value {t : Token} :
      t.kind = .number ∨ t.kind = .string → Primary inner [t] (.literal t.literal)
  | self {t : Token} : t.kind = .thisWord → Primary inner [t] (.self t {})
  | name {t : Token} : t.kind = .identifier → Primary inner [t] (.var t {})
  | group {w : List Token} {opening close : Token} {e : Expr} :
      opening.kind = .leftParen → inner w e → close.kind = .rightParen →
      Primary inner (opening :: w ++ [close]) (.group e)

mutual

def Expression : Nat → Phrase Expr
  | depth + 7 => Assignment (Operation (Operand depth)) (Expression (depth + 6))
  | _ => fun _ _ ↦ False

def Operand : Nat → Phrase Expr
  | depth + 4 =>
    Signed (Operand (depth + 3)) (Suffixed (Expression depth) (Primary (Expression depth)))
  | _ => fun _ _ ↦ False

end

end Expressions

section Statements

/-- `item* "}"` -/
inductive Body (item : Phrase α) : Phrase (List α)
  | close {w : List Token} {as : List α} {brace : Token} :
      Sequence item w as → brace.kind = .rightBrace → Body item (w ++ [brace]) as

/-- `IDENTIFIER "(" parameters ")" "{" item* "}"` -/
inductive Function (item : Phrase Stmt) : Phrase FunDecl
  | mk {w v : List Token} {name opening paren brace : Token} {params : List Token}
      {body : List Stmt} :
      name.kind = .identifier → opening.kind = .leftParen → Parenthesised Name w (params, paren) →
      brace.kind = .leftBrace → Body item v body →
      Function item (name :: opening :: w ++ brace :: v) (.mk name params body)

/-- `IDENTIFIER ("=" expression)? ";"` -/
inductive Variable (expression : Phrase Expr) : Phrase Stmt
  | bare {name semicolon : Token} : name.kind = .identifier → semicolon.kind = .semicolon →
      Variable expression [name, semicolon] (.var name none)
  | initialized {w : List Token} {name equals semicolon : Token} {e : Expr} :
      name.kind = .identifier → equals.kind = .equal → expression w e →
      semicolon.kind = .semicolon →
      Variable expression (name :: equals :: w ++ [semicolon]) (.var name (some e))

/-- The first part of the header of a `for`, with its semicolon. -/
inductive Initializer (expression : Phrase Expr) : Phrase Stmt
  | none {semicolon : Token} : semicolon.kind = .semicolon →
      Initializer expression [semicolon] .empty
  | declares {w : List Token} {keyword : Token} {s : Stmt} :
      keyword.kind = .varWord → Variable expression w s → Initializer expression (keyword :: w) s
  | expression {w : List Token} {semicolon : Token} {e : Expr} :
      expression w e → semicolon.kind = .semicolon →
      Initializer expression (w ++ [semicolon]) (.expression e)

inductive Condition (expression : Phrase Expr) : Phrase Expr
  | none {semicolon : Token} : semicolon.kind = .semicolon →
      Condition expression [semicolon] (.literal (.bool true))
  | some {w : List Token} {semicolon : Token} {e : Expr} :
      expression w e → semicolon.kind = .semicolon → Condition expression (w ++ [semicolon]) e

inductive Increment (expression : Phrase Expr) : Phrase Stmt
  | none {paren : Token} : paren.kind = .rightParen → Increment expression [paren] .empty
  | some {w : List Token} {paren : Token} {e : Expr} :
      expression w e → paren.kind = .rightParen → Increment expression (w ++ [paren]) (.expression e)

/-- A statement that is no declaration. It dangles if it ends in an `if` without `else`: an `else` behind
it would belong to that `if`. -/
inductive Undeclared (expression : Phrase Expr) (statement : Bool → Phrase Stmt)
    (item : Phrase Stmt) : Bool → Phrase Stmt
  | expression {w : List Token} {semicolon : Token} {e : Expr} :
      expression w e → semicolon.kind = .semicolon →
      Undeclared expression statement item false (w ++ [semicolon]) (.expression e)
  | print {w : List Token} {keyword semicolon : Token} {e : Expr} :
      keyword.kind = .printWord → expression w e → semicolon.kind = .semicolon →
      Undeclared expression statement item false (keyword :: w ++ [semicolon]) (.print e)
  | returns {keyword semicolon : Token} :
      keyword.kind = .returnWord → semicolon.kind = .semicolon →
      Undeclared expression statement item false [keyword, semicolon] (.returns keyword none)
  | returnsValue {w : List Token} {keyword semicolon : Token} {e : Expr} :
      keyword.kind = .returnWord → expression w e → semicolon.kind = .semicolon →
      Undeclared expression statement item false (keyword :: w ++ [semicolon])
        (.returns keyword (some e))
  | block {w : List Token} {brace : Token} {body : List Stmt} :
      brace.kind = .leftBrace → Body item w body →
      Undeclared expression statement item false (brace :: w) (.block body)
  | ifThen {w v : List Token} {keyword opening paren : Token} {c : Expr} {yes : Stmt}
      {dangling : Bool} :
      keyword.kind = .ifWord → opening.kind = .leftParen → expression w c →
      paren.kind = .rightParen → statement dangling v yes →
      Undeclared expression statement item true (keyword :: opening :: w ++ paren :: v)
        (.branch c yes none)
  | ifElse {w v u : List Token} {keyword opening paren otherwise : Token} {c : Expr}
      {yes no : Stmt} {dangling : Bool} :
      keyword.kind = .ifWord → opening.kind = .leftParen → expression w c →
      paren.kind = .rightParen → statement false v yes → otherwise.kind = .elseWord →
      statement dangling u no →
      Undeclared expression statement item dangling
        (keyword :: opening :: w ++ paren :: v ++ otherwise :: u) (.branch c yes (some no))
  | loop {w v : List Token} {keyword opening paren : Token} {c : Expr} {body : Stmt}
      {dangling : Bool} :
      keyword.kind = .whileWord → opening.kind = .leftParen → expression w c →
      paren.kind = .rightParen → statement dangling v body →
      Undeclared expression statement item dangling (keyword :: opening :: w ++ paren :: v)
        (.loop c body)
  | forLoop {w v u x : List Token} {keyword opening : Token} {initial increment body : Stmt}
      {c : Expr} {dangling : Bool} :
      keyword.kind = .forWord → opening.kind = .leftParen → Initializer expression w initial →
      Condition expression v c → Increment expression u increment → statement dangling x body →
      Undeclared expression statement item dangling (keyword :: opening :: w ++ v ++ u ++ x)
        (.block [initial, .loop c (.block [body, increment])])

inductive Declared (initializer : Phrase Expr) (statement : Bool → Phrase Stmt)
    (functionItem methodItem : Phrase Stmt) : Phrase Stmt
  | cls {w : List Token} {keyword name brace : Token} {methods : List FunDecl} :
      keyword.kind = .classWord → name.kind = .identifier → brace.kind = .leftBrace →
      Body (Function methodItem) w methods →
      Declared initializer statement functionItem methodItem (keyword :: name :: brace :: w)
        (.cls name methods)
  | function {w : List Token} {keyword : Token} {d : FunDecl} :
      keyword.kind = .funWord → Function functionItem w d →
      Declared initializer statement functionItem methodItem (keyword :: w) (.function d)
  | declares {w : List Token} {keyword : Token} {s : Stmt} :
      keyword.kind = .varWord → Variable initializer w s →
      Declared initializer statement functionItem methodItem (keyword :: w) s
  | statement {w : List Token} {s : Stmt} {dangling : Bool} :
      statement dangling w s → Declared initializer statement functionItem methodItem w s

mutual

def Statement : Nat → Bool → Phrase Stmt
  | depth + 3 =>
    Undeclared (Expression depth) (Statement (depth + 1)) (Declaration (depth + 1))
  | _ => fun _ _ _ ↦ False

def Declaration : Nat → Phrase Stmt
  | depth + 4 =>
    Declared (Expression (depth + 1)) (Statement (depth + 3)) (Declaration (depth + 1))
      (Declaration depth)
  | _ => fun _ _ ↦ False

end

end Statements

/-- The words of a program, and its statements. -/
def Derives (words : List Token) (statements : List Stmt) : Prop :=
  ∃ depth, Sequence (Declaration depth) words statements

end TreeWalk.Grammar
