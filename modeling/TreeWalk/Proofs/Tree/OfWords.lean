import TreeWalk.Tree.Parser

namespace TreeWalk

namespace Parse

def isBinary (kind : Kind) : Bool := isEquality kind || isComparison kind || isTerm kind || isFactor kind

/-- The operators that may leave their second operand alone. -/
def isLogical (kind : Kind) : Bool := isOr kind || isAnd kind

def isValue (kind : Kind) : Bool := kind == .number || kind == .string

end Parse

structure Token.Is (T : Token → Prop) (wanted : Kind → Bool) (t : Token) : Prop where
  word : T t
  kind : wanted t.kind = true

section OfWords

variable (T : Token → Prop)

abbrev Token.IsName (t : Token) : Prop := t.Is T (· == .identifier)

inductive Scalar.OfWords : Scalar → Prop
  | nil : OfWords .nil
  | bool {b : Bool} : OfWords (.bool b)
  | value {t : Token} : t.Is T Parse.isValue → OfWords t.literal

inductive Expr.OfWords : Expr → Prop
  | literal {value : Scalar} : value.OfWords T → OfWords (.literal value)
  | group {e : Expr} : OfWords e → OfWords (.group e)
  | unary {operator : Token} {e : Expr} :
      operator.Is T Parse.isSign → OfWords e → OfWords (.unary operator e)
  | binary {operator : Token} {l r : Expr} :
      OfWords l → operator.Is T Parse.isBinary → OfWords r → OfWords (.binary l operator r)
  | logical {operator : Token} {l r : Expr} :
      OfWords l → operator.Is T Parse.isLogical → OfWords r → OfWords (.logical l operator r)
  | var {name : Token} : name.IsName T → OfWords (.var name {})
  | assign {name : Token} {e : Expr} : name.IsName T → OfWords e → OfWords (.assign name e {})
  | call {paren : Token} {e : Expr} {es : List Expr} :
      OfWords e → paren.Is T (· == .rightParen) → (∀ e ∈ es, OfWords e) → OfWords (.call e paren es)
  | get {name : Token} {e : Expr} : OfWords e → name.IsName T → OfWords (.get e name)
  | set {name : Token} {e i : Expr} :
      OfWords e → name.IsName T → OfWords i → OfWords (.set e name i)
  | self {keyword : Token} : keyword.Is T (· == .thisWord) → OfWords (.self keyword {})

inductive Stmt.OfWords : Stmt → Prop
  | empty : OfWords .empty
  | expression {e : Expr} : e.OfWords T → OfWords (.expression e)
  | print {e : Expr} : e.OfWords T → OfWords (.print e)
  | var {name : Token} {i : Option Expr} :
      name.IsName T → (∀ e ∈ i, e.OfWords T) → OfWords (.var name i)
  | block {ss : List Stmt} : (∀ s ∈ ss, OfWords s) → OfWords (.block ss)
  | branch {c : Expr} {yes : Stmt} {no : Option Stmt} :
      c.OfWords T → OfWords yes → (∀ s ∈ no, OfWords s) → OfWords (.branch c yes no)
  | loop {c : Expr} {body : Stmt} : c.OfWords T → OfWords body → OfWords (.loop c body)
  | function {d : FunDecl} :
      d.name.IsName T → (∀ t ∈ d.params, t.IsName T) → (∀ s ∈ d.body, OfWords s) → OfWords (.function d)
  | returns {keyword : Token} {value : Option Expr} :
      keyword.Is T (· == .returnWord) → (∀ e ∈ value, e.OfWords T) → OfWords (.returns keyword value)
  | cls {name : Token} {ds : List FunDecl} :
      name.IsName T → (∀ d ∈ ds, d.name.IsName T) → (∀ d ∈ ds, ∀ t ∈ d.params, t.IsName T) →
      (∀ d ∈ ds, ∀ s ∈ d.body, OfWords s) → OfWords (.cls name ds)

structure FunDecl.OfWords (d : FunDecl) : Prop where
  name : d.name.IsName T
  params : ∀ t ∈ d.params, t.IsName T
  body : ∀ s ∈ d.body, s.OfWords T

end OfWords

end TreeWalk
