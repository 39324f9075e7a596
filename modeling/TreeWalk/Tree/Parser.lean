import TreeWalk.Diagnostic
import TreeWalk.Tree.Basic

namespace TreeWalk

namespace Parse

inductive Stop where
  | mistake
  | tooDeep
deriving DecidableEq, Repr

/-- What is left to read, the end marker behind it, and the complaints so far. -/
structure Cursor where
  rest : List Token
  last : Token
  faults : Array Diagnostic

end Parse

open Parse in
abbrev Parse := EStateM Stop Cursor

namespace Parse

variable {α : Type}

def Cursor.peek (c : Cursor) : Token := c.rest.headD c.last

def peek : Parse Token := return (← get).peek

def complain (t : Token) (c : Complaint) : Parse Unit :=
  modify fun cursor ↦ { cursor with faults := cursor.faults.push (.atToken t c) }

def fail (what : Missing) : Parse α := do
  complain (← peek) (.expected what)
  throw .mistake

def accept? (wanted : Kind → Bool) : Parse (Option Token) := fun cursor ↦
  match cursor.rest with
  | t :: rest => if wanted t.kind then .ok (some t) { cursor with rest } else .ok none cursor
  | [] => .ok none cursor

def accept (kind : Kind) : Parse Bool := return (← accept? (· == kind)).isSome

/-- Whether the next token is of a kind. Nothing is after the last one. -/
def check (kind : Kind) : Parse Bool := return (← get).rest.head?.any (·.kind == kind)

def atEnd : Parse Bool := return (← get).rest.isEmpty

def expect (kind : Kind) (what : Missing) : Parse Token := do
  match ← accept? (· == kind) with
  | some t => return t
  | none => fail what

def startsStatement : Kind → Bool
  | .classWord | .funWord | .varWord | .forWord | .ifWord | .whileWord | .printWord
  | .returnWord => true
  | _ => false

/-- Drops tokens up to a statement boundary: the place after a semicolon, or before a word that starts
a statement. -/
def resume (previous : Token) : List Token → List Token
  | [] => []
  | t :: rest =>
    if previous.kind == .semicolon || startsStatement t.kind then t :: rest else resume t rest

def afterMistake : List Token → List Token
  | [] => []
  | t :: rest => resume t rest

/-- Reads something, or nothing and the tokens up to a statement boundary when there is a mistake in it. -/
def recovering (item : Parse α) : Parse (Option α) := fun cursor ↦
  match item cursor with
  | .ok a cursor => .ok (some a) cursor
  | .error .mistake cursor => .ok none { cursor with rest := afterMistake cursor.rest }
  | .error .tooDeep cursor => .error .tooDeep cursor

def itemsUntil (close : Kind) (item : Parse α) (bound : Nat) (done : Array α) : Parse (Array α) := do
  match bound with
  | 0 => return done
  | bound + 1 =>
    if (← atEnd) || (← check close) then return done
    else itemsUntil close item bound (done.push (← item))

/-- Reads one or more items with commas between them. Each one past the limit is complained about at
its first token, and kept. -/
def commaItems (tooMany : Complaint) (item : Parse α) (bound : Nat) (done : Array α) :
    Parse (Array α) := do
  match bound with
  | 0 => return done
  | bound + 1 =>
    if maxArguments ≤ done.size then complain (← peek) tooMany
    let done := done.push (← item)
    if ← accept .comma then commaItems tooMany item bound done else return done

def parenthesised (tooMany : Complaint) (close : Missing) (item : Parse α) (bound : Nat) :
    Parse (List α × Token) := do
  let items ← if ← check .rightParen then pure #[] else commaItems tooMany item bound #[]
  return (items.toList, ← expect .rightParen close)

section Expressions

def joined (operators : Kind → Bool) (join : Expr → Token → Expr → Expr) (operand : Parse Expr)
    (bound : Nat) (left : Expr) : Parse Expr := do
  match bound with
  | 0 => return left
  | bound + 1 =>
    match ← accept? operators with
    | none => return left
    | some operator => joined operators join operand bound (join left operator (← operand))

variable (bound : Nat)

def leftAssociative (operators : Kind → Bool) (join : Expr → Token → Expr → Expr)
    (operand : Parse Expr) : Parse Expr := do
  joined operators join operand bound (← operand)

def isOr : Kind → Bool
  | .orWord => true
  | _ => false

def isAnd : Kind → Bool
  | .andWord => true
  | _ => false

def isEquality : Kind → Bool
  | .bangEqual | .equalEqual => true
  | _ => false

def isComparison : Kind → Bool
  | .greater | .greaterEqual | .less | .lessEqual => true
  | _ => false

def isTerm : Kind → Bool
  | .minus | .plus => true
  | _ => false

def isFactor : Kind → Bool
  | .slash | .star => true
  | _ => false

def isSign : Kind → Bool
  | .bang | .minus => true
  | _ => false

def operation (operand : Parse Expr) : Parse Expr :=
  leftAssociative bound isOr .logical <|
  leftAssociative bound isAnd .logical <|
  leftAssociative bound isEquality .binary <|
  leftAssociative bound isComparison .binary <|
  leftAssociative bound isTerm .binary <|
  leftAssociative bound isFactor .binary operand

/-- An operation, or an assignment to one. Whether it can be assigned to is decided after its value
has been read; if not, it stands for the whole. -/
def assignment (operand value : Parse Expr) : Parse Expr := do
  let target ← operation bound operand
  match ← accept? (· == .equal) with
  | none => return target
  | some equals =>
    let v ← value
    match target with
    | .var name _ => return .assign name v {}
    | .get object name => return .set object name v
    | _ => do
      complain equals .assignmentTarget
      return target

def isPrimary : Kind → Bool
  | .falseWord | .trueWord | .nilWord | .number | .string | .thisWord | .identifier
  | .leftParen => true
  | _ => false

def primary (inner : Parse Expr) : Parse Expr := do
  match ← accept? isPrimary with
  | none => fail .expression
  | some t =>
    match t.kind with
    | .falseWord => return .literal (.bool false)
    | .trueWord => return .literal (.bool true)
    | .nilWord => return .literal .nil
    | .thisWord => return .self t {}
    | .identifier => return .var t {}
    | .leftParen =>
      let e ← inner
      discard <| expect .rightParen .groupEnd
      return .group e
    | _ => return .literal t.literal

def isSuffix : Kind → Bool
  | .leftParen | .dot => true
  | _ => false

def suffixes (argument : Parse Expr) (steps : Nat) (e : Expr) : Parse Expr := do
  match steps with
  | 0 => return e
  | steps + 1 =>
    match ← accept? isSuffix with
    | none => return e
    | some t =>
      if t.kind == .dot then
        let name ← expect .identifier .propertyName
        suffixes argument steps (.get e name)
      else
        let (arguments, paren) ← parenthesised .tooManyArguments .argumentsEnd argument bound
        suffixes argument steps (.call e paren arguments)

mutual

/-- An expression, in the given room. The levels of operators stand between it and its operands, and
none between an assignment and its value. -/
def expression : Nat → Parse Expr
  | room + 7 => assignment bound (operand room) (expression (room + 6))
  | _ => throw .tooDeep

def operand : Nat → Parse Expr
  | room + 4 => do
    match ← accept? isSign with
    | some operator => return .unary operator (← operand (room + 3))
    | none => suffixes bound (expression room) bound (← primary (expression room))
  | _ => throw .tooDeep

end

end Expressions

section Statements

variable (bound : Nat)

def block (item : Parse (Option Stmt)) : Parse (List Stmt) := do
  let body ← itemsUntil .rightBrace item bound #[]
  discard <| expect .rightBrace .blockEnd
  return body.toList.filterMap id

def function (what : Callable) (item : Parse (Option Stmt)) : Parse FunDecl := do
  let name ← expect .identifier (.callableName what)
  discard <| expect .leftParen (.parameterList what)
  let (params, _) ← parenthesised .tooManyParameters .parameterEnd
    (expect .identifier .parameterName) bound
  discard <| expect .leftBrace (.callableBody what)
  return .mk name params (← block bound item)

def classDeclaration (item : Parse (Option Stmt)) : Parse Stmt := do
  let name ← expect .identifier .className
  discard <| expect .leftBrace .classBody
  let methods ← itemsUntil .rightBrace (function bound .method item) bound #[]
  discard <| expect .rightBrace .classEnd
  return .cls name methods.toList

def varDeclaration (expression : Parse Expr) : Parse Stmt := do
  let name ← expect .identifier .variableName
  let initializer ← if ← accept .equal then some <$> expression else pure none
  discard <| expect .semicolon .variableEnd
  return .var name initializer

def expressionStatement (expression : Parse Expr) : Parse Stmt := do
  let e ← expression
  discard <| expect .semicolon .expressionEnd
  return .expression e

def printStatement (expression : Parse Expr) : Parse Stmt := do
  let e ← expression
  discard <| expect .semicolon .printEnd
  return .print e

def returnStatement (keyword : Token) (expression : Parse Expr) : Parse Stmt := do
  let value ← if ← check .semicolon then pure none else some <$> expression
  discard <| expect .semicolon .returnEnd
  return .returns keyword value

def ifStatement (expression : Parse Expr) (statement : Parse Stmt) : Parse Stmt := do
  discard <| expect .leftParen .ifCondition
  let condition ← expression
  discard <| expect .rightParen .ifConditionEnd
  let yes ← statement
  let no ← if ← accept .elseWord then some <$> statement else pure none
  return .branch condition yes no

def whileStatement (expression : Parse Expr) (statement : Parse Stmt) : Parse Stmt := do
  discard <| expect .leftParen .whileCondition
  let condition ← expression
  discard <| expect .rightParen .whileConditionEnd
  return .loop condition (← statement)

def forInitializer (expression : Parse Expr) : Parse Stmt := do
  if ← accept .semicolon then return .empty
  else if ← accept .varWord then varDeclaration expression
  else expressionStatement expression

def forCondition (expression : Parse Expr) : Parse Expr := do
  let condition ← if ← check .semicolon then pure (.literal (.bool true)) else expression
  discard <| expect .semicolon .loopConditionEnd
  return condition

def forIncrement (expression : Parse Expr) : Parse Stmt := do
  let increment ← if ← check .rightParen then pure .empty else .expression <$> expression
  discard <| expect .rightParen .forHeaderEnd
  return increment

def forStatement (expression : Parse Expr) (statement : Parse Stmt) : Parse Stmt := do
  discard <| expect .leftParen .forHeader
  let initializer ← forInitializer expression
  let condition ← forCondition expression
  let increment ← forIncrement expression
  return .forLoop initializer condition increment (← statement)

def opensStatement : Kind → Bool
  | .printWord | .returnWord | .forWord | .ifWord | .whileWord | .leftBrace => true
  | _ => false

def plainStatement (expression : Parse Expr) (statement : Parse Stmt) (item : Parse (Option Stmt)) :
    Parse Stmt := do
  match ← accept? opensStatement with
  | none => expressionStatement expression
  | some t =>
    match t.kind with
    | .printWord => printStatement expression
    | .returnWord => returnStatement t expression
    | .forWord => forStatement expression statement
    | .ifWord => ifStatement expression statement
    | .whileWord => whileStatement expression statement
    | _ => return .block (← block bound item)

def opensDeclaration : Kind → Bool
  | .classWord | .funWord | .varWord => true
  | _ => false

/-- A declaration or a statement, from the parsers for an initializer, a statement, and an item in the
body of a function or of a method. -/
def declared (initializer : Parse Expr) (statement : Parse Stmt)
    (functionItem methodItem : Parse (Option Stmt)) : Parse Stmt := do
  match ← accept? opensDeclaration with
  | none => statement
  | some t =>
    match t.kind with
    | .classWord => classDeclaration bound methodItem
    | .funWord => .function <$> function bound .function functionItem
    | _ => varDeclaration initializer

mutual

def statement : Nat → Parse Stmt
  | room + 3 =>
    plainStatement bound (expression bound room) (statement (room + 1)) (declaration (room + 1))
  | _ => throw .tooDeep

def declaration : Nat → Parse (Option Stmt)
  | room + 4 =>
    recovering <| declared bound (expression bound (room + 1)) (statement (room + 3))
      (declaration (room + 1)) (declaration room)
  | _ => throw .tooDeep

end

/-- Reads declarations up to the end. One that nests too deep is complained about and skipped. -/
def declarations (room : Nat) : Nat → Array Stmt → Cursor → Array Stmt × Cursor
  | 0, done, cursor => (done, cursor)
  | rounds + 1, done, cursor =>
    if cursor.rest.isEmpty then (done, cursor)
    else
      match declaration bound room cursor with
      | .ok (some s) cursor => declarations room rounds (done.push s) cursor
      | .ok none cursor => declarations room rounds done cursor
      | .error _ cursor =>
        let fault := .atToken cursor.peek .nestingTooDeep
        declarations room rounds done
          { cursor with rest := afterMistake cursor.rest, faults := cursor.faults.push fault }

end Statements

end Parse

/-- A program as read: its statements without those that hold a mistake, and the complaints. -/
structure Program where
  statements : List Stmt
  faults : List Diagnostic

namespace Program

/-- Reads the words before an end marker, in the given room for nesting. A repetition takes a word each
round, so their number bounds all repetitions. -/
def ofWords (room : Nat) (words : List Token) (last : Token) : Program :=
  let bound := words.length
  let (statements, cursor) := Parse.declarations bound room bound #[] ⟨words, last, #[]⟩
  ⟨statements.toList, cursor.faults.toList⟩

def ofTokens? (room : Nat) (tokens : List Token) : Option Program :=
  match tokens.span (·.kind ≠ .eof) with
  | (words, last :: _) => some (ofWords room words last)
  | (_, []) => none

end Program

end TreeWalk
