import TreeWalk.Token.Basic

namespace TreeWalk

inductive Callable where
  | function
  | method
deriving DecidableEq, Repr

def Callable.text : Callable → String
  | function => "function"
  | method => "method"

/-- What the grammar requires at a token that is something else. -/
inductive Missing where
  | expression
  | className
  | classBody
  | classEnd
  | callableName (what : Callable)
  | parameterList (what : Callable)
  | parameterName
  | parameterEnd
  | callableBody (what : Callable)
  | variableName
  | variableEnd
  | printEnd
  | returnEnd
  | forHeader
  | loopConditionEnd
  | forHeaderEnd
  | ifCondition
  | ifConditionEnd
  | whileCondition
  | whileConditionEnd
  | expressionEnd
  | blockEnd
  | propertyName
  | argumentsEnd
  | groupEnd
deriving DecidableEq, Repr

def Missing.text : Missing → String
  | expression => "expression"
  | className => "class name"
  | classBody => "'\x7b' before class body"
  | classEnd => "'\x7d' after class body"
  | callableName what => what.text ++ " name"
  | parameterList what => "'(' after " ++ what.text ++ " name"
  | parameterName => "parameter name"
  | parameterEnd => "')' after parameters"
  | callableBody what => "'\x7b' before " ++ what.text ++ " body"
  | variableName => "variable name"
  | variableEnd => "';' after variable declaration"
  | printEnd => "';' after value"
  | returnEnd => "';' after return value"
  | forHeader => "'(' after 'for'"
  | loopConditionEnd => "';' after loop condition"
  | forHeaderEnd => "')' after for clauses"
  | ifCondition => "'(' after 'if'"
  | ifConditionEnd => "')' after if condition"
  | whileCondition => "'(' after 'while'"
  | whileConditionEnd => "')' after condition"
  | expressionEnd => "';' after expression"
  | blockEnd => "'\x7d' after block"
  | propertyName => "property name after '.'"
  | argumentsEnd => "')' after arguments"
  | groupEnd => "')' after expression"

/-- The greatest number of parameters or arguments that goes without a complaint. -/
def maxArguments : Nat := 255

inductive Complaint where
  | strayCharacter
  | openString
  | expected (what : Missing)
  | tooManyParameters
  | tooManyArguments
  | assignmentTarget
  | nestingTooDeep
  | redeclared
  | ownInitializer
  | returnOutside
  | initializerReturn
  | thisOutside
deriving DecidableEq, Repr

def Complaint.text : Complaint → String
  | strayCharacter => "Unexpected character."
  | openString => "Unterminated string."
  | expected what => "Expect " ++ what.text ++ "."
  | tooManyParameters => "Can't have more than " ++ toString maxArguments ++ " parameters."
  | tooManyArguments => "Can't have more than " ++ toString maxArguments ++ " arguments."
  | assignmentTarget => "Invalid assignment target."
  | nestingTooDeep => "Expression nesting too deep."
  | redeclared => "Already a variable with this name in this scope."
  | ownInitializer => "Can't read local variable in its own initializer."
  | returnOutside => "Can't return from top-level code."
  | initializerReturn => "Can't return a value from an initializer."
  | thisOutside => "Can't use 'this' outside of a class."

inductive Place where
  | unspecified
  | atEnd
  | atLexeme (lexeme : String)
deriving DecidableEq, Repr

def Place.text : Place → String
  | unspecified => ""
  | atEnd => " at end"
  | atLexeme lexeme => " at '" ++ lexeme ++ "'"

structure Diagnostic where
  line : Int
  place : Place
  complaint : Complaint
deriving DecidableEq, Repr

namespace Diagnostic

def atToken (t : Token) (c : Complaint) : Diagnostic :=
  ⟨t.line, if t.kind = .eof then .atEnd else .atLexeme t.lexeme, c⟩

def text (d : Diagnostic) : String :=
  "[line " ++ toString d.line ++ "] Error" ++ d.place.text ++ ": " ++ d.complaint.text

/-- The order of a report: by line, and on one line as found. -/
def inReportOrder (ds : List Diagnostic) : List Diagnostic :=
  ds.mergeSort fun a b ↦ a.line ≤ b.line

end Diagnostic

end TreeWalk
