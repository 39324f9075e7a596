import TreeWalk.Frame
import TreeWalk.Token.Basic

namespace TreeWalk

inductive RuntimeError.Cause where
  | undefinedVariable (name : String)
  | undefinedProperty (name : String)
  | operandNotNumber
  | operandsNotNumbers
  | operandsNotAddable
  | unknownOperator (lexeme : String)
  | notCallable
  | argumentCount (expected : Int) (got : Nat)
  | stackOverflow
  | noProperties
  | noFields
deriving DecidableEq, Repr

def RuntimeError.Cause.text : RuntimeError.Cause → String
  | undefinedVariable name => "Undefined variable '" ++ name ++ "'."
  | undefinedProperty name => "Undefined property '" ++ name ++ "'."
  | operandNotNumber => "Operand must be a number."
  | operandsNotNumbers => "Operands must be numbers."
  | operandsNotAddable => "Operands must be numbers or two strings."
  | unknownOperator lexeme => "Unknown operator '" ++ lexeme ++ "'."
  | notCallable => "Can only call functions and classes."
  | argumentCount expected got =>
    "Expected " ++ toString expected ++ " arguments but got " ++ toString got ++ "."
  | stackOverflow => "Stack overflow."
  | noProperties => "Only instances have properties."
  | noFields => "Only instances have fields."

structure RuntimeError where
  cause : RuntimeError.Cause
  token : Token

def RuntimeError.text (e : RuntimeError) : String :=
  e.cause.text ++ "\n[line " ++ toString e.token.line ++ "]"

inductive Interrupt where
  | error (e : RuntimeError)
  /-- A distance does not fit the frames: the tree is not what resolving its program gives. -/
  | misfit (m : Misfit)
  | unknown (kind : String)
  | tooDeep
  | endless

end TreeWalk
