import TreeWalk.Machine.Error
import TreeWalk.Value

namespace TreeWalk.Operator

variable (operator : Token)

def number (v : Value) : Except RuntimeError Float :=
  match v.number? with
  | some x => .ok x
  | none => .error ⟨.operandNotNumber, operator⟩

def numbers (l r : Value) : Except RuntimeError (Float × Float) :=
  match l.number?, r.number? with
  | some x, some y => .ok (x, y)
  | _, _ => .error ⟨.operandsNotNumbers, operator⟩

/-- A minus negates numbers; every other operator negates truth. -/
def unary (v : Value) : Except RuntimeError Value :=
  match operator.kind with
  | .minus => return .number (-(← number operator v))
  | _ => return .ofBool !v.isTruthy

def add (l r : Value) : Except RuntimeError Value :=
  match l.number?, r.number?, l.string?, r.string? with
  | some x, some y, _, _ => .ok (.number (x + y))
  | _, _, some s, some t => .ok (.string (s ++ t))
  | _, _, _, _ => .error ⟨.operandsNotAddable, operator⟩

/-- A quotient. Zero or a NaN divided by zero is always the same NaN. -/
def quotient (x y : Float) : Value :=
  if y == 0 && (x == 0 || x.isNaN) then .scalar (.nan .zeroDivision) else .number (x / y)

def arithmetic (x y : Float) : Except RuntimeError Value :=
  match operator.kind with
  | .minus => .ok (.number (x - y))
  | .star => .ok (.number (x * y))
  | .slash => .ok (quotient x y)
  | .greater => .ok (.ofBool (x > y))
  | .greaterEqual => .ok (.ofBool (x ≥ y))
  | .less => .ok (.ofBool (x < y))
  | .lessEqual => .ok (.ofBool (x ≤ y))
  | _ => .error ⟨.unknownOperator operator.lexeme, operator⟩

def binary (l r : Value) : Except RuntimeError Value :=
  match operator.kind with
  | .plus => add operator l r
  | .equalEqual => .ok (.ofBool (l.equals r))
  | .bangEqual => .ok (.ofBool !(l.equals r))
  | _ => do
    let (x, y) ← numbers operator l r
    arithmetic operator x y

/-- Whether the left operand decides a logical operator by itself: a true one for `or`, a false one for
every other. -/
def decides (left : Bool) : Bool :=
  match operator.kind with
  | .orWord => left
  | _ => !left

end TreeWalk.Operator
