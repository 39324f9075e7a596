import TreeWalk.Proofs.Machine.Truncation
import TreeWalk.Proofs.Tree.Equality

namespace TreeWalk

deriving instance DecidableEq for Bindings
deriving instance DecidableEq for Closure
deriving instance DecidableEq for ClassInfo
deriving instance DecidableEq for Value
deriving instance DecidableEq for Flow

namespace Exec

variable {α : Type} {a : α} {r : EStateM.Result Interrupt Machine α}

/-- What an evaluation that was not interrupted has come to. -/
def outcome? : EStateM.Result Interrupt Machine α → Option α
  | .ok a _ => some a
  | .error _ _ => none

theorem ok_of_outcome (h : outcome? r = some a) : r = .ok a (final r) := by
  cases r with
  | ok b m =>
    obtain rfl : b = a := Option.some.inj h
    rfl
  | error => cases h

end Exec

end TreeWalk
