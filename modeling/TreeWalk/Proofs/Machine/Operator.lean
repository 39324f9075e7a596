import TreeWalk.Machine.Operator

namespace TreeWalk.Operator

theorem unary_scalar {operator : Token} {v w : Value} (h : unary operator v = .ok w) :
    ∃ s, w = .scalar s := by
  unfold unary at h
  split at h
  · cases hn : number operator v with
    | ok x =>
      rw [hn] at h
      cases h
      exact ⟨_, rfl⟩
    | error e =>
      rw [hn] at h
      cases h
  · cases h
    exact ⟨_, rfl⟩

theorem arithmetic_scalar {operator : Token} {x y : Float} {w : Value}
    (h : arithmetic operator x y = .ok w) : ∃ s, w = .scalar s := by
  unfold arithmetic at h
  split at h
  case h_3 =>
    cases h
    unfold quotient
    split <;> exact ⟨_, rfl⟩
  case h_8 => cases h
  all_goals
    cases h
    exact ⟨_, rfl⟩

theorem binary_scalar {operator : Token} {l r w : Value}
    (h : binary operator l r = .ok w) : ∃ s, w = .scalar s := by
  unfold binary at h
  split at h
  · unfold add at h
    split at h
    · cases h
      exact ⟨_, rfl⟩
    · cases h
      exact ⟨_, rfl⟩
    · cases h
  · cases h
    exact ⟨_, rfl⟩
  · cases h
    exact ⟨_, rfl⟩
  · cases hn : numbers operator l r with
    | ok p =>
      rw [hn] at h
      exact arithmetic_scalar h
    | error e =>
      rw [hn] at h
      cases h

end TreeWalk.Operator
