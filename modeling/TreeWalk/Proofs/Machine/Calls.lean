import TreeWalk.Proofs.Machine.Upheld

namespace TreeWalk.Exec

variable {α : Type} {setup : Setup} {room : Nat} {e : Expr} {paren : Token} {es : List Expr}
  {m m₁ m₂ m' : Machine} {v w : Value} {vs : List Value} {c : Callee}

theorem call_miscounted (hv : eval setup (room + 3) e m = .ok v m₁)
    (hvs : es.mapM (eval setup (room + 2)) m₁ = .ok vs m₂) (hcallee : callee? setup v = some c)
    (harity : (vs.length : Int) ≠ c.arity) :
    eval setup (room + 5) (.call e paren es) m =
      .error (.error ⟨.argumentCount c.arity vs.length, paren⟩) m₂ := by
  rw [eval_call, bind_of_ok hv, bind_of_ok hvs, call, hcallee]
  dsimp only
  rw [if_pos harity]
  rfl

theorem call_counted (hv : eval setup (room + 3) e m = .ok v m₁)
    (hvs : es.mapM (eval setup (room + 2)) m₁ = .ok vs m₂) (hcallee : callee? setup v = some c)
    (harity : (vs.length : Int) = c.arity) :
    eval setup (room + 5) (.call e paren es) m =
      if setup.maxDepth ≤ m₂.depth then .error (.error ⟨.stackOverflow, paren⟩) m₂
      else active paren (c.apply (runIn setup room c) vs) m₂ := by
  rw [eval_call, bind_of_ok hv, bind_of_ok hvs]
  by_cases hdepth : setup.maxDepth ≤ m₂.depth
  · rw [if_pos hdepth, call_overflows hcallee harity hdepth]
  · rw [if_neg hdepth, call_active hcallee harity (Int.not_le.mp hdepth)]

theorem active_ok {act : Exec α} {a : α} (h : active paren act m = .ok a m') :
    ∃ m₁, act m.called = .ok a m₁ ∧ m' = { m₁ with depth := m₁.depth - 1 } := by
  change endCall paren (act m.called) = .ok a m' at h
  cases hact : act m.called with
  | ok b m₁ =>
    rw [hact] at h
    cases h
    exact ⟨m₁, rfl, rfl⟩
  | error i m₁ =>
    rw [hact] at h
    cases i <;> cases h

theorem call_ok (hv : eval setup (room + 3) e m = .ok v m₁) (hcallee : callee? setup v = some c)
    (h : eval setup (room + 5) (.call e paren es) m = .ok w m') :
    ∃ vs m₂ m₃, es.mapM (eval setup (room + 2)) m₁ = .ok vs m₂ ∧ (vs.length : Int) = c.arity ∧
      (m₂.depth : Int) < setup.maxDepth ∧ c.apply (runIn setup room c) vs m₂.called = .ok w m₃ ∧
      m' = { m₃ with depth := m₃.depth - 1 } := by
  have hcall := h
  rw [eval_call, bind_of_ok hv] at hcall
  obtain ⟨vs, m₂, hvs, -⟩ := ok_of_bind hcall
  by_cases harity : (vs.length : Int) = c.arity
  · rw [call_counted hv hvs hcallee harity] at h
    split at h
    · cases h
    · next hdepth =>
      obtain ⟨m₃, happly, hm'⟩ := active_ok h
      exact ⟨vs, m₂, m₃, hvs, harity, Int.not_le.mp hdepth, happly, hm'⟩
  · rw [call_miscounted hv hvs hcallee harity] at h
    cases h

section Bodies

variable {run : Stmt → Exec Flow} {closure : Closure} {info : ClassInfo}

/-- The object that a class makes is the next one. -/
theorem instantiate_ok (h : instantiate run info vs m = .ok v m') : v = .object m.objects.size info := by
  have hobject : newObject m = .ok m.objects.size m.newObject := rfl
  rw [instantiate, bind_of_ok hobject] at h
  cases hi : info.initializer? with
  | none =>
    rw [hi] at h
    cases h
    rfl
  | some c =>
    simp only [hi] at h
    obtain ⟨c', m₁, -, h⟩ := ok_of_bind h
    obtain ⟨-, m₂, -, h⟩ := ok_of_bind h
    cases h
    rfl

theorem enter_ok (h : enter run closure vs m = .ok v m') :
    ∃ flow m₁, sequence run closure.decl.body (m.inside closure.env (closure.parameters vs)) = .ok flow m₁ ∧
      m' = { m₁ with env := m.env } ∧
      if closure.isInitializer then m'.frames.getAt closure.env 0 "this" = .ok v
      else v = match flow with | .next => .nil | .returned v => v := by
  rw [enter_eq] at h
  obtain ⟨flow, m₂, hbody, hrest⟩ := ok_of_bind h
  change comeBack m.env
    (sequence run closure.decl.body (m.inside closure.env (closure.parameters vs))) = .ok flow m₂ at hbody
  generalize sequence run closure.decl.body _ = x at hbody ⊢
  cases x with
  | error i m₁ => cases hbody
  | ok flow' m₁ =>
    cases hbody
    refine ⟨flow, m₁, rfl, ?_⟩
    by_cases hinit : closure.isInitializer = true
    · rw [if_pos hinit] at hrest ⊢
      change ofFit (m₁.frames.getAt closure.env 0 "this") { m₁ with env := m.env } = _ at hrest
      cases hthis : m₁.frames.getAt closure.env 0 "this" with
      | error misfit =>
        rw [hthis] at hrest
        cases hrest
      | ok object =>
        rw [hthis] at hrest
        cases hrest
        exact ⟨rfl, hthis⟩
    · rw [if_neg hinit] at hrest ⊢
      cases flow <;> cases hrest <;> exact ⟨rfl, rfl⟩

end Bodies

end TreeWalk.Exec
