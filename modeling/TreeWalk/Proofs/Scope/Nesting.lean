import TreeWalk.Proofs.Scope.Walk

namespace TreeWalk

section Nesting

mutual

def Expr.nesting : Expr → Nat
  | .literal _ | .var _ _ | .self _ _ => 2
  | .group e | .unary _ e | .assign _ e _ | .get e _ => e.nesting + 2
  | .binary l _ r | .logical l _ r | .set l _ r => max l.nesting r.nesting + 2
  | .call callee _ arguments => max callee.nesting (Expr.nestings arguments) + 2
  | .ofStmt s => s.nesting + 1

def Expr.nestings : List Expr → Nat
  | [] => 0
  | e :: es => max e.nesting (Expr.nestings es)

/-- The room that the walk over a statement takes. -/
def Stmt.nesting : Stmt → Nat
  | .empty | .var _ none | .returns _ none | .unknown _ => 4
  | .expression e | .print e | .var _ (some e) | .returns _ (some e) => e.nesting + 2
  | .block body => max 4 (Stmt.nestings body + 3)
  | .branch c yes none => max c.nesting yes.nesting + 2
  | .branch c yes (some no) => max c.nesting (max yes.nesting no.nesting) + 2
  | .loop c body => max c.nesting body.nesting + 2
  | .function d => d.nesting + 4
  | .cls _ methods => FunDecl.nestings methods + 4
  | .ofExpr e => max 4 (e.nesting + 1)

def Stmt.nestings : List Stmt → Nat
  | [] => 0
  | s :: ss => max s.nesting (Stmt.nestings ss)

def FunDecl.nesting : FunDecl → Nat
  | .mk _ _ body => Stmt.nestings body

def FunDecl.nestings : List FunDecl → Nat
  | [] => 0
  | d :: ds => max d.nesting (FunDecl.nestings ds)

end

variable {n : Nat}

theorem Expr.nestings_le {es : List Expr} : nestings es ≤ n ↔ ∀ e ∈ es, e.nesting ≤ n := by
  induction es with
  | nil => simp [nestings]
  | cons e es ih => rw [nestings, Nat.max_le, ih, List.forall_mem_cons]

theorem Stmt.nestings_le {ss : List Stmt} : nestings ss ≤ n ↔ ∀ s ∈ ss, s.nesting ≤ n := by
  induction ss with
  | nil => simp [nestings]
  | cons s ss ih => rw [nestings, Nat.max_le, ih, List.forall_mem_cons]

theorem FunDecl.nestings_le {ds : List FunDecl} : nestings ds ≤ n ↔ ∀ d ∈ ds, d.nesting ≤ n := by
  induction ds with
  | nil => simp [nestings]
  | cons d ds ih => rw [nestings, Nat.max_le, ih, List.forall_mem_cons]

theorem Expr.lt_nestings {es : List Expr} : n < nestings es ↔ ∃ e ∈ es, n < e.nesting := by
  rw [← Nat.not_le, nestings_le]
  simp

theorem Stmt.lt_nestings {ss : List Stmt} : n < nestings ss ↔ ∃ s ∈ ss, n < s.nesting := by
  rw [← Nat.not_le, nestings_le]
  simp

theorem FunDecl.lt_nestings {ds : List FunDecl} : n < nestings ds ↔ ∃ d ∈ ds, n < d.nesting := by
  rw [← Nat.not_le, nestings_le]
  simp

theorem FunDecl.nesting_le : ∀ d : FunDecl, d.nesting ≤ n ↔ ∀ s ∈ d.body, s.nesting ≤ n
  | .mk _ _ _ => Stmt.nestings_le

theorem FunDecl.lt_nesting : ∀ d : FunDecl, n < d.nesting ↔ ∃ s ∈ d.body, n < s.nesting
  | .mk _ _ _ => Stmt.lt_nestings

end Nesting

namespace Resolving

variable {α β : Type}

abbrev Persists (act : Resolving α) : Prop := Keeps (fun r ↦ r.halted ≠ none) act

theorem halted_kept : Kept fun r ↦ r.halted ≠ none where
  congr h hh _ := hh ▸ h
  complaint _ h := h
  tooDeep _ := by simp

theorem halted_unaffected (regular : Prop) : Unaffected (fun r ↦ r.halted ≠ none) regular :=
  .inr fun kind _ _ ↦ show some (Halt.unknown kind) ≠ none by simp

theorem expr_persists (room : Nat) (e : Expr) : Persists (expr room e) :=
  expr_keeps halted_kept room e (halted_unaffected _)

theorem stmt_persists (room : Nat) (s : Stmt) : Persists (stmt room s) :=
  stmt_keeps halted_kept room s (halted_unaffected _)

theorem method_persists (room : Nat) (d : FunDecl) :
    Persists (function (methodRole d) (·.mapM (stmt room)) d) :=
  halted_kept.function _ d (Keeps.mapM _ fun s _ ↦ stmt_persists room s)

def Stops (act : Resolving α) : Prop := ∀ r, (after act r).halted ≠ none

namespace Stops

variable {act : Resolving α} {f : α → Resolving β}

theorem bind (h : Stops act) (hf : ∀ x, Persists (f x)) : Stops (act >>= f) :=
  fun r ↦ hf _ _ (h r)

theorem behind (act : Resolving α) (hf : ∀ x, Stops (f x)) : Stops (act >>= f) := fun _ ↦ hf _ _

theorem mapM {f : α → Resolving β} (hf : ∀ x, Persists (f x)) {x : α} (h : Stops (f x)) :
    ∀ {xs : List α}, x ∈ xs → Stops (xs.mapM f)
  | y :: ys, hx => by
    rw [List.mapM_cons]
    rcases List.mem_cons.mp hx with rfl | hx
    · exact h.bind fun _ ↦ (Keeps.mapM ys fun y _ ↦ hf y).bind fun _ ↦ .pure
    · exact .behind _ fun _ ↦ (mapM hf h hx).bind fun _ ↦ .pure

theorem inScope (scope : Scope) (h : Stops act) : Stops (inScope scope act) := fun _ ↦ h _

theorem inClass (h : Stops act) : Stops (inClass act) := fun _ ↦ h _

theorem function {room : Nat} {role : Role} {d : FunDecl} {s : Stmt} (hs : s ∈ d.body)
    (h : Stops (stmt room s)) : Stops (function role (·.mapM (stmt room)) d) := by
  have hbody := mapM (stmt_persists room) h hs
  rw [function_eq]
  exact fun _ ↦ hbody _

theorem tooDeep : Stops (unlessHalted (halt .tooDeep)) := by
  intro r
  change (after (if r.halted.isNone then halt .tooDeep else pure ()) r).halted ≠ none
  split
  · exact Option.some_ne_none _
  · next h => exact fun hr ↦ h (Option.isNone_iff_eq_none.mpr hr)

theorem guarded {x : α} (h : Stops act) :
    Stops (do if (← get).halted.isSome then return x else act) := by
  intro r
  change (after (if r.halted.isSome then pure x else act) r).halted ≠ none
  split
  · next hr => exact Option.isSome_iff_ne_none.mp hr
  · exact h r

end Stops

mutual

theorem expr_stops : ∀ {room : Nat} {e : Expr}, room < e.nesting → Stops (expr room e)
  | 0, e, _ | 1, e, _ => by
    unfold expr
    exact Stops.tooDeep.bind fun _ ↦ .pure
  | room + 2, e, hroom => by
    unfold expr
    refine .guarded ?_
    cases e <;> rw [Expr.nesting] at hroom
    case literal | var | self => omega
    case group inner =>
      have h : Stops (expr room inner) := expr_stops (by omega)
      exact h.bind fun _ ↦ .pure
    case unary operator right =>
      have h : Stops (expr room right) := expr_stops (by omega)
      exact h.bind fun _ ↦ .pure
    case binary left operator right =>
      by_cases hl : room < left.nesting
      · exact (expr_stops hl).bind fun _ ↦ (expr_persists _ _).bind fun _ ↦ .pure
      · have h : Stops (expr room right) := expr_stops (by omega)
        exact .behind _ fun _ ↦ h.bind fun _ ↦ .pure
    case logical left operator right =>
      by_cases hl : room < left.nesting
      · exact (expr_stops hl).bind fun _ ↦ (expr_persists _ _).bind fun _ ↦ .pure
      · have h : Stops (expr room right) := expr_stops (by omega)
        exact .behind _ fun _ ↦ h.bind fun _ ↦ .pure
    case assign name value ref =>
      have h : Stops (expr room value) := expr_stops (by omega)
      exact h.bind fun _ ↦ (halted_kept.link _ _ _).bind fun _ ↦ .pure
    case call callee paren arguments =>
      have hes : Persists (arguments.mapM (expr room)) := Keeps.mapM _ fun e _ ↦ expr_persists room e
      by_cases hc : room < callee.nesting
      · exact (expr_stops hc).bind fun _ ↦ hes.bind fun _ ↦ .pure
      · have ha : room < Expr.nestings arguments := by omega
        obtain ⟨e, hmem, he⟩ := Expr.lt_nestings.mp ha
        have h := Stops.mapM (expr_persists room) (expr_stops he) hmem
        exact .behind _ fun _ ↦ h.bind fun _ ↦ .pure
    case get object name =>
      have h : Stops (expr room object) := expr_stops (by omega)
      exact h.bind fun _ ↦ .pure
    case set object name value =>
      by_cases hv : room < value.nesting
      · exact (expr_stops hv).bind fun _ ↦ (expr_persists _ _).bind fun _ ↦ .pure
      · have h : Stops (expr room object) := expr_stops (by omega)
        exact .behind _ fun _ ↦ h.bind fun _ ↦ .pure
    case ofStmt s =>
      have h : Stops (stmt (room + 1) s) := stmt_stops (by omega)
      exact h.bind fun _ ↦ .pure

theorem stmt_stops : ∀ {room : Nat} {s : Stmt}, room < s.nesting → Stops (stmt room s)
  | 0, _, _ | 1, _, _ | 2, _, _ | 3, _, _ => by
    unfold stmt
    exact Stops.tooDeep.bind fun _ ↦ .pure
  | room + 4, s, hroom => by
    unfold stmt
    refine .guarded ?_
    cases s
    case empty | unknown => rw [Stmt.nesting] at hroom; omega
    case expression e | print e =>
      rw [Stmt.nesting] at hroom
      have h : Stops (expr (room + 2) e) := expr_stops (by omega)
      exact h.bind fun _ ↦ .pure
    case var name initializer =>
      cases initializer <;> rw [Stmt.nesting] at hroom
      case none => omega
      case some e =>
        have h : Stops (expr (room + 2) e) := expr_stops (by omega)
        have h : Stops (some <$> expr (room + 2) e) := h
        exact .behind _ fun _ ↦ h.bind fun _ ↦ (halted_kept.define name).bind fun _ ↦ .pure
    case block body =>
      rw [Stmt.nesting] at hroom
      have hbody : room + 1 < Stmt.nestings body := by omega
      obtain ⟨s, hmem, hs⟩ := Stmt.lt_nestings.mp hbody
      have h := Stops.mapM (stmt_persists (room + 1)) (stmt_stops hs) hmem
      exact (h.inScope _).bind fun _ ↦ .pure
    case branch c yes no =>
      by_cases hc : room + 2 < c.nesting
      · refine (expr_stops hc).bind fun _ ↦ (stmt_persists _ _).bind fun _ ↦ ?_
        cases no with
        | none => exact .pure
        | some no => exact (stmt_persists _ _).bind fun _ ↦ .pure
      · refine .behind _ fun _ ↦ ?_
        by_cases hyes : room + 2 < yes.nesting
        · refine (stmt_stops hyes).bind fun _ ↦ ?_
          cases no with
          | none => exact .pure
          | some no => exact (stmt_persists _ _).bind fun _ ↦ .pure
        · cases no <;> rw [Stmt.nesting] at hroom
          case none => omega
          case some no =>
            have h : Stops (stmt (room + 2) no) := stmt_stops (by omega)
            exact .behind _ fun _ ↦ h.bind fun _ ↦ .pure
    case loop c body =>
      rw [Stmt.nesting] at hroom
      by_cases hc : room + 2 < c.nesting
      · exact (expr_stops hc).bind fun _ ↦ (stmt_persists _ _).bind fun _ ↦ .pure
      · have h : Stops (stmt (room + 2) body) := stmt_stops (by omega)
        exact .behind _ fun _ ↦ h.bind fun _ ↦ .pure
    case function d =>
      rw [Stmt.nesting] at hroom
      have hd : room < d.nesting := by omega
      obtain ⟨s, hmem, hs⟩ := d.lt_nesting.mp hd
      have h : Stops (function .function _ d) := .function hmem (stmt_stops hs)
      exact .behind _ fun _ ↦ .behind _ fun _ ↦ h.bind fun _ ↦ .pure
    case returns keyword value =>
      cases value <;> rw [Stmt.nesting] at hroom
      case none => omega
      case some e =>
        have h : Stops (expr (room + 2) e) := expr_stops (by omega)
        exact .behind _ fun _ ↦ h.bind fun _ ↦ .pure
    case cls name methods =>
      rw [Stmt.nesting] at hroom
      have hmethods : room < FunDecl.nestings methods := by omega
      obtain ⟨d, hmem, hd⟩ := FunDecl.lt_nestings.mp hmethods
      obtain ⟨s, hmem', hs⟩ := d.lt_nesting.mp hd
      have hmethods := Stops.mapM (method_persists room) (Stops.function hmem' (stmt_stops hs)) hmem
      exact .inClass (.behind _ fun _ ↦ .behind _ fun _ ↦ (hmethods.inScope _).bind fun _ ↦ .pure)
    case ofExpr e =>
      rw [Stmt.nesting] at hroom
      have h : Stops (expr (room + 3) e) := expr_stops (by omega)
      exact h.bind fun _ ↦ .pure

end

end Resolving

end TreeWalk
