import TreeWalk.Proofs.Grammar.Complete
import TreeWalk.Proofs.Scope.Thinned

namespace TreeWalk

open Grammar Resolving

structure ForLoop where
  initial : Stmt
  condition : Expr
  increment : Stmt
  body : Stmt

/-- What may stand for the first and the third part of the header. -/
inductive Stmt.InHeader : Stmt → Prop
  | empty : InHeader .empty
  | expression {e : Expr} : InHeader (.expression e)
  | var {name : Token} {initializer : Option Expr} : InHeader (.var name initializer)

namespace ForLoop

def tree (l : ForLoop) : Stmt := .forLoop l.initial l.condition l.increment l.body

inductive Derives (depth : Nat) (dangling : Bool) : List Token → ForLoop → Prop
  | mk {w v u x : List Token} {opening : Token} {initial increment body : Stmt} {condition : Expr} :
      opening.kind = .leftParen → Initializer (Expression depth) w initial →
      Condition (Expression depth) v condition → Increment (Expression depth) u increment →
      Statement (depth + 1) dangling x body →
      Derives depth dangling (opening :: w ++ v ++ u ++ x) ⟨initial, condition, increment, body⟩

/-- The parts, resolved in the one scope of the loop. What is declared in the body does not reach it. -/
inductive Resolves (room : Nat) (r : Resolution) : ForLoop → ForLoop → Prop
  | mk {l l' : ForLoop} {r₁ r₂ r₃ r₄ : Resolution} :
      Runs (stmt (room + 6) l.initial) (r.within (.empty :: r.scopes)) l'.initial r₁ →
      Runs (expr (room + 4) l.condition) r₁ l'.condition r₂ →
      Runs (stmt (room + 1) l.body) r₂ l'.body r₃ →
      Runs (stmt (room + 1) l.increment) r₃ l'.increment r₄ →
      r₂.scopes = r₁.scopes → r₃.scopes = r₁.scopes → Resolves room r l l'

/-- The parts, resolved in the tree: body and increment in a scope of their own. -/
inductive ResolvesTree (room : Nat) (r : Resolution) : ForLoop → ForLoop → Prop
  | mk {l l' : ForLoop} {r₁ r₂ r₃ r₄ : Resolution} :
      Runs (stmt (room + 6) l.initial) (r.within (.empty :: r.scopes)) l'.initial r₁ →
      Runs (expr (room + 4) l.condition) r₁ l'.condition r₂ →
      Runs (stmt (room + 1) l.body) (r₂.within (.empty :: r₂.scopes)) l'.body r₃ →
      Runs (stmt (room + 1) l.increment) r₃ l'.increment r₄ → ResolvesTree room r l l'

/-- The parts are thinned inside the scope of the loop. Around body and increment is one more, which is spare. -/
structure Thinned (marks : List Bool) (l l' : ForLoop) : Prop where
  initial : l.initial.Thinned (false :: marks) l'.initial
  condition : l.condition.Thinned (false :: marks) l'.condition
  increment : l.increment.Thinned (true :: false :: marks) l'.increment
  body : l.body.Thinned (true :: false :: marks) l'.body

/-- Nothing but the initializer declares a name, and nothing in the header returns. -/
structure Proper (l : ForLoop) : Prop where
  initial : l.initial.InHeader
  increment : l.increment.InHeader
  increment_undeclared : l.increment.declared? = none
  body_undeclared : l.body.declared? = none

structure Regular (l : ForLoop) : Prop where
  initial : l.initial.Regular
  condition : l.condition.Regular
  increment : l.increment.Regular
  body : l.body.Regular

end ForLoop

section Grammar

variable {depth : Nat} {dangling : Bool} {keyword : Token} {words : List Token} {s : Stmt}

theorem statement_forLoop (h : Statement depth dangling (keyword :: words) s)
    (hkind : keyword.kind = .forWord) :
    ∃ d l, depth = d + 3 ∧ ForLoop.Derives d dangling words l ∧ s = l.tree := by
  match depth with
  | 0 | 1 | 2 => exact h.elim
  | d + 3 =>
    rw [Statement] at h
    generalize hw : keyword :: words = w at h
    cases h with
    | forLoop _ hopening hi hc hn hb =>
      cases hw
      exact ⟨d, ⟨_, _, _, _⟩, rfl, .mk hopening hi hc hn hb, rfl⟩
    | expression he =>
      obtain ⟨t, v, rfl, ht⟩ := Parse.expression_starts d he
      cases hw
      rw [hkind] at ht
      exact absurd ht (by decide)
    | print hk | returns hk | returnsValue hk | block hk | ifThen hk | ifElse hk | loop hk =>
      cases hw
      rw [hkind] at hk
      cases hk

theorem statement_undeclared (h : Statement depth dangling words s) : s.declared? = none := by
  match depth with
  | 0 | 1 | 2 => exact h.elim
  | d + 3 =>
    rw [Statement] at h
    cases h <;> rfl

theorem ForLoop.Derives.proper {l : ForLoop} (h : l.Derives depth dangling words) : l.Proper := by
  cases h with
  | mk _ hi _ hn hb =>
    refine ⟨?_, ?_, ?_, statement_undeclared hb⟩
    · cases hi with
      | none => exact .empty
      | declares _ hs => cases hs <;> exact .var
      | expression => exact .expression
    · cases hn with
      | none => exact .empty
      | some => exact .expression
    · cases hn <;> rfl

end Grammar

section Walks

theorem Stmt.InHeader.walked {room : Nat} {s s' : Stmt} {r r' : Resolution} (h : s.InHeader)
    (hwalk : Runs (stmt room s) r s' r') : s'.InHeader := by
  obtain ⟨room, rfl, hform⟩ := stmt_runs hwalk
  cases h with
  | empty => cases hform; exact .empty
  | expression => cases hform; exact .expression
  | var => cases hform <;> exact .var

namespace ForLoop

variable {l d : ForLoop} {room k : Nat} {s' : Stmt} {r r' : Resolution}

theorem regular_of_tree (h : l.tree.Regular) : l.Regular := by
  cases h with
  | block hparts =>
    cases hparts _ (.tail _ (.head _)) with
    | loop hc hround _ =>
      cases hround with
      | block hround =>
        exact ⟨hparts _ (.head _), hc, hround _ (.tail _ (.head _)), hround _ (.head _)⟩

theorem tree_runs (hwalk : Runs (stmt room l.tree) r s' r') :
    ∃ k d, room = k + 9 ∧ s' = tree d ∧ l.ResolvesTree k r d := by
  obtain ⟨room, rfl, hform⟩ := stmt_runs hwalk
  cases hform with
  | block hparts _ =>
  cases hparts.all (stmt_careful _) with
  | cons hinitial hrest =>
  cases hrest with
  | cons hloop hnil =>
  cases hnil
  obtain ⟨j, hj, hform⟩ := stmt_runs hloop
  obtain rfl : room = j + 3 := by omega
  cases hform with
  | loop hcondition hblock =>
  obtain ⟨k, hk, hform⟩ := stmt_runs hblock
  obtain rfl : j = k + 2 := by omega
  cases hform with
  | block hround _ =>
  cases hround.all (stmt_careful _) with
  | cons hbody hrest =>
  cases hrest with
  | cons hincrement hnil =>
  cases hnil
  exact ⟨k, ⟨_, _, _, _⟩, rfl, rfl, .mk hinitial hcondition hbody hincrement⟩

theorem ResolvesTree.inHeader (h : l.ResolvesTree k r d) (hproper : l.Proper) :
    d.initial.InHeader ∧ d.increment.InHeader := by
  cases h with
  | mk hinitial _ _ hincrement =>
    exact ⟨hproper.initial.walked hinitial, hproper.increment.walked hincrement⟩

/-- Without the spare scope around body and increment the parts are resolved to the same, but for distances. -/
theorem ResolvesTree.thinned (h : l.ResolvesTree k r d) (hl : l.Regular) (hproper : l.Proper)
    (hr : r.Clean) (hsettled : Settled r.scopes) :
    ∃ l', l.Resolves k r l' ∧ d.Thinned (List.replicate r.scopes.length false) l' := by
  cases h with
  | @mk r₁ r₂ r₃ r₄ hinitial hcondition hbody hincrement =>
  have hscopes₁ : r₁.scopes = l.initial.declaredIn (.empty :: r.scopes) :=
    stmt_scopes hl.initial hinitial
  have hscopes₂ : r₂.scopes = r₁.scopes := expr_scopes hl.condition hcondition
  have hmarks₁ : List.replicate r₁.scopes.length false =
      false :: List.replicate r.scopes.length false := by
    rw [hscopes₁, Stmt.declaredIn_length]
    rfl
  have hmarks₂ := congrArg (fun scopes : List Scope ↦ List.replicate scopes.length false) hscopes₂
  have hsettled₂ : Settled r₂.scopes := by
    rw [hscopes₂, hscopes₁]
    exact hsettled.inside.declaredIn l.initial
  have hi := Thins.refl (stmt_thins _ hl.initial (.inl (declares_replicate _))) hinitial hr
  have hc := Thins.refl (expr_thins hl.condition _) hcondition hinitial.2
  -- Neither body nor increment declares a name of its own, so the spare scope is empty throughout.
  have hspare := (Resolution.Thinned.refl hcondition.2).spare fun scope hscope ↦
    hsettled₂ scope (List.mem_of_mem_head? hscope)
  rw [hmarks₂.trans hmarks₁] at hspare
  rw [hmarks₁] at hc
  obtain ⟨body', r₃', hbody', hb, hr₃⟩ :=
    stmt_thins _ hl.body (.inr hproper.body_undeclared) hbody hspare
  obtain ⟨increment', r₄', hincrement', hn, -⟩ :=
    stmt_thins _ hl.increment (.inr hproper.increment_undeclared) hincrement hr₃
  have hscopes₃ : r₃'.scopes = r₂.scopes := by
    rw [stmt_scopes hl.body hbody', Stmt.declaredIn_of_none hproper.body_undeclared]
  exact ⟨⟨d.initial, d.condition, increment', body'⟩,
    .mk hinitial hcondition hbody' hincrement' hscopes₂ (hscopes₃.trans hscopes₂), hi, hc, hn, hb⟩

end ForLoop

end Walks

end TreeWalk
