import TreeWalk.Proofs.Machine.Moment
import TreeWalk.Proofs.Machine.Pervasive
import TreeWalk.Proofs.Machine.Truncation

namespace TreeWalk

namespace Exec

variable {α : Type}

theorem bind_of_ok {β : Type} {act : Exec α} {f : α → Exec β} {m m' : Machine} {a : α}
    (h : act m = .ok a m') : (act >>= f) m = f a m' := by
  show EStateM.bind act f m = _
  rw [EStateM.bind, h]

theorem ok_of_bind {β : Type} {act : Exec α} {f : α → Exec β} {m m₁ : Machine} {b : β}
    (h : (act >>= f) m = .ok b m₁) :
    ∃ a m₂, act m = .ok a m₂ ∧ f a m₂ = .ok b m₁ := by
  change EStateM.bind act f m = _ at h
  unfold EStateM.bind at h
  cases hact : act m with
  | ok a m₂ =>
    rw [hact] at h
    exact ⟨a, m₂, rfl, h⟩
  | error i m₂ =>
    rw [hact] at h
    cases h

/-- Steps after which the machine is where it was, however they end. -/
def Restores (act : Exec α) : Prop :=
  ∀ m, (final (act m)).env = m.env ∧ (final (act m)).depth = m.depth

namespace Restores

theorem bind {β : Type} {act : Exec α} {f : α → Exec β} (h : Restores act)
    (hf : ∀ a, Restores (f a)) : Restores (act >>= f) := by
  intro m
  have hact := h m
  show (final (EStateM.bind act f m)).env = _ ∧ (final (EStateM.bind act f m)).depth = _
  unfold EStateM.bind
  generalize act m = x at hact ⊢
  cases x with
  | ok a m₁ => exact ⟨(hf a m₁).1.trans hact.1, (hf a m₁).2.trans hact.2⟩
  | error i m₁ => exact hact

theorem within {act : Exec α} (env : Env) (h : Restores act) : Restores (within env act) := by
  intro m
  have hact := (h { m with env }).2
  show (final (comeBack m.env (act { m with env }))).env = _ ∧
    (final (comeBack m.env (act { m with env }))).depth = _
  generalize act { m with env } = x at hact ⊢
  cases x <;> exact ⟨rfl, hact⟩

theorem active {act : Exec α} (paren : Token) (h : Restores act) : Restores (active paren act) := by
  intro m
  obtain ⟨henv, hdepth⟩ := h { m with depth := m.depth + 1 }
  simp only [Exec.active]
  split
  all_goals
    next heq =>
    rw [heq] at henv hdepth
    exact ⟨henv, by simp only [final] at hdepth ⊢; omega⟩

theorem write (name : Token) (hops : Option Nat) (value : Value) :
    Restores (write name hops value) := by
  intro m
  unfold Exec.write
  split <;> exact ⟨rfl, rfl⟩

end Restores

theorem restores_pervades : Pervades Restores where
  pure _ _ := ⟨rfl, rfl⟩
  throw _ _ := ⟨rfl, rfl⟩
  bind := .bind
  get _ := ⟨rfl, rfl⟩
  print _ _ := ⟨rfl, rfl⟩
  define _ _ _ := ⟨rfl, rfl⟩
  newFrame _ _ := ⟨rfl, rfl⟩
  identity _ := ⟨rfl, rfl⟩
  newObject _ := ⟨rfl, rfl⟩
  setField _ _ _ _ := ⟨rfl, rfl⟩
  write := .write
  within := .within
  active := .active

theorem Restores.of_ok {act : Exec α} (h : Restores act) {m m' : Machine} {a : α}
    (hok : act m = .ok a m') : m'.env = m.env ∧ m'.depth = m.depth := by
  have hm := h m
  rwa [hok] at hm

theorem eval_restores (setup : Setup) (room : Nat) (e : Expr) : Restores (eval setup room e) :=
  restores_pervades.eval setup room e

theorem exec_restores (setup : Setup) (room : Nat) (s : Stmt) : Restores (exec setup room s) :=
  restores_pervades.exec setup room s

def runIn (setup : Setup) (room : Nat) : Callee → Stmt → Exec Flow
  | .cls _ => exec setup room
  | _ => exec setup (room + 1)

theorem eval_call (setup : Setup) (room : Nat) (e : Expr) (paren : Token) (es : List Expr) :
    eval setup (room + 5) (.call e paren es) = (do
      let f ← eval setup (room + 3) e
      let vs ← es.mapM (eval setup (room + 2))
      call setup (runIn setup room) paren f vs) := by
  conv => lhs; unfold eval
  rfl

theorem call_overflows {setup : Setup} {run : Callee → Stmt → Exec Flow} {paren : Token} {v : Value}
    {vs : List Value} {c : Callee} {m : Machine} (hcallee : callee? setup v = some c)
    (harity : (vs.length : Int) = c.arity) (hlimit : setup.maxDepth ≤ m.depth) :
    call setup run paren v vs m = .error (.error ⟨.stackOverflow, paren⟩) m := by
  simp only [call, hcallee, harity, ne_eq, not_true_eq_false, if_false]
  show (if setup.maxDepth ≤ m.depth then _ else _ : Exec Value) m = _
  rw [if_pos hlimit]
  rfl

end Exec

namespace Moment

open Exec

variable {setup : Setup} {μ μ' : Moment}

/-- The machine at the end of what is evaluated, however it ends. -/
def after (setup : Setup) : Moment → Machine
  | ⟨.expr room e, m⟩ => final (eval setup room e m)
  | ⟨.stmt room s, m⟩ => final (exec setup room s m)
  | ⟨.enter room c arguments, m⟩ => final (enter (exec setup room) c arguments m)
  | ⟨.bind c this, m⟩ => final (Exec.bind c this m)

/-- What a moment leads to, also in trees with statements in the place of expressions and the reverse,
which no program has. -/
inductive Follows (setup : Setup) : Moment → Moment → Prop
  | leads {μ μ' : Moment} : Leads setup μ μ' → Follows setup μ μ'
  | value {room : Nat} {e : Expr} {m : Machine} :
      Follows setup ⟨.stmt (room + 3) (.ofExpr e), m⟩ ⟨.expr (room + 2) e, m⟩
  | back {room : Nat} {e : Expr} {m : Machine} :
      Follows setup ⟨.expr (room + 5) (.ofStmt (.ofExpr e)), m⟩ ⟨.expr (room + 4) e, m⟩
  | condition {room : Nat} {e : Expr} {yes : Stmt} {no : Option Stmt} {m : Machine} :
      Follows setup ⟨.expr (room + 5) (.ofStmt (.branch e yes no)), m⟩ ⟨.expr (room + 3) e, m⟩
  | yes {room : Nat} {e : Expr} {yes : Stmt} {no : Option Stmt} {m m' : Machine} {v : Value} :
      eval setup (room + 3) e m = .ok v m' → v.isTruthy = true →
      Follows setup ⟨.expr (room + 5) (.ofStmt (.branch e yes no)), m⟩
        ⟨.expr (room + 3) (.ofStmt yes), m'⟩
  | no {room : Nat} {e : Expr} {yes no : Stmt} {m m' : Machine} {v : Value} :
      eval setup (room + 3) e m = .ok v m' → v.isTruthy = false →
      Follows setup ⟨.expr (room + 5) (.ofStmt (.branch e yes (some no))), m⟩
        ⟨.expr (room + 3) (.ofStmt no), m'⟩
  | statement {room : Nat} {s : Stmt} {m : Machine} :
      (∀ e, s ≠ .ofExpr e) → (∀ e yes no, s ≠ .branch e yes no) →
      Follows setup ⟨.expr (room + 5) (.ofStmt s), m⟩ ⟨.stmt (room + 4) s, m⟩

/-- A call for which the callee and the arguments are there, as many of them as it takes, and the machine
at that point. -/
inductive Attempts (setup : Setup) : Moment → Token → Callee → List Value → Machine → Prop
  | call {room : Nat} {e : Expr} {paren : Token} {es : List Expr} {m m₁ m₂ : Machine} {v : Value}
      {c : Callee} {vs : List Value} :
      eval setup (room + 3) e m = .ok v m₁ → es.mapM (eval setup (room + 2)) m₁ = .ok vs m₂ →
      callee? setup v = some c → (vs.length : Int) = c.arity →
      Attempts setup ⟨.expr (room + 5) (.call e paren es), m⟩ paren c vs m₂

/-- The machine after a moment is where it was before. -/
theorem after_restored (setup : Setup) (μ : Moment) :
    (μ.after setup).env = μ.machine.env ∧ (μ.after setup).depth = μ.machine.depth := by
  obtain ⟨event, m⟩ := μ
  cases event with
  | expr room e => exact eval_restores setup room e m
  | stmt room s => exact exec_restores setup room s m
  | enter room c vs => exact restores_pervades.enter (exec_restores setup room) c vs m
  | bind c this => exact restores_pervades.bindMethod c this m

section Depth

theorem arguments_restored {room : Nat} {e : Expr} {es : List Expr} {m m₁ m₂ : Machine} {v : Value}
    {vs : List Value} (he : eval setup (room + 3) e m = .ok v m₁)
    (hes : es.mapM (eval setup (room + 2)) m₁ = .ok vs m₂) :
    m₂.env = m.env ∧ m₂.depth = m.depth := by
  have h₁ := (eval_restores setup _ e).of_ok he
  have h₂ := Restores.of_ok (restores_pervades.mapM (eval_restores setup _) es) hes
  exact ⟨h₂.1.trans h₁.1, h₂.2.trans h₁.2⟩

theorem Rounds.restored {test : Exec Value} {body : Exec Flow} (htest : Restores test)
    (hbody : Restores body) {n : Nat} {m m' : Machine} (h : Rounds test body n m m') :
    m'.env = m.env ∧ m'.depth = m.depth := by
  induction h with
  | none => exact ⟨rfl, rfl⟩
  | more _ htest' _ hbody' ih =>
    obtain ⟨henv₁, hdepth₁⟩ := htest.of_ok htest'
    obtain ⟨henv₂, hdepth₂⟩ := hbody.of_ok hbody'
    exact ⟨henv₂.trans (henv₁.trans ih.1), hdepth₂.trans (hdepth₁.trans ih.2)⟩

theorem Leads.depth (h : Leads setup μ μ') :
    μ'.machine.depth = μ.machine.depth ∨ (μ'.machine.depth : Int) ≤ setup.maxDepth := by
  have heval {room : Nat} {e : Expr} {m m' : Machine} {v : Value}
      (he : eval setup room e m = .ok v m') : m'.depth = m.depth :=
    ((eval_restores setup room e).of_ok he).2
  cases h with
  | group | unary | binaryLeft | logicalLeft | assigned | callee | object | owner | expression
  | printed | initializer | condition | returned => exact .inl rfl
  | binaryRight he | field he | bindMethod he => exact .inl (heval he)
  | logicalRight he | yes he | no he => exact .inl (heval he)
  | argument he hes => exact .inl (arguments_restored he hes).2
  | enter _ _ _ hlt | bindInitializer _ _ _ hlt =>
    refine .inr ?_
    simp only [Machine.called, Machine.newObject]
    omega
  | enterInitializer _ _ _ hlt _ hbind =>
    have hdepth := (Restores.of_ok (restores_pervades.bindMethod _ _) hbind).2
    refine .inr ?_
    rw [hdepth]
    simp only [Machine.called, Machine.newObject]
    omega
  | item hitems =>
    exact .inl (Restores.of_ok (restores_pervades.sequence (exec_restores setup _) _) hitems).2
  | statement _ hitems =>
    exact .inl (Restores.of_ok (restores_pervades.sequence (exec_restores setup _) _) hitems).2
  | test hrounds => exact .inl (hrounds.restored (eval_restores setup _ _) (exec_restores setup _ _)).2
  | round hrounds _ he =>
    exact .inl ((heval he).trans
      (hrounds.restored (eval_restores setup _ _) (exec_restores setup _ _)).2)

theorem Follows.depth (h : Follows setup μ μ') :
    μ'.machine.depth = μ.machine.depth ∨ (μ'.machine.depth : Int) ≤ setup.maxDepth := by
  cases h with
  | leads h => exact h.depth
  | value | back | condition | statement => exact .inl rfl
  | yes he | no he => exact .inl ((eval_restores setup _ _).of_ok he).2

/-- At each moment inside, the number of active calls is within the limit, or within what it was at the
start if that was more. -/
theorem depth_le (h : Relation.ReflTransGen (Follows setup) μ μ') :
    (μ'.machine.depth : Int) ≤ max (μ.machine.depth : Int) setup.maxDepth := by
  induction h with
  | refl => omega
  | tail _ hstep ih =>
    have hdepth := hstep.depth
    omega

end Depth

section Calls

variable {paren : Token} {c : Callee} {vs : List Value} {m : Machine}

/-- The call at a moment is a stack overflow at its closing parenthesis. It leads to the callee and the
arguments, and enters nothing. -/
structure Overflows (setup : Setup) (μ : Moment) (paren : Token) (m : Machine) : Prop where
  ends : ∃ room e m₀, μ = ⟨.expr room e, m₀⟩ ∧
    eval setup room e m₀ = .error (.error ⟨.stackOverflow, paren⟩) m
  evaluates : ∀ μ', Follows setup μ μ' → ∃ room e m', μ' = ⟨.expr room e, m'⟩

theorem Attempts.overflows (h : Attempts setup μ paren c vs m) (hlimit : setup.maxDepth ≤ m.depth) :
    Overflows setup μ paren m := by
  obtain @⟨room, e, _, es, m₀, m₁, _, v, _, _, he, hes, hcallee, harity⟩ := h
  constructor
  · refine ⟨room + 5, .call e paren es, m₀, rfl, ?_⟩
    rw [eval_call, bind_of_ok he, bind_of_ok hes]
    exact call_overflows hcallee harity hlimit
  · intro μ' hnext
    have hat {f : Value} {m₂ m₃ : Machine} {ws : List Value}
        (he' : eval setup (room + 3) e m₀ = .ok f m₂)
        (hes' : es.mapM (eval setup (room + 2)) m₂ = .ok ws m₃) : m₃ = m := by
      rw [he] at he'
      cases he'
      rw [hes] at hes'
      cases hes'
      rfl
    cases hnext with
    | leads hleads =>
      cases hleads with
      | callee | argument => exact ⟨_, _, _, rfl⟩
      | enter he' hes' _ hlt | bindInitializer he' hes' _ hlt | enterInitializer he' hes' _ hlt =>
        rw [hat he' hes'] at hlt
        omega

/-- For every tree and in every machine: at the end, whatever it is, the environment and the number of
active calls are those of the start; at each moment inside, that number is within the limit or what it
was at the start; and a call is entered below the limit or overflows. -/
theorem restored_and_bounded (setup : Setup) (μ : Moment) :
    (μ.after setup).env = μ.machine.env ∧ (μ.after setup).depth = μ.machine.depth ∧
      ∀ μ', Relation.ReflTransGen (Follows setup) μ μ' →
        (μ'.machine.depth : Int) ≤ max (μ.machine.depth : Int) setup.maxDepth ∧
        ∀ paren c vs m, Attempts setup μ' paren c vs m →
          if setup.maxDepth ≤ m.depth then Overflows setup μ' paren m
          else (m.called.depth : Int) ≤ setup.maxDepth := by
  refine ⟨(after_restored setup μ).1, (after_restored setup μ).2, fun μ' hinside ↦
    ⟨depth_le hinside, fun paren c vs m h ↦ ?_⟩⟩
  by_cases hlimit : setup.maxDepth ≤ m.depth
  · rw [if_pos hlimit]
    exact h.overflows hlimit
  · rw [if_neg hlimit]
    simp only [Machine.called]
    omega

end Calls

end Moment

end TreeWalk
