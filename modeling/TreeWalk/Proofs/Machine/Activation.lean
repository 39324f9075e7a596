import TreeWalk.Proofs.Machine.Calls

namespace TreeWalk

open Exec

namespace Exec

def sequenceCourse (course : Stmt → Machine → List Moment) (run : Stmt → Exec Flow) :
    List Stmt → Machine → List Moment
  | [], _ => []
  | s :: rest, m =>
    course s m ++
      match run s m with
      | .ok .next m' => sequenceCourse course run rest m'
      | _ => []

def roundsCourse (tested : Machine → Moment) (course : Machine → List Moment) (test : Exec Value)
    (body : Exec Flow) : Nat → Machine → List Moment
  | 0, _ => []
  | rounds + 1, m =>
    tested m ::
      match test m with
      | .ok v m₁ =>
        if v.isTruthy then
          course m₁ ++
            match body m₁ with
            | .ok .next m₂ => roundsCourse tested course test body rounds m₂
            | _ => []
        else []
      | _ => []

/-- The course of a statement. -/
def course (setup : Setup) : Nat → Stmt → Machine → List Moment
  | room + 3, s, m =>
    ⟨.stmt (room + 3) s, m⟩ ::
      match s with
      | .block body => sequenceCourse (course setup room) (exec setup room) body (m.inside m.env .empty)
      | .branch condition yes no =>
        ⟨.expr (room + 1) condition, m⟩ ::
          match eval setup (room + 1) condition m with
          | .ok v m' =>
            if v.isTruthy then course setup (room + 1) yes m'
            else
              match no with
              | some no => course setup (room + 1) no m'
              | none => []
          | _ => []
      | .loop condition body =>
        roundsCourse (fun m ↦ ⟨.expr (room + 1) condition, m⟩) (course setup (room + 1) body)
          (eval setup (room + 1) condition) (exec setup (room + 1) body) setup.limits.rounds m
      | _ => []
  | room, s, m => [⟨.stmt room s, m⟩]

end Exec

namespace Moment

variable {setup : Setup} {μ μ' : Moment}

/-- The course of what is evaluated at a moment. That of an expression is only itself. -/
def course (setup : Setup) : Moment → List Moment
  | ⟨.stmt room s, m⟩ => Exec.course setup room s m
  | ⟨.enter room c arguments, m⟩ =>
    ⟨.enter room c arguments, m⟩ ::
      sequenceCourse (Exec.course setup room) (exec setup room) c.decl.body
        (m.inside c.env (c.parameters arguments))
  | μ => [μ]

/-- What other statements and conditions are evaluated for, in the same activation. -/
def Directs : Moment → Prop
  | ⟨.enter _ _ _, _⟩ | ⟨.stmt _ (.block _), _⟩ | ⟨.stmt _ (.branch _ _ _), _⟩
  | ⟨.stmt _ (.loop _ _), _⟩ => True
  | _ => False

/-- A statement or a condition of an activation, and one to which it leads there. -/
def Controls (setup : Setup) (μ μ' : Moment) : Prop := μ.Directs ∧ μ.Leads setup μ'

def Returns : Moment → Prop
  | ⟨.stmt _ (.returns _ _), _⟩ => True
  | _ => False

/-- The value of a return, `nil` if it has no expression, and the machine in which it leaves. -/
inductive Yields (setup : Setup) : Moment → Value → Machine → Prop
  | bare {room : Nat} {keyword : Token} {m : Machine} :
      Yields setup ⟨.stmt room (.returns keyword none), m⟩ .nil m
  | value {room : Nat} {keyword : Token} {e : Expr} {m m' : Machine} {v : Value} :
      eval setup (room + 1) e m = .ok v m' →
      Yields setup ⟨.stmt (room + 3) (.returns keyword (some e)), m⟩ v m'

def Misplaced : Moment → Prop
  | ⟨.stmt _ (.ofExpr _), _⟩ => True
  | _ => False

section Rounds

variable {test : Exec Value} {body : Exec Flow} {n : Nat} {m m' : Machine}

theorem Rounds.cons {m₁ m₂ : Machine} {v : Value} (hv : test m = .ok v m₁) (htrue : v.isTruthy = true)
    (hbody : body m₁ = .ok .next m₂) (h : Rounds test body n m₂ m') :
    Rounds test body (n + 1) m m' := by
  induction h with
  | none => exact .more .none hv htrue hbody
  | more _ hv' htrue' hbody' ih => exact .more (ih hbody) hv' htrue' hbody'

theorem Rounds.uncons (h : Rounds test body (n + 1) m m') :
    ∃ v m₁ m₂, test m = .ok v m₁ ∧ v.isTruthy = true ∧ body m₁ = .ok .next m₂ ∧
      Rounds test body n m₂ m' := by
  induction n generalizing m' with
  | zero =>
    cases h with
    | more hr hv htrue hbody =>
      cases hr
      exact ⟨_, _, _, hv, htrue, hbody, .none⟩
  | succ n ih =>
    cases h with
    | more hr hv htrue hbody =>
      obtain ⟨v, m₁, m₂, hv₁, htrue₁, hbody₁, hrest⟩ := ih hr
      exact ⟨v, m₁, m₂, hv₁, htrue₁, hbody₁, .more hrest hv htrue hbody⟩

end Rounds

end Moment

namespace Exec

open Moment

section Members

variable {course : Stmt → Machine → List Moment} {run : Stmt → Exec Flow} {m m' : Machine} {μ : Moment}

theorem mem_sequenceCourse {ss : List Stmt} :
    μ ∈ sequenceCourse course run ss m ↔ ∃ before s rest m', ss = before ++ s :: rest ∧
      sequence run before m = .ok .next m' ∧ μ ∈ course s m' := by
  induction ss generalizing m with
  | nil => simp [sequenceCourse]
  | cons s ss ih =>
    rw [sequenceCourse, List.mem_append]
    constructor
    · rintro (h | h)
      · exact ⟨[], s, ss, m, rfl, rfl, h⟩
      · split at h
        · next m₁ hs =>
          obtain ⟨before, s', rest, m', rfl, hbefore, hμ⟩ := ih.mp h
          exact ⟨s :: before, s', rest, m', rfl, (bind_of_ok hs).trans hbefore, hμ⟩
        · cases h
    · rintro ⟨before, s', rest, m', hss, hbefore, hμ⟩
      cases before with
      | nil =>
        cases hss
        cases hbefore
        exact .inl hμ
      | cons s₀ before =>
        cases hss
        obtain ⟨flow, m₁, hs, hrest⟩ := ok_of_bind hbefore
        cases flow with
        | returned v => cases hrest
        | next =>
          rw [hs]
          exact .inr (ih.mpr ⟨before, s', rest, m', rfl, hrest, hμ⟩)

variable {test : Exec Value} {body : Exec Flow} {tested : Machine → Moment}
  {during : Machine → List Moment}

theorem mem_roundsCourse {bound : Nat} :
    μ ∈ roundsCourse tested during test body bound m ↔
      (∃ n m', Rounds test body n m m' ∧ n < bound ∧ μ = tested m') ∨
      ∃ n m₁ v m', Rounds test body n m m₁ ∧ n < bound ∧ test m₁ = .ok v m' ∧ v.isTruthy = true ∧
        μ ∈ during m' := by
  induction bound generalizing m with
  | zero => simp [roundsCourse]
  | succ bound ih =>
    rw [roundsCourse, List.mem_cons]
    constructor
    · rintro (rfl | h)
      · exact .inl ⟨0, m, .none, Nat.succ_pos _, rfl⟩
      · split at h
        · next v m₁ hv =>
          split at h
          · next htrue =>
            rcases List.mem_append.mp h with h | h
            · exact .inr ⟨0, m, v, m₁, .none, Nat.succ_pos _, hv, htrue, h⟩
            · split at h
              · next m₂ hbody =>
                rcases ih.mp h with ⟨n, m', hr, hn, rfl⟩ | ⟨n, m₃, w, m', hr, hn, hw, hw', hμ⟩
                · exact .inl ⟨n + 1, m', .cons hv htrue hbody hr, by omega, rfl⟩
                · exact .inr ⟨n + 1, m₃, w, m', .cons hv htrue hbody hr, by omega, hw, hw', hμ⟩
              · cases h
          · cases h
        · cases h
    · rintro (⟨n, m', hr, hn, rfl⟩ | ⟨n, m₃, w, m', hr, hn, hw, hw', hμ⟩)
      · cases n with
        | zero =>
          cases hr
          exact .inl rfl
        | succ n =>
          obtain ⟨v, m₁, m₂, hv, htrue, hbody, hr⟩ := hr.uncons
          rw [hv]
          dsimp only
          rw [if_pos htrue, hbody]
          exact .inr (List.mem_append_right _ (ih.mpr (.inl ⟨n, m', hr, by omega, rfl⟩)))
      · cases n with
        | zero =>
          cases hr
          rw [hw]
          dsimp only
          rw [if_pos hw']
          exact .inr (List.mem_append_left _ hμ)
        | succ n =>
          obtain ⟨v, m₁, m₂, hv, htrue, hbody, hr⟩ := hr.uncons
          rw [hv]
          dsimp only
          rw [if_pos htrue, hbody]
          refine .inr (List.mem_append_right _ (ih.mpr (.inr ⟨n, m₃, w, m', hr, by omega, hw, hw', hμ⟩)))

end Members

end Exec

namespace Moment

open Relation

variable {setup : Setup} {μ μ' : Moment}

theorem mem_singleton_iff {ν : Moment} (hν : ∀ ν', ¬ ν.Controls setup ν') :
    μ ∈ [ν] ↔ ReflTransGen (Controls setup) ν μ := by
  rw [List.mem_singleton, ReflTransGen.cases_head_iff, eq_comm]
  exact (or_iff_left fun ⟨ν', hleads, _⟩ ↦ hν ν' hleads).symm

theorem mem_course_stmt : ∀ room s m,
    μ ∈ Exec.course setup room s m ↔ ReflTransGen (Controls setup) ⟨.stmt room s, m⟩ μ
  | 0, s, m | 1, s, m | 2, s, m => mem_singleton_iff fun _ h ↦ nomatch h.2
  | room + 3, s, m => by
    have hexpr (e : Expr) (m' : Machine) :
        μ = ⟨.expr (room + 1) e, m'⟩ ↔ ReflTransGen (Controls setup) ⟨.expr (room + 1) e, m'⟩ μ :=
      List.mem_singleton.symm.trans (mem_singleton_iff fun _ h ↦ h.1)
    cases s with
    | block body =>
      change μ ∈ _ :: sequenceCourse _ _ _ _ ↔ _
      rw [List.mem_cons, ReflTransGen.cases_head_iff, eq_comm, mem_sequenceCourse]
      refine or_congr Iff.rfl ⟨?_, ?_⟩
      · rintro ⟨before, s, rest, m', rfl, hbefore, hμ⟩
        exact ⟨_, ⟨trivial, .item hbefore⟩, (mem_course_stmt room s m').mp hμ⟩
      · rintro ⟨ν, ⟨-, hleads⟩, hν⟩
        cases hleads with
        | item hbefore => exact ⟨_, _, _, _, rfl, hbefore, (mem_course_stmt room _ _).mpr hν⟩
    | branch condition yes no =>
      rw [Exec.course, List.mem_cons, ReflTransGen.cases_head_iff, eq_comm, List.mem_cons, hexpr]
      refine or_congr Iff.rfl ⟨?_, ?_⟩
      · rintro (h | h)
        · exact ⟨_, ⟨trivial, .condition⟩, h⟩
        · split at h
          · next v m' hv =>
            split at h
            · next htrue => exact ⟨_, ⟨trivial, .yes hv htrue⟩, (mem_course_stmt (room + 1) _ _).mp h⟩
            · next hfalse =>
              cases no with
              | none => cases h
              | some no =>
                exact ⟨_, ⟨trivial, .no hv (by simpa using hfalse)⟩, (mem_course_stmt (room + 1) _ _).mp h⟩
          · cases h
      · rintro ⟨ν, ⟨-, hleads⟩, hν⟩
        cases hleads with
        | condition => exact .inl hν
        | yes hv htrue =>
          rw [hv]
          dsimp only
          rw [if_pos htrue]
          exact .inr ((mem_course_stmt (room + 1) _ _).mpr hν)
        | no hv hfalse =>
          rw [hv]
          dsimp only
          rw [if_neg (by simp [hfalse])]
          exact .inr ((mem_course_stmt (room + 1) _ _).mpr hν)
    | loop condition body =>
      change μ ∈ _ :: roundsCourse _ _ _ _ _ _ ↔ _
      rw [List.mem_cons, ReflTransGen.cases_head_iff, eq_comm, mem_roundsCourse]
      refine or_congr Iff.rfl ⟨?_, ?_⟩
      · rintro (⟨n, m', hr, hn, rfl⟩ | ⟨n, m₁, v, m', hr, hn, hv, htrue, hμ⟩)
        · exact ⟨_, ⟨trivial, .test hr hn⟩, .refl⟩
        · exact ⟨_, ⟨trivial, .round hr hn hv htrue⟩, (mem_course_stmt (room + 1) _ _).mp hμ⟩
      · rintro ⟨ν, ⟨-, hleads⟩, hν⟩
        cases hleads with
        | test hr hn => exact .inl ⟨_, _, hr, hn, (hexpr _ _).mpr hν⟩
        | round hr hn hv htrue =>
          exact .inr ⟨_, _, _, _, hr, hn, hv, htrue, (mem_course_stmt (room + 1) _ _).mpr hν⟩
    | _ => exact mem_singleton_iff fun _ h ↦ h.1

theorem mem_course_iff : μ' ∈ μ.course setup ↔ ReflTransGen (Controls setup) μ μ' := by
  obtain ⟨event, m⟩ := μ
  cases event with
  | expr | bind => exact mem_singleton_iff fun _ h ↦ h.1
  | stmt room s => exact mem_course_stmt room s m
  | enter room c arguments =>
    change μ' ∈ _ :: sequenceCourse _ _ _ _ ↔ _
    rw [List.mem_cons, ReflTransGen.cases_head_iff, eq_comm, mem_sequenceCourse]
    refine or_congr Iff.rfl ⟨?_, ?_⟩
    · rintro ⟨before, s, rest, m', hbody, hbefore, hμ⟩
      exact ⟨_, ⟨trivial, .statement hbody hbefore⟩, (mem_course_stmt room s m').mp hμ⟩
    · rintro ⟨ν, ⟨-, hleads⟩, hν⟩
      cases hleads with
      | statement hbody hbefore =>
        exact ⟨_, _, _, _, hbody, hbefore, (mem_course_stmt room _ _).mpr hν⟩

section Ends

/-- How an activation ends with its course: without a return and going on, or with a return as the last and its
value. After that return nothing changed but that the environment is back. -/
inductive Ends (setup : Setup) (env : Env) : List Moment → Flow → Machine → Prop
  | next {course : List Moment} {m : Machine} :
      (∀ μ ∈ course, ¬ μ.Returns) → Ends setup env course .next m
  | returned {course : List Moment} {μ : Moment} {v : Value} {m : Machine} :
      (∀ μ' ∈ course, ¬ μ'.Returns) → μ.Returns → μ.Yields setup v m →
      Ends setup env (course ++ [μ]) (.returned v) { m with env }

namespace Ends

variable {env : Env} {course before : List Moment} {flow : Flow} {m : Machine}

theorem append (h : Ends setup env course flow m) (hbefore : ∀ μ ∈ before, ¬ μ.Returns) :
    Ends setup env (before ++ course) flow m := by
  have hall {course : List Moment} (h : ∀ μ ∈ course, ¬ μ.Returns) :
      ∀ μ ∈ before ++ course, ¬ μ.Returns :=
    fun μ hμ ↦ (List.mem_append.mp hμ).elim (hbefore μ) (h μ)
  cases h with
  | next h => exact .next (hall h)
  | returned h hreturns hyields =>
    rw [← List.append_assoc]
    exact .returned (hall h) hreturns hyields

theorem cons (h : Ends setup env course flow m) (hμ : ¬ μ.Returns) :
    Ends setup env (μ :: course) flow m := by
  have hall : ∀ μ' ∈ [μ], ¬ μ'.Returns := fun _ h ↦ List.mem_singleton.mp h ▸ hμ
  exact h.append hall

theorem within (h : Ends setup env course flow m) (env' : Env) :
    Ends setup env' course flow { m with env := env' } := by
  cases h with
  | next h => exact .next h
  | returned h hreturns hyields => exact (.returned h hreturns hyields : Ends setup env' _ _ _)

theorem single (hμ : ¬ μ.Returns) : Ends setup env [μ] .next m :=
  .next fun _ h ↦ List.mem_singleton.mp h ▸ hμ

theorem next_iff (h : Ends setup env course flow m) : flow = .next ↔ ∀ μ ∈ course, ¬ μ.Returns := by
  cases h with
  | next h => exact iff_of_true rfl h
  | @returned course μ v m h hμ =>
    exact iff_of_false (by simp) fun hnone ↦ hnone μ (List.mem_append_right _ (.head _)) hμ

end Ends

variable {run : Stmt → Exec Flow} {course : Stmt → Machine → List Moment} {env : Env} {m m' : Machine}
  {flow : Flow}

theorem sequence_ends (ss : List Stmt)
    (h : ∀ before s rest, ss = before ++ s :: rest → ∀ m₁ flow m₂,
      sequence run before m = .ok .next m₁ → run s m₁ = .ok flow m₂ →
      Ends setup env (course s m₁) flow m₂)
    (hrun : sequence run ss m = .ok flow m') : Ends setup env (sequenceCourse course run ss m) flow m' := by
  induction ss generalizing m with
  | nil =>
    cases hrun
    exact .next fun _ h ↦ by cases h
  | cons s ss ih =>
    obtain ⟨flow₁, m₁, hs, hrest⟩ := ok_of_bind hrun
    have hends := h [] s ss rfl m flow₁ m₁ rfl hs
    rw [sequenceCourse, hs]
    cases flow₁ with
    | returned v =>
      cases hrest
      rw [List.append_nil]
      exact hends
    | next =>
      refine Ends.append (ih (fun before s' rest hss m₂ flow₂ m₃ hbefore hs' ↦ ?_) hrest) (hends.next_iff.mp rfl)
      exact h (s :: before) s' rest (by rw [hss]; rfl) m₂ flow₂ m₃ ((bind_of_ok hs).trans hbefore) hs'

theorem repeatWhile_ends {test : Exec Value} {body : Exec Flow} {tested : Machine → Moment}
    {during : Machine → List Moment} (htested : ∀ m, ¬ (tested m).Returns) (rounds : Nat)
    (h : ∀ n m₁ v m₂ flow m₃, Rounds test body n m m₁ → n < rounds → test m₁ = .ok v m₂ →
      v.isTruthy = true → body m₂ = .ok flow m₃ → Ends setup env (during m₂) flow m₃)
    (hrun : repeatWhile test body rounds m = .ok flow m') :
    Ends setup env (roundsCourse tested during test body rounds m) flow m' := by
  induction rounds generalizing m with
  | zero => cases hrun
  | succ rounds ih =>
    obtain ⟨v, m₁, hv, hrest⟩ := ok_of_bind hrun
    rw [roundsCourse, hv]
    refine Ends.cons ?_ (htested m)
    dsimp only
    split at hrest
    · next htrue =>
      obtain ⟨flow₁, m₂, hbody, hrest⟩ := ok_of_bind hrest
      have hends := h 0 m v m₁ flow₁ m₂ .none (Nat.succ_pos _) hv htrue hbody
      rw [if_pos htrue, hbody]
      cases flow₁ with
      | returned w =>
        cases hrest
        rw [List.append_nil]
        exact hends
      | next =>
        refine Ends.append (ih (fun n m₃ w m₄ flow₂ m₅ hr hn ↦ ?_) hrest) (hends.next_iff.mp rfl)
        exact h (n + 1) m₃ w m₄ flow₂ m₅ (.cons hv htrue hbody hr) (Nat.succ_lt_succ hn)
    · next hfalse =>
      cases hrest
      rw [if_neg hfalse]
      exact .next fun _ h ↦ by cases h

def GoesOn (act : Exec Flow) : Prop := ∀ m flow m', act m = .ok flow m' → flow = .next

namespace GoesOn

theorem pure : GoesOn (pure .next) := fun _ _ _ h ↦ by
  cases h
  rfl

theorem bind {α : Type} {act : Exec α} {f : α → Exec Flow} (hf : ∀ a, GoesOn (f a)) :
    GoesOn (act >>= f) := fun _ flow m' h ↦ by
  obtain ⟨a, m₁, -, hrest⟩ := ok_of_bind h
  exact hf a m₁ flow m' hrest

theorem ends {act : Exec Flow} (hact : GoesOn act) (h : act m = .ok flow m') (hμ : ¬ μ.Returns) :
    Ends setup env [μ] flow m' := by
  cases hact m flow m' h
  exact .single hμ

end GoesOn

def StmtsEnd (setup : Setup) (room : Nat) : Prop :=
  ∀ s m flow m', (∀ μ ∈ Exec.course setup room s m, ¬ μ.Misplaced) → exec setup room s m = .ok flow m' →
    Ends setup m.env (Exec.course setup room s m) flow m'

theorem statements_end {room : Nat} {ss : List Stmt} (hstmts : StmtsEnd setup room)
    (hplain : ∀ μ ∈ sequenceCourse (Exec.course setup room) (exec setup room) ss m, ¬ μ.Misplaced)
    (h : sequence (exec setup room) ss m = .ok flow m') :
    Ends setup m.env (sequenceCourse (Exec.course setup room) (exec setup room) ss m) flow m' := by
  refine sequence_ends ss (fun before s rest hss m₁ flow₁ m₂ hbefore hs ↦ ?_) h
  rw [← (Restores.of_ok (restores_pervades.sequence (exec_restores setup room) before) hbefore).1]
  refine hstmts s m₁ flow₁ m₂ (fun μ hμ ↦ hplain μ ?_) hs
  exact mem_sequenceCourse.mpr ⟨before, s, rest, m₁, hss, hbefore, hμ⟩

/-- A statement that ends without an interrupt returns if its course does, and otherwise goes on. -/
theorem exec_ends : ∀ room s m flow m', (∀ μ ∈ Exec.course setup room s m, ¬ μ.Misplaced) →
    exec setup room s m = .ok flow m' → Ends setup m.env (Exec.course setup room s m) flow m'
  | 0, _, _, _, _, _, h | 1, _, _, _, _, _, h | 2, _, _, _, _, _, h => by
    unfold exec at h
    cases h
  | room + 3, s, m, flow, m', hplain, h => by
    have hself : (⟨.stmt (room + 3) s, m⟩ : Moment) ∈ Exec.course setup (room + 3) s m := .head _
    unfold exec at h
    cases s with
    | empty => exact GoesOn.pure.ends h id
    | expression e => exact (GoesOn.bind fun _ ↦ .pure).ends h id
    | print e => exact (GoesOn.bind fun _ ↦ .bind fun _ ↦ .pure).ends h id
    | var name initializer =>
      cases initializer with
      | none => exact (GoesOn.bind fun _ ↦ .pure).ends h id
      | some e => exact (GoesOn.bind fun _ ↦ .bind fun _ ↦ .pure).ends h id
    | block body =>
      change comeBack m.env (sequence (exec setup room) body (m.inside m.env .empty)) = .ok flow m' at h
      cases hbody : sequence (exec setup room) body (m.inside m.env .empty) with
      | error i m₁ =>
        rw [hbody] at h
        cases h
      | ok flow₁ m₁ =>
        rw [hbody] at h
        cases h
        have hends := statements_end (exec_ends room) (fun μ hμ ↦ hplain μ (.tail _ hμ)) hbody
        exact (hends.within m.env).cons id
    | branch condition yes no =>
      obtain ⟨v, m₁, hv, h⟩ := ok_of_bind h
      rw [Exec.course] at hplain ⊢
      refine Ends.cons (Ends.cons ?_ id) id
      rw [← ((eval_restores setup _ _).of_ok hv).1]
      rw [hv] at hplain ⊢
      dsimp only at hplain ⊢
      split at h
      · next htrue =>
        rw [if_pos htrue] at hplain ⊢
        exact exec_ends (room + 1) _ _ _ _ (fun μ hμ ↦ hplain μ (.tail _ (.tail _ hμ))) h
      · next hfalse =>
        rw [if_neg hfalse] at hplain ⊢
        cases no with
        | none =>
          cases h
          exact .next fun _ h ↦ by cases h
        | some no => exact exec_ends (room + 1) _ _ _ _ (fun μ hμ ↦ hplain μ (.tail _ (.tail _ hμ))) h
    | loop condition body =>
      refine (repeatWhile_ends (fun _ ↦ id) _ (fun n m₁ v m₂ flow₁ m₃ hr hn hv htrue hbody ↦ ?_) h).cons id
      rw [← (hr.restored (eval_restores setup _ _) (exec_restores setup _ _)).1,
        ← ((eval_restores setup _ _).of_ok hv).1]
      refine exec_ends (room + 1) body m₂ flow₁ m₃ (fun μ hμ ↦ hplain μ (.tail _ ?_)) hbody
      exact mem_roundsCourse.mpr (.inr ⟨n, m₁, v, m₂, hr, hn, hv, htrue, hμ⟩)
    | function d => exact (GoesOn.bind fun _ ↦ .bind fun _ ↦ .bind fun _ ↦ .pure).ends h id
    | returns keyword value =>
      have hnone : ∀ μ ∈ ([] : List Moment), ¬ μ.Returns := fun _ h ↦ by cases h
      cases value with
      | none =>
        cases h
        exact Ends.returned (m := m) (μ := ⟨.stmt (room + 3) _, m⟩) hnone trivial .bare
      | some e =>
        obtain ⟨v, m₁, hv, h⟩ := ok_of_bind h
        cases h
        rw [← ((eval_restores setup _ _).of_ok hv).1]
        exact Ends.returned (m := m') (μ := ⟨.stmt (room + 3) _, m⟩) hnone trivial (.value hv)
    | cls name methods => exact (GoesOn.bind fun _ ↦ .bind fun _ ↦ .bind fun _ ↦ .pure).ends h id
    | ofExpr e => exact absurd trivial (hplain _ hself)
    | unknown kind => cases h

/-- The value of a call to a function that is no initializer is that of the return at the end of its course, or
`nil` if it goes on to the end. -/
theorem enter_ends {room : Nat} {c : Closure} {arguments : List Value} {v : Value}
    (hplain : ∀ μ ∈ Moment.course setup ⟨.enter room c arguments, m⟩, ¬ μ.Misplaced)
    (hinit : c.isInitializer = false) (h : enter (exec setup room) c arguments m = .ok v m') :
    ∃ flow, Ends setup m.env (Moment.course setup ⟨.enter room c arguments, m⟩) flow m' ∧
      v = match flow with | .next => .nil | .returned v => v := by
  obtain ⟨flow, m₁, hbody, rfl, hv⟩ := enter_ok h
  rw [if_neg (by simp [hinit])] at hv
  refine ⟨flow, ?_, hv⟩
  have hends := statements_end (exec_ends room) (fun μ hμ ↦ hplain μ (.tail _ hμ)) hbody
  exact (hends.within m.env).cons id

/-- A return in a course is at its end, and says what it comes to. -/
theorem Ends.split {log before rest : List Moment} (h : Ends setup env log flow m)
    (hlog : log = before ++ μ :: rest) (hμ : μ.Returns) :
    rest = [] ∧ ∃ v m₁, flow = .returned v ∧ μ.Yields setup v m₁ ∧ m = { m₁ with env } := by
  cases h with
  | next h => exact absurd hμ (h μ (by simp [hlog]))
  | @returned log ν v m₁ h hν hyields =>
    rcases List.eq_nil_or_concat rest with rfl | ⟨rest, ρ, rfl⟩
    · obtain ⟨rfl, hlast⟩ := List.append_inj' hlog rfl
      cases hlast
      exact ⟨rfl, v, m₁, rfl, hyields, rfl⟩
    · rw [List.concat_eq_append, ← List.cons_append, ← List.append_assoc] at hlog
      obtain ⟨rfl, -⟩ := List.append_inj' hlog rfl
      exact absurd hμ (h μ (by simp))

end Ends

end Moment

end TreeWalk
