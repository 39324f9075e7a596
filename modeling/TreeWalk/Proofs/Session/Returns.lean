import TreeWalk.Proofs.Machine.Activation
import TreeWalk.Proofs.Session.Receiver

namespace TreeWalk

open Exec Frames

def Value.IsCompletion : Value → Prop
  | .completion _ => True
  | _ => False

/-- No frame and no field of a machine holds the outcome of a return. -/
structure Machine.Clear (m : Machine) : Prop where
  bound : ∀ f name v, (m.frames.bindings f).get? name = some v → ¬ v.IsCompletion
  fields : ∀ object name v, (m.fields object).get? name = some v → ¬ v.IsCompletion

namespace Session

variable {setup : Setup} {sources : List String} {μ μ' : Moment} {m m' : Machine}

theorem Proper.not_completion {fs : Frames Value} {v : Value} (h : Proper setup sources fs v) :
    ¬ v.IsCompletion := by
  cases v with
  | completion => exact h.elim
  | scalar | native | function | cls | object => exact id

theorem Sound.clear (h : Sound setup sources m) : m.Clear :=
  ⟨fun f name v hv ↦ (h.bound f name v hv).not_completion,
    fun object name v hv ↦ (h.fields object name v hv).not_completion⟩

theorem Happens.eval_goes (hlawful : setup.Lawful) {room : Nat} {e : Expr}
    (h : Happens setup sources ⟨.expr room e, m⟩) :
    Goes setup sources (eval setup room e) m fun v m' ↦ Proper setup sources m'.frames v := by
  obtain ⟨hm, ⟨v, hv⟩, -⟩ := h.fits hlawful
  exact exprs_go hlawful room hm hv h

theorem Happens.exec_goes (hlawful : setup.Lawful) {room : Nat} {s : Stmt}
    (h : Happens setup sources ⟨.stmt room s, m⟩) :
    Sound setup sources (final (exec setup room s m)) := by
  obtain ⟨hm, ⟨v, hv⟩, -⟩ := h.fits hlawful
  have hgo := stmts_go hlawful room hm hv h
  cases hrun : exec setup room s m with
  | ok flow m' => exact (hgo.ok hrun).1
  | error i m' => exact (hgo.error hrun).1

/-- Before and after an expression or a statement, however it ended, nothing holds the outcome of a return. -/
theorem Happens.clear (hlawful : setup.Lawful) (h : Happens setup sources μ) :
    μ.machine.Clear ∧ (μ.Inline → (μ.after setup).Clear) := by
  refine ⟨(h.fits hlawful).sound.clear, fun hμ ↦ ?_⟩
  obtain ⟨event, m⟩ := μ
  cases event with
  | enter | bind => exact hμ.elim
  | stmt room s => exact (h.exec_goes hlawful).clear
  | expr room e =>
    have hgo := h.eval_goes hlawful
    show Machine.Clear (final (eval setup room e m))
    cases hrun : eval setup room e m with
    | ok v m' => exact (hgo.ok hrun).1.clear
    | error i m' => exact (hgo.error hrun).1.clear

theorem Happens.course (hμ : Happens setup sources μ) (h : μ' ∈ μ.course setup) :
    Happens setup sources μ' := by
  have hreach := Moment.mem_course_iff.mp h
  clear h
  induction hreach with
  | refl => exact hμ
  | tail _ hcontrols ih => exact ih.tail hcontrols.2

theorem Happens.not_misplaced (hlawful : setup.Lawful) (h : Happens setup sources μ) : ¬ μ.Misplaced := by
  obtain ⟨-, ⟨v, hv⟩, -⟩ := h.fits hlawful
  obtain ⟨event, m⟩ := μ
  cases event with
  | expr | enter | bind => exact id
  | stmt room s =>
    cases s with
    | ofExpr e => exact hv.notOfExpr.elim
    | _ => exact id

section Calls

variable {room : Nat}

/-- For every call of a function that is no initializer and that comes to a value: a return in its activation is
the last of the statements and conditions that are evaluated there, its value is the value of the call, and the
machine is what it is behind the return, back where the call was made; without one the value is `nil`. A
statement leaves its activation only by a return of that activation, so after any call in it it goes on. And no
frame and no field ever holds the outcome of a return, nor is one an argument or the value of any expression. -/
theorem returns_leave (hlawful : setup.Lawful) :
    (∀ {room e paren es m m₁ m' identity c v},
      Happens setup sources ⟨.expr (room + 5) (.call e paren es), m⟩ →
      eval setup (room + 3) e m = .ok (.function identity c) m₁ → c.isInitializer = false →
      eval setup (room + 5) (.call e paren es) m = .ok v m' →
      ∃ vs m₂, es.mapM (eval setup (room + 2)) m₁ = .ok vs m₂ ∧
        let activation : Moment := ⟨.enter (room + 1) c vs, m₂.called⟩
        (∀ μ, μ ∈ activation.course setup ↔
          Relation.ReflTransGen (Moment.Controls setup) activation μ) ∧
        (∀ before μ rest, activation.course setup = before ++ μ :: rest → μ.Returns →
          rest = [] ∧ ∃ m₃, μ.Yields setup v m₃ ∧ m' = { m₃ with env := m.env, depth := m.depth }) ∧
        ((∀ μ ∈ activation.course setup, ¬ μ.Returns) → v = .nil)) ∧
    (∀ {room s m flow m'}, Happens setup sources ⟨.stmt room s, m⟩ → exec setup room s m = .ok flow m' →
      (flow = .next ↔ ∀ μ ∈ Moment.course setup ⟨.stmt room s, m⟩, ¬ μ.Returns)) ∧
    (∀ μ, Happens setup sources μ → μ.machine.Clear ∧ (μ.Inline → (μ.after setup).Clear)) ∧
    (∀ {room c arguments m}, Happens setup sources ⟨.enter room c arguments, m⟩ →
      ∀ v ∈ arguments, ¬ v.IsCompletion) ∧
    ∀ {room e m v m'}, Happens setup sources ⟨.expr room e, m⟩ → eval setup room e m = .ok v m' →
      ¬ v.IsCompletion := by
  refine ⟨?_, ?_, fun μ h ↦ h.clear hlawful, ?_, ?_⟩
  · intro room e paren es m m₁ m' identity c v hcall hv hinit h
    obtain ⟨henv, hdepth⟩ := (eval_restores setup _ _).of_ok h
    obtain ⟨vs, m₂, m₃, hvs, harity, hlimit, henter, rfl⟩ := call_ok hv rfl h
    have hmoment := hcall.tail (.enter hv hvs (Int.ofNat.inj harity) hlimit)
    obtain ⟨flow, hends, rfl⟩ :=
      Moment.enter_ends (fun μ hμ ↦ (hmoment.course hμ).not_misplaced hlawful) hinit henter
    refine ⟨vs, m₂, hvs, fun μ ↦ Moment.mem_course_iff, fun before μ rest hlog hμ ↦ ?_, fun hnone ↦ ?_⟩
    · obtain ⟨hrest, w, m₄, rfl, hyields, rfl⟩ := hends.split hlog hμ
      exact ⟨hrest, m₄, hyields, by rw [← henv, ← hdepth]⟩
    · rw [hends.next_iff.mpr hnone]
  · intro room s m flow m' hstmt h
    exact (Moment.exec_ends room s m flow m'
      (fun μ hμ ↦ (hstmt.course (μ := ⟨.stmt room s, m⟩) hμ).not_misplaced hlawful) h).next_iff
  · intro room c arguments m h v hv
    exact ((h.fits hlawful).supplied.1 v hv).not_completion
  · intro room e m v m' h hv
    exact ((h.eval_goes hlawful).ok hv).2.2.2.not_completion

/-- The text `fun f() { for (;;) { if (true) return true; } } f();` and its words. -/
def leaving : String := "fun f() \x7b for (;;) \x7b if (true) return true; \x7d \x7d f();"

def leavingWords : List Token :=
  [⟨.funWord, "fun", .nil, 1⟩, ⟨.identifier, "f", .nil, 1⟩, ⟨.leftParen, "(", .nil, 1⟩,
    ⟨.rightParen, ")", .nil, 1⟩, ⟨.leftBrace, "\x7b", .nil, 1⟩, ⟨.forWord, "for", .nil, 1⟩,
    ⟨.leftParen, "(", .nil, 1⟩, ⟨.semicolon, ";", .nil, 1⟩, ⟨.semicolon, ";", .nil, 1⟩,
    ⟨.rightParen, ")", .nil, 1⟩, ⟨.leftBrace, "\x7b", .nil, 1⟩, ⟨.ifWord, "if", .nil, 1⟩,
    ⟨.leftParen, "(", .nil, 1⟩, ⟨.trueWord, "true", .nil, 1⟩, ⟨.rightParen, ")", .nil, 1⟩,
    ⟨.returnWord, "return", .nil, 1⟩, ⟨.trueWord, "true", .nil, 1⟩, ⟨.semicolon, ";", .nil, 1⟩,
    ⟨.rightBrace, "\x7d", .nil, 1⟩, ⟨.rightBrace, "\x7d", .nil, 1⟩, ⟨.identifier, "f", .nil, 1⟩,
    ⟨.leftParen, "(", .nil, 1⟩, ⟨.rightParen, ")", .nil, 1⟩, ⟨.semicolon, ";", .nil, 1⟩]

theorem ofText_leaving : Scan.ofText leaving = ⟨leavingWords, Scan.endMarker 1, []⟩ := by
  with_unfolding_all rfl

def leavingReturn : Stmt :=
  .returns ⟨.returnWord, "return", .nil, 1⟩ (some (.literal (.bool true)))

def leavingFunction : FunDecl :=
  .mk ⟨.identifier, "f", .nil, 1⟩ []
    [.forLoop .empty (.literal (.bool true)) .empty
      (.block [.branch (.literal (.bool true)) leavingReturn none])]

def leavingCall : Expr := .call (.var ⟨.identifier, "f", .nil, 1⟩ {}) closing []

theorem leaving_accepted : ∃ links, Accepts smallSetup.limits leaving
    ⟨[.function leavingFunction, .expression leavingCall], links, []⟩ := by
  have hp : programOf smallSetup.limits leaving =
      ⟨[.function leavingFunction, .expression leavingCall], []⟩ := by
    rw [programOf, ofText_leaving]
    show Program.ofWords 30 leavingWords (Scan.endMarker 1) = _
    decide +kernel
  exact ⟨_, by rw [ofText_leaving], by rw [hp], by rw [hp]; rfl, rfl⟩

def leavingMachine : Machine :=
  final (topLevel smallSetup (.function leavingFunction) (start smallSetup).ready)

def leavingReturned : Machine := final (eval smallSetup 28 leavingCall leavingMachine)

def leavingClosure : Closure := ⟨leavingFunction, .globals, false⟩

theorem eval_leavingCall :
    eval smallSetup 28 leavingCall leavingMachine = .ok (.ofBool true) leavingReturned :=
  ok_of_outcome (by decide +kernel)

theorem leaving_course : ∃ before m, Moment.course smallSetup
    ⟨.enter 24 leavingClosure [], leavingMachine.called⟩ = before ++ [⟨.stmt 11 leavingReturn, m⟩] :=
  ⟨[_, _, _, _, _, _, _, _, _], _, rfl⟩

/-- The return leaves the loop and the call, and nothing happens behind it. -/
theorem leaving_returns : ∃ before m, Moment.course smallSetup
      ⟨.enter 24 leavingClosure [], leavingMachine.called⟩ = before ++ [⟨.stmt 11 leavingReturn, m⟩] ∧
    Moment.Yields smallSetup ⟨.stmt 11 leavingReturn, m⟩ (.ofBool true) m ∧
    leavingReturned = { m with env := leavingMachine.env, depth := leavingMachine.depth } := by
  obtain ⟨links, ha⟩ := leaving_accepted
  have hlawful : smallSetup.Lawful := fun n hn ↦ absurd hn List.not_mem_nil
  have hfunction : topLevel smallSetup (.function leavingFunction) (start smallSetup).ready =
      .ok () leavingMachine := rfl
  have hcall : Happens smallSetup [leaving] ⟨.expr 28 leavingCall, leavingMachine⟩ :=
    Happens.tail ⟨[], leaving, [], _, [_], _, [], leavingMachine, rfl, ha, rfl,
      (bind_of_ok hfunction).trans rfl, .refl⟩ .expression
  have hcallee : eval smallSetup 26 (.var ⟨.identifier, "f", .nil, 1⟩ {}) leavingMachine =
      .ok (.function 0 leavingClosure) leavingMachine := rfl
  obtain ⟨vs, m₂, hvs, -, hreturns, -⟩ :=
    (@returns_leave smallSetup [leaving] hlawful).1 hcall hcallee rfl eval_leavingCall
  cases hvs
  obtain ⟨before, m, hcourse⟩ := leaving_course
  obtain ⟨-, m₃, hyields, hreturned⟩ := hreturns before _ [] hcourse trivial
  refine ⟨before, m, hcourse, ?_⟩
  cases hyields with
  | value hv =>
    cases hv
    exact ⟨.value rfl, hreturned⟩

end Calls

end Session

end TreeWalk
