import TreeWalk.Proofs.Machine.Lies
import TreeWalk.Proofs.Machine.Restoration

namespace TreeWalk

/-- A preorder on stores in which new frames do not matter. -/
class Frames.Enduring {α : Type} (R : Frames α → Frames α → Prop) : Prop where
  refl (fs : Frames α) : R fs fs
  trans {fs fs₁ fs' : Frames α} : R fs fs₁ → R fs₁ fs' → R fs fs'
  push (fs : Frames α) (b : Bindings α) : R fs (fs.push b)

open Frames

namespace Exec

variable {α β : Type} {R : Frames Value → Frames Value → Prop} {fs : Frames Value} {act : Exec α}
  {f : α → Exec β} {m m' : Machine} {a : α}

/-- At the end of some steps, however they end, the store is in a relation to some store. -/
def Upholds (R : Frames Value → Frames Value → Prop) (fs : Frames Value) (act : Exec α) (m : Machine) :
    Prop :=
  R fs (final (act m)).frames

theorem define_upholds {name : String} {value : Value}
    (h : R m.frames (m.frames.define m.env.frame name value)) :
    Upholds R m.frames (define name value) m := h

namespace Upholds

theorem behind (hact : act m = .ok a m') (h : Upholds R fs (f a) m') :
    Upholds R fs (act >>= f) m := by
  rw [Upholds, bind_of_ok hact]
  exact h

theorem within {env : Env} (h : Upholds R fs act { m with env }) :
    Upholds R fs (within env act) m := by
  unfold Upholds at h ⊢
  show R fs (final (comeBack m.env (act { m with env }))).frames
  generalize act { m with env } = x at h ⊢
  cases x <;> exact h

theorem active {paren : Token} (h : Upholds R fs act m.called) :
    Upholds R fs (active paren act) m := by
  unfold Upholds at h ⊢
  show R fs (final (endCall paren (act m.called))).frames
  generalize act m.called = x at h ⊢
  cases x with
  | ok => exact h
  | error i => cases i <;> exact h

theorem inside {env : Env} {b : Bindings Value} (h : Upholds R fs act (m.inside env b)) :
    Upholds R fs (do
      let frame ← newFrame b
      Exec.within (env.inside frame) act) m :=
  behind rfl (within h)

end Upholds

variable [Enduring R]

namespace Upholds

theorem still (h : (final (act m)).frames = fs) : Upholds R fs act m := by
  rw [Upholds, h]
  exact Enduring.refl _

theorem bind (h : Upholds R fs act m)
    (hf : ∀ a m', act m = .ok a m' → Upholds R m'.frames (f a) m') :
    Upholds R fs (act >>= f) m := by
  unfold Upholds at h ⊢
  show R fs (final (EStateM.bind act f m)).frames
  unfold EStateM.bind
  cases hact : act m with
  | ok a m' =>
    rw [hact] at h
    exact Enduring.trans h (hf a m' hact)
  | error i m' =>
    rw [hact] at h
    exact h

theorem mapM {γ : Type} {f : γ → Exec β} (as : List γ)
    (hf : ∀ before a rest, as = before ++ a :: rest → ∀ bs m', before.mapM f m = .ok bs m' →
      Upholds R m'.frames (f a) m') : Upholds R m.frames (as.mapM f) m := by
  induction as generalizing m with
  | nil => exact .still rfl
  | cons a as ih =>
    rw [List.mapM_cons]
    refine (hf [] a as rfl [] m rfl).bind fun b m₁ hb ↦ ?_
    refine (ih fun before a' rest has bs m' hbs ↦ ?_).bind fun _ _ _ ↦ .still rfl
    refine hf (a :: before) a' rest (by rw [has]; rfl) (b :: bs) m' ?_
    rw [List.mapM_cons, bind_of_ok hb, bind_of_ok hbs]
    rfl

theorem mapM_item {γ : Type} {f : γ → Exec β} {before rest : List γ} {a : γ} {bs : List β}
    (hbefore : before.mapM f m = .ok bs m') (ha : Upholds R fs (f a) m')
    (h : ∀ before' a' rest', before ++ a :: rest = before' ++ a' :: rest' → ∀ bs m',
      before'.mapM f m = .ok bs m' → Upholds R m'.frames (f a') m') :
    Upholds R fs ((before ++ a :: rest).mapM f) m := by
  rw [List.mapM_append]
  refine .behind hbefore (Upholds.bind ?_ fun _ _ _ ↦ .still rfl)
  rw [List.mapM_cons]
  refine ha.bind fun b m₁ hb ↦ (Upholds.mapM rest ?_).bind fun _ _ _ ↦ .still rfl
  intro before' a' rest' hrest bs' m₂ hbs'
  refine h (before ++ a :: before') a' rest' (by simp [hrest]) (bs ++ b :: bs') m₂ ?_
  rw [List.mapM_append, bind_of_ok hbefore, List.mapM_cons]
  refine (bind_of_ok ?_).trans rfl
  rw [bind_of_ok hb, bind_of_ok hbs']
  rfl

end Upholds

theorem upholds_inherited (R : Frames Value → Frames Value → Prop) [Enduring R] :
    Inherits fun {α} (act : Exec α) ↦ ∀ m, Upholds R m.frames act m where
  pure _ _ := .still rfl
  throw _ _ := .still rfl
  bind h hf m := (h m).bind fun a m' _ ↦ hf a m'
  get _ := .still rfl
  print _ _ := .still rfl
  newFrame b m := Enduring.push m.frames b
  identity _ := .still rfl
  newObject _ := .still rfl
  setField _ _ _ _ := .still rfl
  within env h m := .within (h { m with env })
  active _ h m := .active (h m.called)

theorem write_upholds {name : Token} {hops : Option Nat} {value : Value}
    (h : ∀ f, m.target name hops = .ok f → R m.frames (m.frames.define f name.lexeme value)) :
    Upholds R m.frames (write name hops value) m := by
  unfold Upholds write
  split
  · next f hf => exact h f hf
  · exact Enduring.refl _

section Lists

variable {run : Stmt → Exec Flow}

theorem sequence_append {ss rest : List Stmt} (h : sequence run ss m = .ok .next m') :
    sequence run (ss ++ rest) m = sequence run rest m' := by
  induction ss generalizing m with
  | nil =>
    cases h
    rfl
  | cons s ss ih =>
    cases hs : run s m with
    | error i m₁ =>
      simp only [sequence, Bind.bind, EStateM.bind, hs] at h
      cases h
    | ok flow m₁ =>
      have hrest := (bind_of_ok hs).symm.trans h
      cases flow with
      | next => exact (bind_of_ok hs).trans (ih hrest)
      | returned v => cases hrest

theorem sequence_upholds (ss : List Stmt)
    (h : ∀ before s rest, ss = before ++ s :: rest → ∀ m', sequence run before m = .ok .next m' →
      Upholds R m'.frames (run s) m') : Upholds R m.frames (sequence run ss) m := by
  induction ss generalizing m with
  | nil => exact .still rfl
  | cons s ss ih =>
    refine (h [] s ss rfl m rfl).bind fun flow m₁ hs ↦ ?_
    cases flow with
    | returned v => exact .still rfl
    | next =>
      refine ih fun before s' rest hss m' hbefore ↦ ?_
      refine h (s :: before) s' rest (by rw [hss]; rfl) m' ?_
      exact (bind_of_ok hs).trans hbefore

theorem sequence_upholds_item {before rest : List Stmt} {s : Stmt}
    (hbefore : sequence run before m = .ok .next m') (hs : Upholds R fs (run s) m')
    (h : ∀ before' s' rest', before ++ s :: rest = before' ++ s' :: rest' → ∀ m',
      sequence run before' m = .ok .next m' → Upholds R m'.frames (run s') m') :
    Upholds R fs (sequence run (before ++ s :: rest)) m := by
  rw [Upholds, sequence_append hbefore]
  refine hs.bind fun flow m₁ hrun ↦ ?_
  cases flow with
  | returned v => exact .still rfl
  | next =>
    refine sequence_upholds rest fun before' s' rest' hrest m₂ hm₂ ↦ ?_
    refine h (before ++ s :: before') s' rest' (by simp [hrest]) m₂ ?_
    rw [sequence_append hbefore]
    exact (bind_of_ok hrun).trans hm₂

end Lists

section Rounds

variable {test : Exec Value} {body : Exec Flow} {n : Nat}

open Moment

theorem repeatWhile_rounds (h : Rounds test body n m m') (rounds : Nat) :
    repeatWhile test body (n + rounds) m = repeatWhile test body rounds m' := by
  induction h generalizing rounds with
  | none => rw [Nat.zero_add]
  | @more n m m₁ m₂ m₃ v _ htest htrue hbody ih =>
    rw [Nat.add_assoc, ih, Nat.add_comm 1 rounds, repeatWhile, bind_of_ok htest, if_pos htrue,
      bind_of_ok hbody]

section Bounded

variable {m₀ : Machine} {bound : Nat} {v : Value}
  (htest : ∀ n m, Rounds test body n m₀ m → n < bound → Upholds R m.frames test m)
  (hbody : ∀ n m v m', Rounds test body n m₀ m → n < bound → test m = .ok v m' →
    v.isTruthy = true → Upholds R m'.frames body m')
include htest hbody

theorem repeatWhile_upholds : ∀ rounds n m, n + rounds = bound → Rounds test body n m₀ m →
    Upholds R m.frames (repeatWhile test body rounds) m
  | 0, _, _, _, _ => .still rfl
  | rounds + 1, n, m, hn, hr => by
    refine (htest n m hr (by omega)).bind fun v m₁ hv ↦ ?_
    by_cases htrue : v.isTruthy = true
    · rw [if_pos htrue]
      refine (hbody n m v m₁ hr (by omega) hv htrue).bind fun flow m₂ hflow ↦ ?_
      cases flow with
      | returned w => exact .still rfl
      | next => exact repeatWhile_upholds rounds (n + 1) m₂ (by omega) (.more hr hv htrue hflow)
    · rw [if_neg htrue]
      exact .still rfl

theorem round_upholds (hr : Rounds test body n m₀ m) (hn : n < bound) (hv : test m = .ok v m')
    (htrue : v.isTruthy = true) (h : Upholds R fs body m') :
    Upholds R fs (repeatWhile test body bound) m₀ := by
  obtain ⟨rounds, rfl⟩ : ∃ rounds, bound = n + (rounds + 1) := ⟨bound - (n + 1), by omega⟩
  rw [Upholds, repeatWhile_rounds hr]
  refine Upholds.behind hv ?_
  rw [if_pos htrue]
  refine h.bind fun flow m₂ hflow ↦ ?_
  cases flow with
  | returned w => exact .still rfl
  | next =>
    exact repeatWhile_upholds htest hbody rounds (n + 1) m₂ (by omega) (.more hr hv htrue hflow)

theorem test_upholds (hr : Rounds test body n m₀ m) (hn : n < bound) (h : Upholds R fs test m) :
    Upholds R fs (repeatWhile test body bound) m₀ := by
  by_cases hround : ∃ v m', test m = .ok v m' ∧ v.isTruthy = true
  · obtain ⟨v, m', hv, htrue⟩ := hround
    rw [Upholds, hv] at h
    exact round_upholds htest hbody hr hn hv htrue (Enduring.trans h (hbody n m v m' hr hn hv htrue))
  · obtain ⟨rounds, rfl⟩ : ∃ rounds, bound = n + (rounds + 1) := ⟨bound - (n + 1), by omega⟩
    rw [Upholds, repeatWhile_rounds hr]
    refine Upholds.bind h fun v m₁ hv ↦ ?_
    rw [if_neg fun htrue ↦ hround ⟨v, m₁, hv, htrue⟩]
    exact .still rfl

end Bounded

end Rounds

theorem enter_eq (run : Stmt → Exec Flow) (c : Closure) (arguments : List Value) :
    enter run c arguments = (do
      let frame ← newFrame (c.parameters arguments)
      within (c.env.inside frame) (sequence run c.decl.body)) >>= fun flow ↦ do
        if c.isInitializer then ofFit ((← get).frames.getAt c.env 0 "this")
        else
          match flow with
          | .next => return .nil
          | .returned v => return v := by
  rw [bind_assoc]
  rfl

theorem enter_upholds {run : Stmt → Exec Flow} {c : Closure} {arguments : List Value}
    (h : Upholds R fs (sequence run c.decl.body) (m.inside c.env (c.parameters arguments))) :
    Upholds R fs (enter run c arguments) m := by
  rw [enter_eq]
  refine (Upholds.inside h).bind fun flow m' _ ↦ ?_
  split
  · exact (upholds_inherited R).bind (upholds_inherited R).get
      (fun _ ↦ (upholds_inherited R).ofFit _) m'
  · cases flow <;> exact .still rfl

theorem call_active {setup : Setup} {run : Callee → Stmt → Exec Flow} {paren : Token} {v : Value}
    {vs : List Value} {c : Callee} (hcallee : callee? setup v = some c)
    (harity : (vs.length : Int) = c.arity) (hdepth : (m.depth : Int) < setup.maxDepth) :
    call setup run paren v vs m = active paren (c.apply (run c) vs) m := by
  simp only [call, hcallee, harity, ne_eq, not_true_eq_false, if_false]
  show (if setup.maxDepth ≤ m.depth then _ else _ : Exec Value) m = _
  rw [if_neg (Int.not_le.mpr hdepth)]

theorem call_upholds {setup : Setup} {run : Callee → Stmt → Exec Flow} {paren : Token} {v : Value}
    {vs : List Value}
    (h : ∀ c, callee? setup v = some c → (vs.length : Int) = c.arity →
      (m.depth : Int) < setup.maxDepth → Upholds R m.frames (c.apply (run c) vs) m.called) :
    Upholds R m.frames (call setup run paren v vs) m := by
  unfold call
  cases hcallee : callee? setup v with
  | none => exact .still rfl
  | some c =>
    dsimp only
    by_cases harity : (vs.length : Int) = c.arity
    · rw [if_neg (not_not.mpr harity)]
      refine .behind rfl ?_
      by_cases hdepth : setup.maxDepth ≤ m.depth
      · rw [if_pos hdepth]
        exact .still rfl
      · rw [if_neg hdepth]
        exact .active (h c hcallee harity (Int.not_le.mp hdepth))
    · rw [if_pos harity]
      exact .still rfl

theorem field?_eq {object : Nat} {name : String} :
    field? object name m = .ok ((m.fields object).get? name) m := rfl

theorem getProperty_method {object : Nat} {info : ClassInfo} {name : Token} {c : Closure}
    (hnone : (m.fields object).get? name.lexeme = none)
    (hc : info.methods.get? name.lexeme = some c) :
    getProperty (.object object info) name m = (do
      let bound ← Exec.bind c (.object object info)
      return Value.function (← identity) bound) m := by
  unfold getProperty
  simp only [bind_of_ok field?_eq, hnone, hc]

theorem getProperty_undefined {object : Nat} {info : ClassInfo} {name : Token}
    (hnone : (m.fields object).get? name.lexeme = none)
    (hc : info.methods.get? name.lexeme = none) :
    getProperty (.object object info) name m =
      .error (.error ⟨.undefinedProperty name.lexeme, name⟩) m := by
  unfold getProperty
  simp only [bind_of_ok field?_eq, hnone, hc]
  rfl

theorem instantiate_upholds {run : Stmt → Exec Flow} {info : ClassInfo} {arguments : List Value}
    (h : ∀ c c' m', info.initializer? = some c →
      Exec.bind c (.object m.objects.size info) m.newObject = .ok c' m' →
      Upholds R m'.frames (enter run c' arguments) m') :
    Upholds R m.frames (instantiate run info arguments) m := by
  have hobject : newObject m = .ok m.objects.size m.newObject := rfl
  refine .behind hobject ?_
  cases hi : info.initializer? with
  | none => exact .still rfl
  | some c =>
    dsimp only
    refine ((upholds_inherited R).bindMethod _ _ m.newObject).bind fun c' m' hc' ↦ ?_
    have henter : Upholds R m'.frames (discard (enter run c' arguments)) m' :=
      (h c c' m' hi hc').bind fun _ _ _ ↦ .still rfl
    exact henter.bind fun _ _ _ ↦ .still rfl

end Exec

namespace Moment

open Exec

variable {setup : Setup} {R : Frames Value → Frames Value → Prop} {μ μ' : Moment}

def Keeps (R : Frames Value → Frames Value → Prop) : Moment → Prop
  | ⟨.expr _ (.assign name _ ref), m⟩ => ∀ (m' : Machine) f value, m'.env = m.env →
      m'.target name ref.hops = .ok f → R m'.frames (m'.frames.define f name.lexeme value)
  | ⟨.stmt _ s, m⟩ => ∀ name ∈ s.declared?, ∀ fs value, R fs (fs.define m.env.frame name.lexeme value)
  | _ => True

theorem Keeps.mono {R' : Frames Value → Frames Value → Prop} (h : μ.Keeps R)
    (hR : ∀ fs fs', R fs fs' → R' fs fs') : μ.Keeps R' := by
  obtain ⟨event, m⟩ := μ
  cases event with
  | expr room e =>
    cases e with
    | assign => exact fun m' f value henv hf ↦ hR _ _ (h m' f value henv hf)
    | _ => trivial
  | stmt room s => exact fun name hname fs value ↦ hR _ _ (h name hname fs value)
  | enter | bind => trivial

/-- All moments inside keep the store in a relation. -/
def AllKeep (R : Frames Value → Frames Value → Prop) (setup : Setup) (μ : Moment) : Prop :=
  ∀ μ', Relation.ReflTransGen (Follows setup) μ μ' → μ'.Keeps R

theorem AllKeep.follows (h : μ.AllKeep R setup) (hμ : Follows setup μ μ') : μ'.AllKeep R setup :=
  fun μ'' h' ↦ h μ'' (.head hμ h')

theorem AllKeep.leads (h : μ.AllKeep R setup) (hμ : Leads setup μ μ') : μ'.AllKeep R setup :=
  h.follows (.leads hμ)

theorem AllKeep.declared {room : Nat} {s : Stmt} {name : Token} {m m₁ : Machine}
    (h : AllKeep R setup ⟨.stmt room s, m⟩) (hname : name ∈ s.declared?) (henv : m₁.env = m.env)
    (v : Value) : Upholds R m₁.frames (define name.lexeme v) m₁ :=
  define_upholds (henv ▸ h _ .refl name hname m₁.frames v)

theorem called_upholds {e : Expr} {paren : Token} {es : List Expr} {v : Value} {vs : List Value}
    {c : Callee} {fs : Frames Value} {room : Nat} {m m₁ m₂ : Machine}
    (he : eval setup (room + 3) e m = .ok v m₁)
    (hes : es.mapM (eval setup (room + 2)) m₁ = .ok vs m₂) (hcallee : callee? setup v = some c)
    (harity : (vs.length : Int) = c.arity) (hdepth : (m₂.depth : Int) < setup.maxDepth)
    (hc : Upholds R fs (c.apply (runIn setup room c) vs) m₂.called) :
    Upholds R fs (eval setup (room + 5) (.call e paren es)) m := by
  rw [eval_call]
  refine .behind he (.behind hes ?_)
  rw [Upholds, call_active hcallee harity hdepth]
  exact Upholds.active hc

variable [Enduring R]

theorem AllKeep.assigned {room : Nat} {name : Token} {e : Expr} {ref : Ref} {m m₁ : Machine}
    {v : Value} (h : AllKeep R setup ⟨.expr (room + 5) (.assign name e ref), m⟩)
    (he : eval setup (room + 3) e m = .ok v m₁) :
    Upholds R m₁.frames (write name ref.hops v) m₁ :=
  write_upholds fun f hf ↦ h _ .refl m₁ f v ((eval_restores setup _ e).of_ok he).1 hf

section Parts

variable {room : Nat} {e : Expr} {paren : Token} {m m₁ m₂ : Machine} {es : List Expr}

def ExprsUphold (R : Frames Value → Frames Value → Prop) (setup : Setup) (room : Nat) : Prop :=
  ∀ ⦃e m⦄, AllKeep R setup ⟨.expr room e, m⟩ → Upholds R m.frames (eval setup room e) m

def StmtsUphold (R : Frames Value → Frames Value → Prop) (setup : Setup) (room : Nat) : Prop :=
  ∀ ⦃s m⦄, AllKeep R setup ⟨.stmt room s, m⟩ → Upholds R m.frames (exec setup room s) m

theorem enter_uphold (hstmts : StmtsUphold R setup room) {c : Closure} {vs : List Value}
    (h : AllKeep R setup ⟨.enter room c vs, m⟩) :
    Upholds R m.frames (enter (exec setup room) c vs) m := by
  have hbody : Upholds R (m.inside c.env (c.parameters vs)).frames
      (sequence (exec setup room) c.decl.body) (m.inside c.env (c.parameters vs)) :=
    sequence_upholds _ fun before s rest hbody m' hbefore ↦
      hstmts (h.leads (.statement hbody hbefore))
  exact enter_upholds (Enduring.trans (Enduring.push _ _) hbody)

theorem arguments_uphold (hexprs : ExprsUphold R setup (room + 2)) {v : Value}
    (h : AllKeep R setup ⟨.expr (room + 5) (.call e paren es), m⟩)
    (he : eval setup (room + 3) e m = .ok v m₁) :
    Upholds R m₁.frames (es.mapM (eval setup (room + 2))) m₁ := by
  refine .mapM es fun before a rest has bs m' hbs ↦ ?_
  subst has
  exact hexprs (h.leads (.argument he hbs))

theorem call_uphold (hstmts : StmtsUphold R setup room) (hstmts' : StmtsUphold R setup (room + 1))
    {v : Value} {vs : List Value} (h : AllKeep R setup ⟨.expr (room + 5) (.call e paren es), m⟩)
    (he : eval setup (room + 3) e m = .ok v m₁)
    (hes : es.mapM (eval setup (room + 2)) m₁ = .ok vs m₂) :
    Upholds R m₂.frames (call setup (runIn setup room) paren v vs) m₂ := by
  refine call_upholds fun c hcallee harity hdepth ↦ ?_
  cases v with
  | scalar | object | completion => cases hcallee
  | native i =>
    obtain ⟨n, -, rfl⟩ := Option.map_eq_some_iff.mp hcallee
    exact .still rfl
  | function identity c =>
    cases hcallee
    exact enter_uphold hstmts' (h.leads (.enter he hes (Int.ofNat.inj harity) hdepth))
  | cls identity info =>
    cases hcallee
    show Upholds R m₂.called.frames (instantiate (exec setup room) info vs) m₂.called
    refine instantiate_upholds fun c c' m' hi hbind ↦ enter_uphold hstmts ?_
    exact h.leads (.enterInitializer he hes (Int.ofNat.inj harity) hdepth hi hbind)

end Parts

mutual

theorem exprs_uphold : ∀ room, ExprsUphold R setup room
  | 0 | 1 | 2 | 3 | 4 => fun _ _ _ ↦ by
    unfold eval
    exact .still rfl
  | room + 5 => by
    intro e m h
    have hin := upholds_inherited R
    cases e with
    | literal => exact .still rfl
    | group e => exact exprs_uphold (room + 3) (h.leads .group)
    | unary operator e =>
      exact (exprs_uphold (room + 3) (h.leads .unary)).bind fun v m' _ ↦
        hin.bind (hin.ofExcept _) (fun _ ↦ hin.result _) m'
    | binary l operator r =>
      refine (exprs_uphold (room + 3) (h.leads .binaryLeft)).bind fun v m₁ hl ↦ ?_
      exact (exprs_uphold (room + 3) (h.leads (.binaryRight hl))).bind fun _ m₂ _ ↦
        hin.bind (hin.ofExcept _) (fun _ ↦ hin.result _) m₂
    | logical l operator r =>
      refine (exprs_uphold (room + 3) (h.leads .logicalLeft)).bind fun v m₁ hl ↦ ?_
      dsimp only
      split
      · exact .still rfl
      · next hdecides =>
        exact (exprs_uphold (room + 3) (h.leads (.logicalRight hl (by simpa using hdecides)))).bind
          fun _ _ _ ↦ .still rfl
    | var name ref => exact hin.read name _ m
    | assign name e ref =>
      refine (exprs_uphold (room + 3) (h.leads .assigned)).bind fun v m₁ he ↦ ?_
      exact (h.assigned he).bind fun _ _ _ ↦ .still rfl
    | call callee paren arguments =>
      rw [eval_call]
      refine (exprs_uphold (room + 3) (h.leads .callee)).bind fun f m₁ hf ↦ ?_
      refine (arguments_uphold (exprs_uphold (room + 2)) h hf).bind fun vs m₂ hvs ↦ ?_
      exact call_uphold (stmts_uphold room) (stmts_uphold (room + 1)) h hf hvs
    | get e name =>
      exact (exprs_uphold (room + 3) (h.leads .object)).bind fun o m₁ _ ↦ hin.getProperty o name m₁
    | set e name i =>
      refine (exprs_uphold (room + 3) (h.leads .owner)).bind fun o m₁ ho ↦ ?_
      cases o with
      | scalar | native | function | cls | completion => exact .still rfl
      | object id info =>
        exact .behind rfl ((exprs_uphold (room + 3) (h.leads (.field ho))).bind fun v m₂ _ ↦
          hin.bind (hin.setField id _ v) (fun _ ↦ hin.pure v) m₂)
    | self keyword ref => exact hin.read keyword _ m
    | ofStmt s =>
      cases s with
      | ofExpr e => exact exprs_uphold (room + 4) (h.follows .back)
      | branch condition yes no =>
        refine (exprs_uphold (room + 3) (h.follows .condition)).bind fun v m₁ hv ↦ ?_
        split
        · next htrue => exact exprs_uphold (room + 3) (h.follows (.yes hv htrue))
        · next hfalse =>
          cases no with
          | none => exact .still rfl
          | some no => exact exprs_uphold (room + 3) (h.follows (.no hv (by simpa using hfalse)))
      | _ =>
        exact (stmts_uphold (room + 4) (h.follows (.statement (by simp) (by simp)))).bind
          fun _ _ _ ↦ .still rfl

theorem stmts_uphold : ∀ room, StmtsUphold R setup room
  | 0 | 1 | 2 => fun _ _ _ ↦ by
    unfold exec
    exact .still rfl
  | room + 3 => by
    intro s m h
    have hin := upholds_inherited R
    cases s with
    | empty => exact .still rfl
    | expression e =>
      have he := (exprs_uphold (room + 1) (h.leads .expression)).bind
        fun _ m₁ _ ↦ hin.pure PUnit.unit m₁
      exact he.bind fun _ _ _ ↦ .still rfl
    | print e =>
      exact (exprs_uphold (room + 1) (h.leads .printed)).bind fun v m₁ _ ↦
        hin.bind (hin.print v.text) (fun _ ↦ hin.pure Flow.next) m₁
    | var name initializer =>
      cases initializer with
      | none => exact (h.declared rfl rfl .nil).bind fun _ _ _ ↦ .still rfl
      | some e =>
        refine (exprs_uphold (room + 1) (h.leads .initializer)).bind fun v m₁ he ↦ ?_
        have henv := ((eval_restores setup _ e).of_ok he).1
        exact (h.declared rfl henv v).bind fun _ _ _ ↦ .still rfl
    | block body =>
      have hbody : Upholds R (m.inside m.env .empty).frames (sequence (exec setup room) body)
          (m.inside m.env .empty) := by
        refine sequence_upholds body fun before s rest hss m' hbefore ↦ ?_
        subst hss
        exact stmts_uphold room (h.leads (.item hbefore))
      exact Upholds.inside (Enduring.trans (Enduring.push _ _) hbody)
    | branch condition yes no =>
      refine (exprs_uphold (room + 1) (h.leads .condition)).bind fun v m₁ hv ↦ ?_
      split
      · next htrue => exact stmts_uphold (room + 1) (h.leads (.yes hv htrue))
      · next hfalse =>
        cases no with
        | none => exact .still rfl
        | some no => exact stmts_uphold (room + 1) (h.leads (.no hv (by simpa using hfalse)))
    | loop condition body =>
      exact repeatWhile_upholds
        (fun n m' hr hn ↦ exprs_uphold (room + 1) (h.leads (.test hr hn)))
        (fun n m₁ v m' hr hn hv htrue ↦ stmts_uphold (room + 1) (h.leads (.round hr hn hv htrue)))
        setup.limits.rounds 0 m (Nat.zero_add _) .none
    | function d =>
      refine .behind rfl ((hin.identity m).bind fun i m₁ hi ↦ ?_)
      have henv := (Restores.of_ok restores_pervades.identity hi).1
      exact (h.declared rfl henv _).bind fun _ _ _ ↦ .still rfl
    | returns keyword value =>
      cases value with
      | none => exact .still rfl
      | some e => exact (exprs_uphold (room + 1) (h.leads .returned)).bind fun _ _ _ ↦ .still rfl
    | cls name methods =>
      refine .behind rfl ((hin.identity m).bind fun i m₁ hi ↦ ?_)
      have henv := (Restores.of_ok restores_pervades.identity hi).1
      exact (h.declared rfl henv _).bind fun _ _ _ ↦ .still rfl
    | ofExpr e => exact (exprs_uphold (room + 2) (h.follows .value)).bind fun _ _ _ ↦ .still rfl
    | unknown kind => exact .still rfl

end

/-- What all moments inside keep, the whole evaluation upholds. -/
theorem AllKeep.upheld (h : μ.AllKeep R setup) :
    R μ.machine.frames (μ.after setup).frames := by
  obtain ⟨event, m⟩ := μ
  cases event with
  | expr room e => exact exprs_uphold room h
  | stmt room s => exact stmts_uphold room h
  | enter room c vs => exact enter_uphold (stmts_uphold room) h
  | bind c this => exact (upholds_inherited R).bindMethod c this m

section Ends

theorem Leads.upheld_after (hleads : Leads setup μ μ') (h : μ.AllKeep R setup) :
    R (μ'.after setup).frames (μ.after setup).frames := by
  have hin := upholds_inherited R
  have hend {α : Type} (act : Exec α) (m : Machine) : Upholds R (final (act m)).frames act m := .still rfl
  cases hleads with
  | group => exact Enduring.refl _
  | @unary room operator e m =>
    exact (hend (eval setup (room + 3) e) m).bind fun _ m' _ ↦
      hin.bind (hin.ofExcept _) (fun _ ↦ hin.result _) m'
  | @binaryLeft room operator e i m =>
    refine (hend (eval setup (room + 3) e) m).bind fun _ m₁ hl ↦ ?_
    exact (exprs_uphold (room + 3) (h.leads (.binaryRight hl))).bind fun _ m₂ _ ↦
      hin.bind (hin.ofExcept _) (fun _ ↦ hin.result _) m₂
  | @binaryRight room operator e i m m' v hl =>
    refine Upholds.behind hl ((hend (eval setup (room + 3) i) m').bind fun _ m₂ _ ↦ ?_)
    exact hin.bind (hin.ofExcept _) (fun _ ↦ hin.result _) m₂
  | @logicalLeft room operator e i m =>
    refine (hend (eval setup (room + 3) e) m).bind fun v m₁ hl ↦ ?_
    dsimp only
    split
    · exact .still rfl
    · next hdecides =>
      exact (exprs_uphold (room + 3) (h.leads (.logicalRight hl (by simpa using hdecides)))).bind
        fun _ _ _ ↦ .still rfl
  | @logicalRight room operator e i m m' v hl hdecides =>
    refine Upholds.behind hl ?_
    dsimp only
    rw [if_neg (by simp [hdecides])]
    exact (hend (eval setup (room + 3) i) m').bind fun _ _ _ ↦ .still rfl
  | @assigned room name ref e m =>
    refine (hend (eval setup (room + 3) e) m).bind fun v m₁ he ↦ ?_
    exact (h.assigned he).bind fun _ _ _ ↦ .still rfl
  | @callee room paren e es m =>
    show Upholds R _ (eval setup (room + 5) (.call e paren es)) m
    rw [eval_call]
    refine (hend (eval setup (room + 3) e) m).bind fun f m₁ hf ↦ ?_
    refine (arguments_uphold (exprs_uphold (room + 2)) h hf).bind fun vs m₂ hvs ↦ ?_
    exact call_uphold (stmts_uphold room) (stmts_uphold (room + 1)) h hf hvs
  | @argument room paren e i es is m m₁ m' f vs hf hes =>
    show Upholds R _ (eval setup (room + 5) (.call e paren (es ++ i :: is))) m
    rw [eval_call]
    refine .behind hf ((Upholds.mapM_item hes (hend _ m') ?_).bind fun vs m₂ hvs ↦ ?_)
    · intro before a rest has bs m₂ hbs
      rw [has] at h
      exact exprs_uphold (room + 2) (h.leads (.argument hf hbs))
    · exact call_uphold (stmts_uphold room) (stmts_uphold (room + 1)) h hf hvs
  | enter hf hes hlen hdepth =>
    exact called_upholds hf hes rfl (congrArg _ hlen) hdepth (.still rfl)
  | @bindInitializer room paren e es m m₁ m' identity info c vs hf hes hlen hdepth hi =>
    refine called_upholds hf hes rfl (congrArg _ hlen) hdepth ?_
    show Upholds R _ (instantiate (exec setup room) info vs) m'.called
    have hobject : newObject m'.called = .ok m'.objects.size m'.called.newObject := rfl
    refine .behind hobject ?_
    simp only [hi]
    refine (hend (Exec.bind c (.object m'.objects.size info)) m'.called.newObject).bind
      fun c' m₂ hc' ↦ ?_
    have henter : Upholds R m₂.frames (discard (Exec.enter (exec setup room) c' vs)) m₂ :=
      (enter_uphold (stmts_uphold room)
        (h.leads (.enterInitializer hf hes hlen hdepth hi hc'))).bind fun _ _ _ ↦ .still rfl
    exact henter.bind fun _ _ _ ↦ .still rfl
  | @enterInitializer room paren e es m m₁ m' m₂ identity info c c' vs hf hes hlen hdepth hi hbind =>
    refine called_upholds hf hes rfl (congrArg _ hlen) hdepth ?_
    show Upholds R _ (instantiate (exec setup room) info vs) m'.called
    have hobject : newObject m'.called = .ok m'.objects.size m'.called.newObject := rfl
    refine .behind hobject ?_
    simp only [hi]
    refine .behind hbind ?_
    have henter := (hend (Exec.enter (exec setup room) c' vs) m₂).bind fun _ m₃ _ ↦ hin.pure PUnit.unit m₃
    exact henter.bind fun _ _ _ ↦ .still rfl
  | @object room name e m =>
    exact (hend (eval setup (room + 3) e) m).bind fun o m₁ _ ↦ hin.getProperty o name m₁
  | @bindMethod room name e m m' object info c ho hnone hc =>
    refine Upholds.behind ho ?_
    rw [Upholds, getProperty_method hnone hc]
    exact (hend (Exec.bind c (.object object info)) m').bind fun c' m₂ _ ↦
      hin.bind hin.identity (fun _ ↦ hin.pure _) m₂
  | @owner room name e i m =>
    refine (hend (eval setup (room + 3) e) m).bind fun o m₁ ho ↦ ?_
    cases o with
    | scalar | native | function | cls | completion => exact .still rfl
    | object id info =>
      exact .behind rfl ((exprs_uphold (room + 3) (h.leads (.field ho))).bind fun v m₂ _ ↦
        hin.bind (hin.setField id _ v) (fun _ ↦ hin.pure v) m₂)
  | @field room name e i m m' object info ho =>
    refine Upholds.behind ho (.behind rfl ?_)
    exact (hend (eval setup (room + 3) i) m').bind fun v m₂ _ ↦
      hin.bind (hin.setField _ _ v) (fun _ ↦ hin.pure v) m₂
  | @expression room e m =>
    have he := (hend (eval setup (room + 1) e) m).bind fun _ m₁ _ ↦ hin.pure PUnit.unit m₁
    exact he.bind fun _ _ _ ↦ .still rfl
  | @printed room e m =>
    exact (hend (eval setup (room + 1) e) m).bind fun v m₁ _ ↦
      hin.bind (hin.print v.text) (fun _ ↦ hin.pure Flow.next) m₁
  | @initializer room name e m =>
    refine (hend (eval setup (room + 1) e) m).bind fun v m₁ he ↦ ?_
    have henv := ((eval_restores setup _ e).of_ok he).1
    exact (h.declared rfl henv v).bind fun _ _ _ ↦ .still rfl
  | @item room s ss rest m m' hbefore =>
    refine Upholds.inside (sequence_upholds_item hbefore (hend (exec setup room s) m') ?_)
    intro before' s' rest' hss m₁ hm₁
    rw [hss] at h
    exact stmts_uphold room (h.leads (.item hm₁))
  | @condition room e yes no m =>
    refine (hend (eval setup (room + 1) e) m).bind fun v m₁ hv ↦ ?_
    split
    · next htrue => exact stmts_uphold (room + 1) (h.leads (.yes hv htrue))
    · next hfalse =>
      cases no with
      | none => exact .still rfl
      | some no => exact stmts_uphold (room + 1) (h.leads (.no hv (by simpa using hfalse)))
  | yes hv htrue =>
    refine Upholds.behind hv ?_
    rw [if_pos htrue]
    exact .still rfl
  | no hv hfalse =>
    refine Upholds.behind hv ?_
    rw [if_neg (by simp [hfalse])]
    exact .still rfl
  | @test room e body n m m' hr hn =>
    exact test_upholds (fun n m' hr hn ↦ exprs_uphold (room + 1) (h.leads (.test hr hn)))
      (fun n m₁ v m' hr hn hv htrue ↦ stmts_uphold (room + 1) (h.leads (.round hr hn hv htrue)))
      hr hn (hend _ m')
  | @round room e body n m m₁ m' v hr hn hv htrue =>
    exact round_upholds (fun n m' hr hn ↦ exprs_uphold (room + 1) (h.leads (.test hr hn)))
      (fun n m₁ v m' hr hn hv htrue ↦ stmts_uphold (room + 1) (h.leads (.round hr hn hv htrue)))
      hr hn hv htrue (hend _ m')
  | @returned room keyword e m =>
    exact (hend (eval setup (room + 1) e) m).bind fun _ _ _ ↦ .still rfl
  | @statement room c vs s ss rest m m' hbody hbefore =>
    refine enter_upholds ?_
    rw [hbody]
    refine sequence_upholds_item hbefore (hend (exec setup room s) m') ?_
    intro before' s' rest' hss m₁ hm₁
    exact stmts_uphold room (h.leads (.statement (hbody.trans hss) hm₁))

/-- What all moments inside keep, holds from the end of any moment inside until the end. -/
theorem AllKeep.upheld_inside (h : μ.AllKeep R setup)
    (hμ : Relation.ReflTransGen (Leads setup) μ μ') :
    μ'.AllKeep R setup ∧ R (μ'.after setup).frames (μ.after setup).frames := by
  induction hμ with
  | refl => exact ⟨h, Enduring.refl _⟩
  | tail _ hleads ih =>
    obtain ⟨hkeep, hend⟩ := ih
    exact ⟨hkeep.leads hleads, Enduring.trans (hleads.upheld_after hkeep) hend⟩

end Ends

end Moment

end TreeWalk
