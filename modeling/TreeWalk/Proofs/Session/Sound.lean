import TreeWalk.Proofs.Machine.Operator
import TreeWalk.Proofs.Session.Situated

namespace TreeWalk

open Frames

/-- What a function of the host may make from its arguments: it knows no closures but theirs. -/
inductive Value.From (arguments : List Value) : Value → Prop
  | argument {v : Value} : v ∈ arguments → From arguments v
  | scalar {s : Scalar} : From arguments (.scalar s)
  | native {index : Nat} : From arguments (.native index)
  | classOf {i j : Nat} {info : ClassInfo} :
      From arguments (.object i info) → From arguments (.cls j info)
  | objectOf {i j : Nat} {info : ClassInfo} :
      From arguments (.cls i info) → From arguments (.object j info)

/-- The functions of the host give values for the right number of arguments. -/
def Setup.Lawful (setup : Setup) : Prop :=
  ∀ n ∈ setup.added, ∀ arguments : List Value, arguments.length = n.arity →
    Value.From arguments (n.apply arguments)

/-- An interrupt that does not come from a tree that fits its environment badly. -/
def Interrupt.Tame : Interrupt → Prop
  | .misfit _ | .unknown _ => False
  | .error _ | .tooDeep | .endless => True

namespace Session

section Values

variable (setup : Setup) (sources : List String)

/-- A closure can be entered: it was visited, and its environment fits. That of an initializer has an
object to yield. -/
def Callable (fs : Frames Value) (c : Closure) : Prop :=
  (∃ v, ∀ room arguments, Situated setup sources v (.enter room c arguments) c.env fs) ∧
    (c.isInitializer = true → (fs.bindings c.env.frame).contains "this" = true)

def Bindable (fs : Frames Value) (c : Closure) : Prop :=
  ∃ v, ∀ this, Situated setup sources v (.bind c this) c.env fs

def Proper (fs : Frames Value) : Value → Prop
  | .scalar _ | .native _ => True
  | .function _ c => Callable setup sources fs c
  | .cls _ info | .object _ info =>
    ∀ name c, info.methods.get? name = some c → Bindable setup sources fs c
  | .completion _ => False

/-- All values of a machine are proper, and it has a frame for the globals. -/
structure Sound (m : Machine) : Prop where
  globals : 0 < m.frames.next
  bound : ∀ f name v, (m.frames.bindings f).get? name = some v → Proper setup sources m.frames v
  fields : ∀ object name v, (m.fields object).get? name = some v →
    Proper setup sources m.frames v

variable {setup sources} {fs fs' : Frames Value} {v : Value}

theorem Proper.grow (h : Proper setup sources fs v) (hg : Grow fs fs') :
    Proper setup sources fs' v := by
  cases v with
  | scalar | native => trivial
  | function _ c =>
    obtain ⟨⟨v, hv⟩, hthis⟩ := h
    exact ⟨⟨v, fun n arguments ↦ (hv n arguments).grow hg⟩, fun hi ↦ hg.contains _ _ (hthis hi)⟩
  | cls _ info | object _ info =>
    intro name c hc
    obtain ⟨v, hv⟩ := h name c hc
    exact ⟨v, fun this ↦ (hv this).grow hg⟩
  | completion => exact h

theorem Proper.from {arguments : List Value} (h : ∀ v ∈ arguments, Proper setup sources fs v)
    (hv : v.From arguments) : Proper setup sources fs v := by
  induction hv with
  | argument hv => exact h _ hv
  | scalar | native => trivial
  | classOf _ ih | objectOf _ ih => exact ih

end Values

section Steps

variable (setup : Setup) (sources : List String) {α β : Type}

/-- A step leads from a sound machine to a sound machine, and its result has a property if it has one. -/
def Goes (act : Exec α) (m : Machine) (Q : α → Machine → Prop) : Prop :=
  match act m with
  | .ok a m' => Sound setup sources m' ∧ m'.env = m.env ∧ Grow m.frames m'.frames ∧ Q a m'
  | .error i m' => Sound setup sources m' ∧ i.Tame

variable {setup sources} {act : Exec α} {f : α → Exec β} {m m' : Machine} {a : α}
  {Q Q' : α → Machine → Prop} {R : β → Machine → Prop}

namespace Goes

theorem ok (h : Goes setup sources act m Q) (hact : act m = .ok a m') :
    Sound setup sources m' ∧ m'.env = m.env ∧ Grow m.frames m'.frames ∧ Q a m' := by
  rwa [Goes, hact] at h

theorem error {i : Interrupt} (h : Goes setup sources act m Q) (hact : act m = .error i m') :
    Sound setup sources m' ∧ i.Tame := by
  rwa [Goes, hact] at h

theorem pure (hm : Sound setup sources m) (ha : Q a m) : Goes setup sources (pure a) m Q :=
  ⟨hm, rfl, .refl _, ha⟩

theorem throw {i : Interrupt} (hm : Sound setup sources m) (hi : i.Tame) :
    Goes setup sources (throw i : Exec α) m Q :=
  ⟨hm, hi⟩

theorem mono (h : Goes setup sources act m Q)
    (hQ : ∀ a m', Sound setup sources m' → m'.env = m.env → Grow m.frames m'.frames → Q a m' →
      Q' a m') : Goes setup sources act m Q' := by
  unfold Goes at h ⊢
  split at h
  · exact ⟨h.1, h.2.1, h.2.2.1, hQ _ _ h.1 h.2.1 h.2.2.1 h.2.2.2⟩
  · exact h

theorem bind (h : Goes setup sources act m Q)
    (hf : ∀ a m', act m = .ok a m' → Sound setup sources m' → m'.env = m.env →
      Grow m.frames m'.frames → Q a m' → Goes setup sources (f a) m' R) :
    Goes setup sources (act >>= f) m R := by
  cases hact : act m with
  | ok a m' =>
    obtain ⟨hm, henv, hg, ha⟩ := h.ok hact
    have hb : (act >>= f) m = f a m' := by
      simp only [Bind.bind, EStateM.bind, hact]
    have hrest := hf a m' hact hm henv hg ha
    unfold Goes at hrest ⊢
    rw [hb]
    split at hrest
    · exact ⟨hrest.1, hrest.2.1.trans henv, hg.trans hrest.2.2.1, hrest.2.2.2⟩
    · exact hrest
  | error i m' =>
    have hb : (act >>= f) m = .error i m' := by
      simp only [Bind.bind, EStateM.bind, hact]
    unfold Goes
    rw [hb]
    exact h.error hact

theorem get {f : Machine → Exec β} (h : Goes setup sources (f m) m R) :
    Goes setup sources (get >>= f) m R := h

end Goes

section Machines

variable {v : Value} {b : Bindings Value} {env : Env}

theorem Sound.congr (h : Sound setup sources m) (hf : m'.frames = m.frames)
    (ho : m'.objects = m.objects) : Sound setup sources m' := by
  refine ⟨hf ▸ h.globals, fun f name v hv ↦ ?_, fun object name v hv ↦ ?_⟩
  · rw [hf] at hv ⊢
    exact h.bound f name v hv
  · rw [Machine.fields, ho] at hv
    rw [hf]
    exact h.fields object name v hv

theorem Sound.inside (h : Sound setup sources m)
    (hb : ∀ name v, b.get? name = some v → Proper setup sources m.frames v) :
    Sound setup sources (m.inside env b) := by
  have hg := grow_push m.frames b
  refine ⟨Nat.lt_of_lt_of_le h.globals hg.next_le, fun f name v hv ↦ ?_,
    fun object name v hv ↦ (h.fields object name v hv).grow hg⟩
  rw [Machine.inside, bindings_push] at hv
  split at hv
  · exact (hb name v hv).grow hg
  · exact (h.bound f name v hv).grow hg

theorem Sound.define {f : FrameId} {name : String} (h : Sound setup sources m)
    (hv : Proper setup sources (m.frames.define f name v) v) :
    Sound setup sources { m with frames := m.frames.define f name v } := by
  have hg := grow_define m.frames f name v
  refine ⟨Nat.lt_of_lt_of_le h.globals hg.next_le, fun g k w hw ↦ ?_,
    fun object k w hw ↦ (h.fields object k w hw).grow hg⟩
  rw [bindings_define] at hw
  split at hw
  · rw [Bindings.get?_set] at hw
    split at hw
    · cases hw
      exact hv
    · exact (h.bound g k w hw).grow hg
  · exact (h.bound g k w hw).grow hg

theorem Sound.newObject (h : Sound setup sources m) : Sound setup sources m.newObject :=
  ⟨h.globals, h.bound,
    fun object name v hv ↦ h.fields object name v (m.fields_newObject object ▸ hv)⟩

theorem Sound.setField {object : Nat} {name : String} (h : Sound setup sources m)
    (hv : Proper setup sources m.frames v) : Sound setup sources (m.setField object name v) := by
  refine ⟨h.globals, h.bound, fun i k w hw ↦ ?_⟩
  rw [m.fields_setField] at hw
  split at hw
  · rw [Bindings.get?_set] at hw
    split at hw
    · cases hw
      exact hv
    · exact h.fields i k w hw
  · exact h.fields i k w hw

end Machines

section Primitives

open Exec

variable {v : Value} {name : Token} {hops : Option Nat}

theorem identity_goes (hm : Sound setup sources m) :
    Goes setup sources identity m fun _ _ ↦ True :=
  ⟨hm.congr rfl rfl, rfl, .refl _, trivial⟩

theorem print_goes (hm : Sound setup sources m) (text : String) :
    Goes setup sources (print text) m fun _ _ ↦ True :=
  ⟨hm.congr rfl rfl, rfl, .refl _, trivial⟩

theorem result_goes (hm : Sound setup sources m) (hv : Proper setup sources m.frames v) :
    Goes setup sources (result v) m fun w m' ↦ Proper setup sources m'.frames w := by
  unfold result
  split
  · split
    · exact (identity_goes hm).bind fun _ _ _ hm' _ _ _ ↦ .pure hm' trivial
    · exact .pure hm hv
  · exact .pure hm hv

theorem ofExcept_goes {x : Except RuntimeError Value} (hm : Sound setup sources m)
    (hx : ∀ w, x = .ok w → ∃ s, w = .scalar s) :
    Goes setup sources (ofExcept x) m fun w m' ↦ Proper setup sources m'.frames w := by
  cases x with
  | ok w =>
    obtain ⟨s, rfl⟩ := hx w rfl
    exact .pure hm trivial
  | error e => exact .throw hm trivial

theorem read_goes (hm : Sound setup sources m)
    (hd : ∀ d, hops = some d → ∃ f, m.env.chain[d]? = some f ∧
      (m.frames.bindings f).contains name.lexeme = true) :
    Goes setup sources (read name hops) m fun w m' ↦ Proper setup sources m'.frames w := by
  refine Goes.get ?_
  cases hops with
  | some d =>
    obtain ⟨f, hf, hc⟩ := hd d rfl
    obtain ⟨w, hw⟩ := Bindings.contains_iff.mp hc
    show Goes setup sources (ofFit (m.frames.getAt m.env d name.lexeme)) m _
    rw [getAt_eq hf hw]
    exact .pure hm (hm.bound f _ w hw)
  | none =>
    dsimp only
    split
    · next w hw =>
      obtain ⟨f, -, hw⟩ := List.exists_of_findSome?_eq_some hw
      exact .pure hm (hm.bound f _ w hw)
    · exact .throw hm trivial

theorem write_goes (hm : Sound setup sources m) (hv : Proper setup sources m.frames v)
    (hd : ∀ d, hops = some d → ∃ f, m.env.frameAt d = .ok f) :
    Goes setup sources (write name hops v) m fun _ _ ↦ True := by
  unfold Goes write
  cases ht : m.target name hops with
  | ok f =>
    have hg := grow_define m.frames f name.lexeme v
    exact ⟨hm.define (hv.grow hg), rfl, hg, trivial⟩
  | error i =>
    refine ⟨hm, ?_⟩
    cases hops with
    | some d =>
      obtain ⟨f, hf⟩ := hd d rfl
      rw [Machine.target, hf] at ht
      cases ht
    | none =>
      unfold Machine.target at ht
      dsimp only at ht
      split at ht <;> cases ht
      trivial

theorem define_goes {k : String} (hm : Sound setup sources m)
    (hv : Proper setup sources (m.frames.define m.env.frame k v) v) :
    Goes setup sources (define k v) m fun _ m' ↦
      m'.frames = m.frames.define m.env.frame k v :=
  ⟨hm.define hv, rfl, grow_define _ _ _ _, rfl⟩

theorem within_goes {act : Exec α} {b : Bindings Value} {env : Env}
    (hact : Goes setup sources act (m.inside env b) fun a m' ↦ Q a { m' with env := m.env }) :
    Goes setup sources (do
      let frame ← newFrame b
      within (env.inside frame) act) m Q := by
  have hg := grow_push m.frames b
  have hrun : (do
      let frame ← newFrame b
      within (env.inside frame) act : Exec α) m =
        match act (m.inside env b) with
        | .ok a m' => .ok a { m' with env := m.env }
        | .error i m' => .error i { m' with env := m.env } := rfl
  cases hacts : act (m.inside env b) with
  | ok a m' =>
    obtain ⟨hm', -, hg', ha⟩ := hact.ok hacts
    rw [hacts] at hrun
    unfold Goes
    rw [hrun]
    exact ⟨hm'.congr rfl rfl, rfl, hg.trans hg', ha⟩
  | error i m' =>
    obtain ⟨hm', hi⟩ := hact.error hacts
    rw [hacts] at hrun
    unfold Goes
    rw [hrun]
    exact ⟨hm'.congr rfl rfl, hi⟩

theorem active_goes {act : Exec α} {paren : Token}
    (hact : Goes setup sources act m.called fun a m' ↦ Q a { m' with depth := m'.depth - 1 }) :
    Goes setup sources (active paren act) m Q := by
  unfold Goes active
  cases hacts : act { m with depth := m.depth + 1 } with
  | ok a m' =>
    obtain ⟨hm', henv, hg, ha⟩ := hact.ok hacts
    exact ⟨hm'.congr rfl rfl, henv, hg, ha⟩
  | error i m' =>
    obtain ⟨hm', hi⟩ := hact.error hacts
    cases i with
    | tooDeep => exact ⟨hm'.congr rfl rfl, trivial⟩
    | misfit | unknown => exact hi.elim
    | error | endless => exact ⟨hm'.congr rfl rfl, trivial⟩

theorem mapM_goes {γ : Type} {f : γ → Exec β} (as : List γ) {R : β → Machine → Prop}
    (hm : Sound setup sources m)
    (hR : ∀ b m₁ m₂, R b m₁ → Grow m₁.frames m₂.frames → R b m₂)
    (hf : ∀ before a rest, as = before ++ a :: rest → ∀ bs m', before.mapM f m = .ok bs m' →
      Sound setup sources m' → m'.env = m.env → Grow m.frames m'.frames →
      Goes setup sources (f a) m' R) :
    Goes setup sources (as.mapM f) m fun bs m' ↦ ∀ b ∈ bs, R b m' := by
  induction as generalizing m with
  | nil => exact .pure hm (by simp)
  | cons a as ih =>
    rw [List.mapM_cons]
    refine (hf [] a as rfl [] m rfl hm rfl (.refl _)).bind fun b m₁ hb hm₁ henv₁ hg₁ hRb ↦ ?_
    have hrest := ih hm₁ fun before a' rest has bs m' hbs hm' henv hg ↦ by
      refine hf (a :: before) a' rest (by rw [has]; rfl) (b :: bs) m' ?_ hm' (henv.trans henv₁)
        (hg₁.trans hg)
      rw [List.mapM_cons]
      simp only [Bind.bind, EStateM.bind, hb, hbs]
      rfl
    refine hrest.bind fun bs m₂ _ hm₂ _ hg₂ hbs ↦ .pure hm₂ ?_
    simpa using ⟨hR b m₁ m₂ hRb hg₂, hbs⟩

end Primitives

end Steps

end Session

end TreeWalk
