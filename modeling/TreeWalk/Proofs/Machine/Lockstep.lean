import TreeWalk.Proofs.Machine.Alike

namespace TreeWalk

structure Machine.Beside (m m' : Machine) : Prop where
  env_eq : m'.env = m.env
  depth_eq : m'.depth = m.depth

theorem Machine.Beside.refl (m : Machine) : m.Beside m := ⟨rfl, rfl⟩

theorem Machine.Beside.trans {m m' m'' : Machine} (h : m.Beside m') (h' : m'.Beside m'') :
    m.Beside m'' :=
  ⟨h'.env_eq.trans h.env_eq, h'.depth_eq.trans h.depth_eq⟩

namespace Exec

variable {α β : Type}

section Lockstep

variable (R : Token → Token → Prop) (before : List String)

/-- How steps from some machine end, and others in lockstep with them. -/
inductive Ends (S : α → α → Prop) (m : Machine) :
    EStateM.Result Interrupt Machine α → EStateM.Result Interrupt Machine α → Prop
  | ok {a a' : α} {m₁ m₁' : Machine} :
      S a a' → m₁.Alike R before m₁' → m.Beside m₁ → Ends S m (.ok a m₁) (.ok a' m₁')
  | error {i i' : Interrupt} {m₁ m₁' : Machine} :
      i.Alike R i' → m₁.Alike R before m₁' → Ends S m (.error i m₁) (.error i' m₁')

def Lockstep (S : α → α → Prop) (act act' : Exec α) : Prop :=
  ∀ ⦃m m'⦄, m.Alike R before m' → Ends R before S m (act m) (act' m')

inductive Tried (S : α → α → Prop) : Except RuntimeError α → Except RuntimeError α → Prop
  | ok {a a' : α} : S a a' → Tried S (.ok a) (.ok a')
  | error {e e' : RuntimeError} : e.Alike R e' → Tried S (.error e) (.error e')

end Lockstep

variable {R : Token → Token → Prop} {before : List String} {S : α → α → Prop} {T : β → β → Prop}

namespace Lockstep

variable {act act' : Exec α} {f f' : α → Exec β} {a a' : α}

theorem pure (h : S a a') : Lockstep R before S (pure a) (pure a') :=
  fun m _ hm ↦ .ok h hm (.refl m)

theorem throw {i i' : Interrupt} (h : i.Alike R i') : Lockstep R before S (throw i) (throw i') :=
  fun _ _ hm ↦ .error h hm

theorem bind (h : Lockstep R before S act act')
    (hf : ∀ a a', S a a' → Lockstep R before T (f a) (f' a')) :
    Lockstep R before T (act >>= f) (act' >>= f') := by
  intro m m' hm
  have hact := h hm
  show Ends R before T m (EStateM.bind act f m) (EStateM.bind act' f' m')
  unfold EStateM.bind
  generalize act m = x at hact ⊢
  generalize act' m' = x' at hact ⊢
  cases hact with
  | ok ha hm₁ hplace =>
    have hrest := hf _ _ ha hm₁
    dsimp only
    generalize f _ _ = x at hrest ⊢
    generalize f' _ _ = x' at hrest ⊢
    cases hrest with
    | ok hb hm₂ hplace' => exact .ok hb hm₂ (hplace.trans hplace')
    | error hi hm₂ => exact .error hi hm₂
  | error hi hm₁ => exact .error hi hm₁

theorem get : Lockstep R before (Machine.Alike R before) (get : Exec Machine) get :=
  fun m _ hm ↦ .ok hm hm (.refl m)

theorem discard (h : Lockstep R before S act act') :
    Lockstep R before Eq (discard act) (discard act') :=
  h.bind fun _ _ _ ↦ pure rfl

theorem mapM {P : α → α → Prop} {as as' : List α} (has : List.Forall₂ P as as')
    (hf : ∀ a a', P a a' → Lockstep R before T (f a) (f' a')) :
    Lockstep R before (List.Forall₂ T) (as.mapM f) (as'.mapM f') := by
  induction has with
  | nil => exact pure .nil
  | cons ha _ ih =>
    rw [List.mapM_cons, List.mapM_cons]
    exact (hf _ _ ha).bind fun _ _ hb ↦ ih.bind fun _ _ hbs ↦ pure (.cons hb hbs)

theorem ofExcept {x x' : Except RuntimeError α} (h : Tried R S x x') :
    Lockstep R before S (ofExcept x) (ofExcept x') := by
  cases h with
  | ok ha => exact pure ha
  | error he => exact throw (.error he)

theorem within (env : Env) (h : Lockstep R before S act act') :
    Lockstep R before S (within env act) (within env act') := by
  intro m m' hm
  have hin : Machine.Alike R before { m with env := env } { m' with env := env } :=
    { hm with env_eq := rfl }
  have hact := h hin
  unfold Exec.within
  dsimp only
  generalize act _ = x at hact ⊢
  generalize act' _ = x' at hact ⊢
  cases hact with
  | ok ha hm₁ hplace =>
    exact .ok ha { hm₁ with env_eq := hm.env_eq } { hplace with env_eq := rfl }
  | error hi hm₁ => exact .error hi { hm₁ with env_eq := hm.env_eq }

theorem active {paren paren' : Token} (hparen : R paren paren')
    (h : Lockstep R before S act act') :
    Lockstep R before S (active paren act) (active paren' act') := by
  intro m m' hm
  have hin : m.called.Alike R before m'.called :=
    { hm with depth_eq := congrArg (· + 1) hm.depth_eq }
  have hout {m₁ m₁' : Machine} (hm₁ : m₁.Alike R before m₁') :
      Machine.Alike R before { m₁ with depth := m₁.depth - 1 } { m₁' with depth := m₁'.depth - 1 } :=
    { hm₁ with depth_eq := congrArg (· - 1) hm₁.depth_eq }
  have hact := h hin
  unfold Exec.active
  rw [← Machine.called, ← Machine.called]
  generalize act _ = x at hact ⊢
  generalize act' _ = x' at hact ⊢
  cases hact with
  | ok ha hm₁ hplace =>
    exact .ok ha (hout hm₁) { hplace with depth_eq := congrArg (· - 1) hplace.depth_eq }
  | error hi hm₁ =>
    cases hi with
    | tooDeep => exact .error (.error ⟨rfl, .inl hparen⟩) (hout hm₁)
    | error he => exact .error (.error he) (hout hm₁)
    | misfit => exact .error .misfit (hout hm₁)
    | unknown => exact .error .unknown (hout hm₁)
    | endless => exact .error .endless (hout hm₁)

end Lockstep

section Steps

variable {v v' w w' : Value} {t t' : Token}

theorem fail_lockstep (cause : RuntimeError.Cause) (ht : R t t') :
    Lockstep R before S (fail cause t) (fail cause t') :=
  Lockstep.throw (.error ⟨rfl, .inl ht⟩)

theorem print_lockstep (text : String) : Lockstep R before Eq (print text) (print text) := by
  intro m m' hm
  exact .ok rfl { hm with printed_eq := by simp [hm.printed_eq] } ⟨rfl, rfl⟩

theorem define_lockstep (name : String) (hv : v.Alike R v') :
    Lockstep R before Eq (define name v) (define name v') := by
  intro m m' hm
  have hframes : Frames.Rel (Value.Alike R) (m.frames.define m.env.frame name v)
      (m'.frames.define m'.env.frame name v') := by
    rw [hm.env_eq]
    exact hm.frames.define _ _ hv
  exact .ok rfl { hm with frames := hframes } ⟨rfl, rfl⟩

theorem newFrame_lockstep {b b' : Bindings Value} (hb : b.Rel (Value.Alike R) b') :
    Lockstep R before Eq (newFrame b) (newFrame b') :=
  fun _ _ hm ↦ .ok hm.frames.next_eq.symm { hm with frames := hm.frames.push hb } ⟨rfl, rfl⟩

theorem identity_lockstep : Lockstep R before Eq identity identity :=
  fun _ _ hm ↦ .ok hm.fresh_eq.symm { hm with fresh_eq := congrArg (· + 1) hm.fresh_eq }
    ⟨rfl, rfl⟩

theorem result_lockstep (hv : v.Alike R v') :
    Lockstep R before (Value.Alike R) (result v) (result v') := by
  cases hv with
  | @scalar s =>
    unfold result
    split
    · split
      · exact identity_lockstep.bind fun _ _ h ↦ .pure (h ▸ .scalar)
      · exact .pure .scalar
    · exact .pure .scalar
  | native => exact .pure .native
  | function hc => exact .pure (.function hc)
  | cls hc => exact .pure (.cls hc)
  | object hc => exact .pure (.object hc)
  | completion hv => exact .pure (.completion hv)

theorem newObject_lockstep : Lockstep R before Eq newObject newObject := by
  intro m m' hm
  have hfields (object : Nat) :
      (m.newObject.fields object).Rel (Value.Alike R) (m'.newObject.fields object) := by
    rw [m.fields_newObject, m'.fields_newObject]
    exact hm.fields object
  exact .ok hm.objects_eq.symm
    { hm with objects_eq := by simp [hm.objects_eq], fields := hfields } ⟨rfl, rfl⟩

theorem field?_lockstep (object : Nat) (name : String) :
    Lockstep R before (Option.Rel (Value.Alike R)) (field? object name) (field? object name) :=
  Lockstep.get.bind fun _ _ hm ↦ .pure ((hm.fields object).get? name)

theorem setField_lockstep (object : Nat) (name : String) (hv : v.Alike R v') :
    Lockstep R before Eq (setField object name v) (setField object name v') := by
  intro m m' hm
  have hfields (i : Nat) : ((m.setField object name v).fields i).Rel (Value.Alike R)
      ((m'.setField object name v').fields i) := by
    rw [m.fields_setField, m'.fields_setField, hm.objects_eq]
    split
    · exact (hm.fields i).set name hv
    · exact hm.fields i
  exact .ok rfl { hm with objects_eq := by simp [hm.objects_eq], fields := hfields } ⟨rfl, rfl⟩

theorem getAt_lockstep {fs fs' : Frames Value} (h : fs.Rel (Value.Alike R) fs') (e : Env) (hops : Nat)
    (name : String) :
    Lockstep R before (Value.Alike R) (ofFit (fs.getAt e hops name))
      (ofFit (fs'.getAt e hops name)) := by
  unfold Frames.getAt
  cases e.frameAt hops with
  | error misfit => exact .throw .misfit
  | ok f =>
    have hv := (h.bindings f).get? name
    simp only [Except.bind, Bind.bind]
    generalize (fs.bindings f).get? name = v at hv ⊢
    generalize (fs'.bindings f).get? name = v' at hv ⊢
    cases hv with
    | none => exact .throw .misfit
    | some hv => exact .pure hv

section Tokens

variable (hR : ∀ t t', R t t' → t.Like t') (ht : R t t')
include hR ht

theorem read_lockstep (hops : Option Nat) :
    Lockstep R before (Value.Alike R) (read t hops) (read t' hops) := by
  refine Lockstep.get.bind fun m m' hm ↦ ?_
  rw [(hR t t' ht).lexeme_eq]
  cases hops with
  | none =>
    have hv := hm.frames.get? .globals t.lexeme
    dsimp only
    generalize m.frames.get? .globals t.lexeme = v at hv ⊢
    generalize m'.frames.get? .globals t.lexeme = v' at hv ⊢
    cases hv with
    | none => exact fail_lockstep _ ht
    | some hv => exact .pure hv
  | some d =>
    rw [hm.env_eq]
    exact getAt_lockstep hm.frames _ _ _

theorem write_lockstep (hops : Option Nat) (hv : v.Alike R v') :
    Lockstep R before Eq (write t hops v) (write t' hops v') := by
  intro m m' hm
  have hlike := hR t t' ht
  have hok (f : FrameId) : Ends R before Eq m
      (.ok () { m with frames := m.frames.define f t.lexeme v })
      (.ok () { m' with frames := m'.frames.define f t.lexeme v' }) :=
    .ok rfl { hm with frames := hm.frames.define f _ hv } ⟨rfl, rfl⟩
  unfold write Machine.target
  rw [hlike.lexeme_eq]
  cases hops with
  | none =>
    dsimp only
    rw [hm.frames.binder?_eq]
    cases m.frames.binder? .globals t.lexeme with
    | none => exact .error (.error ⟨rfl, .inl ht⟩) hm
    | some f => exact hok f
  | some d =>
    have hframe : m'.env.frameAt d = m.env.frameAt d := by rw [hm.env_eq]
    dsimp only
    rw [hframe]
    cases m.env.frameAt d with
    | error misfit => exact .error .misfit hm
    | ok f => exact hok f

theorem unary_tried (hv : v.Alike R v') :
    Tried R (Value.Alike R) (Operator.unary t v) (Operator.unary t' v') := by
  unfold Operator.unary Operator.number
  rw [(hR t t' ht).kind_eq, (hv.like hR).number?_eq, (hv.like hR).isTruthy_eq]
  split
  · cases v.number? with
    | none => exact .error ⟨rfl, .inl ht⟩
    | some x => exact .ok .scalar
  · exact .ok .scalar

theorem arithmetic_tried (x y : Float) :
    Tried R (Value.Alike R) (Operator.arithmetic t x y) (Operator.arithmetic t' x y) := by
  unfold Operator.arithmetic Operator.quotient
  rw [(hR t t' ht).kind_eq, (hR t t' ht).lexeme_eq]
  split
  case h_3 => split <;> exact .ok .scalar
  case h_8 => exact .error ⟨rfl, .inl ht⟩
  all_goals exact .ok .scalar

theorem binary_tried (hv : v.Alike R v') (hw : w.Alike R w') :
    Tried R (Value.Alike R) (Operator.binary t v w) (Operator.binary t' v' w') := by
  unfold Operator.binary Operator.add Operator.numbers
  have hv := hv.like hR
  have hw := hw.like hR
  rw [(hR t t' ht).kind_eq, hv.number?_eq, hw.number?_eq, hv.string?_eq, hw.string?_eq,
    hv.equals_eq hw]
  split
  · split
    · exact .ok .scalar
    · exact .ok .scalar
    · exact .error ⟨rfl, .inl ht⟩
  · exact .ok .scalar
  · exact .ok .scalar
  · cases v.number? with
    | none => exact .error ⟨rfl, .inl ht⟩
    | some x =>
      cases w.number? with
      | none => exact .error ⟨rfl, .inl ht⟩
      | some y => exact arithmetic_tried hR ht x y

theorem decides_eq (left : Bool) :
    Operator.decides t' left = Operator.decides t left := by
  unfold Operator.decides
  rw [(hR t t' ht).kind_eq]

end Tokens

end Steps

end Exec

end TreeWalk
