import TreeWalk.Proofs.Machine.Lockstep
import TreeWalk.Proofs.Machine.Respelled

namespace TreeWalk

namespace Exec

variable {α β : Type}

section Abreast

variable (x y : String)

/-- How steps from some machine end, and others abreast of them. -/
inductive EndsAbreast (w : List Bool) (S : List Bool → α → α → Prop) (m : Machine) :
    EStateM.Result Interrupt Machine α → EStateM.Result Interrupt Machine α → Prop
  | ok {w₁ : List Bool} {a a' : α} {m₁ m₁' : Machine} : w <+: w₁ → S w₁ a a' →
      m₁.Respelled x y w₁ m₁' → m.Beside m₁ → EndsAbreast w S m (.ok a m₁) (.ok a' m₁')
  | error {w₁ : List Bool} {i i' : Interrupt} {m₁ m₁' : Machine} : w <+: w₁ →
      i.Respelled x y i' → m₁.Respelled x y w₁ m₁' → EndsAbreast w S m (.error i m₁) (.error i' m₁')

/-- Steps that are abreast once at least the given marks are known. -/
def Abreast (w marks : List Bool) (S : List Bool → α → α → Prop) (act act' : Exec α) : Prop :=
  ∀ ⦃w₁ m m'⦄, w <+: w₁ → m.Respelled x y w₁ m' → Spans w₁ m.env.chain marks →
    EndsAbreast x y w₁ S m (act m) (act' m')

end Abreast

variable {x y : String} {w marks : List Bool} {S : List Bool → α → α → Prop}
  {T : List Bool → β → β → Prop}

theorem EndsAbreast.weaken {w₁ : List Bool} {m : Machine}
    {r r' : EStateM.Result Interrupt Machine α} (hw : w <+: w₁) (h : EndsAbreast x y w₁ S m r r') :
    EndsAbreast x y w S m r r' := by
  cases h with
  | ok hw₁ ha hm hplace => exact .ok (hw.trans hw₁) ha hm hplace
  | error hw₁ hi hm => exact .error (hw.trans hw₁) hi hm

namespace Abreast

variable {act act' : Exec α} {f f' : α → Exec β} {a a' : α}

theorem mono {w₁ : List Bool} (h : Abreast x y w marks S act act') (hw : w <+: w₁) :
    Abreast x y w₁ marks S act act' :=
  fun _ _ _ hw₁ ↦ h (hw.trans hw₁)

theorem pure (h : ∀ w₁, w <+: w₁ → S w₁ a a') :
    Abreast x y w marks S (Pure.pure a) (Pure.pure a') :=
  fun w₁ m _ hw hm _ ↦ .ok List.prefix_rfl (h w₁ hw) hm (.refl m)

theorem throw {i i' : Interrupt} (h : i.Respelled x y i') :
    Abreast x y w marks S (throw i) (throw i') :=
  fun _ _ _ _ hm _ ↦ .error List.prefix_rfl h hm

theorem bind (h : Abreast x y w marks S act act')
    (hf : ∀ w₁ a a', w <+: w₁ → S w₁ a a' → Abreast x y w₁ marks T (f a) (f' a')) :
    Abreast x y w marks T (act >>= f) (act' >>= f') := by
  intro w₁ m m' hw hm hspans
  have hact := h hw hm hspans
  show EndsAbreast x y w₁ T m (EStateM.bind act f m) (EStateM.bind act' f' m')
  unfold EStateM.bind
  generalize act m = r at hact ⊢
  generalize act' m' = r' at hact ⊢
  cases hact with
  | @ok w₂ a a' m₁ m₁' hw₂ ha hm₁ hplace =>
    have hspans₁ : Spans w₂ m₁.env.chain marks := hplace.env_eq ▸ hspans.mono hw₂
    have hrest := (hf w₂ a a' (hw.trans hw₂) ha List.prefix_rfl hm₁ hspans₁).weaken hw₂
    dsimp only
    generalize f a m₁ = r at hrest ⊢
    generalize f' a' m₁' = r' at hrest ⊢
    cases hrest with
    | ok hw₃ hb hm₂ hplace' => exact .ok hw₃ hb hm₂ (hplace.trans hplace')
    | error hw₃ hi hm₂ => exact .error hw₃ hi hm₂
  | error hw₂ hi hm₁ => exact .error hw₂ hi hm₁

theorem get : Abreast x y w marks
    (fun w₁ m m' ↦ m.Respelled x y w₁ m' ∧ Spans w₁ m.env.chain marks) get get :=
  fun _ m _ _ hm hspans ↦ .ok List.prefix_rfl ⟨hm, hspans⟩ hm (.refl m)

theorem discard (h : Abreast x y w marks S act act') :
    Abreast x y w marks (fun _ ↦ Eq) (discard act) (discard act') :=
  h.bind fun _ _ _ _ _ ↦ pure fun _ _ ↦ rfl

theorem mapM (hT : ∀ {w w' : List Bool} {b b'}, w <+: w' → T w b b' → T w' b b')
    {P : α → α → Prop} {as as' : List α} (has : List.Forall₂ P as as')
    (hf : ∀ a a', P a a' → Abreast x y w marks T (f a) (f' a')) :
    Abreast x y w marks (fun w₁ ↦ List.Forall₂ (T w₁)) (as.mapM f) (as'.mapM f') := by
  induction has generalizing w with
  | nil => exact pure fun _ _ ↦ .nil
  | cons ha _ ih =>
    rw [List.mapM_cons, List.mapM_cons]
    refine (hf _ _ ha).bind fun w₁ b b' hw hb ↦
      (ih fun a a' h ↦ (hf a a' h).mono hw).bind fun w₂ bs bs' hw₂ hbs ↦ ?_
    exact pure fun w₃ hw₃ ↦ .cons (hT (hw₂.trans hw₃) hb) (hbs.imp fun _ _ ↦ hT hw₃)

theorem within {env : Env} {marks' : List Bool} (h : Abreast x y w marks' S act act')
    (henv : Spans w env.chain marks') :
    Abreast x y w marks S (within env act) (within env act') := by
  intro w₁ m m' hw hm hspans
  have hin : Machine.Respelled x y w₁ { m with env := env } { m' with env := env } :=
    { hm with env_eq := rfl }
  have hact := h hw hin (henv.mono hw)
  unfold Exec.within
  dsimp only
  generalize act _ = r at hact ⊢
  generalize act' _ = r' at hact ⊢
  cases hact with
  | ok hw₁ ha hm₁ hplace =>
    exact .ok hw₁ ha { hm₁ with env_eq := hm.env_eq } { hplace with env_eq := rfl }
  | error hw₁ hi hm₁ => exact .error hw₁ hi { hm₁ with env_eq := hm.env_eq }

theorem active {paren : Token} (h : Abreast x y w marks S act act') :
    Abreast x y w marks S (active paren act) (active paren act') := by
  intro w₁ m m' hw hm hspans
  have hin : m.called.Respelled x y w₁ m'.called :=
    { hm with depth_eq := congrArg (· + 1) hm.depth_eq }
  have hout {w₂ : List Bool} {m₁ m₁' : Machine} (hm₁ : m₁.Respelled x y w₂ m₁') :
      Machine.Respelled x y w₂ { m₁ with depth := m₁.depth - 1 } { m₁' with depth := m₁'.depth - 1 } :=
    { hm₁ with depth_eq := congrArg (· - 1) hm₁.depth_eq }
  have hact := h hw hin hspans
  unfold Exec.active
  rw [← Machine.called, ← Machine.called]
  generalize act _ = r at hact ⊢
  generalize act' _ = r' at hact ⊢
  cases hact with
  | ok hw₁ ha hm₁ hplace =>
    exact .ok hw₁ ha (hout hm₁) { hplace with depth_eq := congrArg (· - 1) hplace.depth_eq }
  | error hw₁ hi hm₁ =>
    cases hi with
    | tooDeep => exact .error hw₁ (.error ⟨rfl, .refl paren⟩) (hout hm₁)
    | error he => exact .error hw₁ (.error he) (hout hm₁)
    | pastGlobals => exact .error hw₁ .pastGlobals (hout hm₁)
    | unbound => exact .error hw₁ .unbound (hout hm₁)
    | unknown => exact .error hw₁ .unknown (hout hm₁)
    | endless => exact .error hw₁ .endless (hout hm₁)

end Abreast

section Steps

variable {v v' : Value} {t t' : Token} {name : String}

theorem value_abreast (hv : v.Respelled x y w v') :
    Abreast x y w marks (Value.Respelled x y) (pure v) (pure v') :=
  .pure fun _ hw ↦ hv.mono hw

theorem fail_abreast (cause : RuntimeError.Cause) (t : Token) :
    Abreast x y w marks S (fail cause t) (fail cause t) :=
  .throw (.error ⟨rfl, .refl t⟩)

theorem ofExcept_abreast (e : Except RuntimeError α) :
    Abreast x y w marks (fun _ a a' ↦ a' = a ∧ e = .ok a) (ofExcept e) (ofExcept e) := by
  cases e with
  | ok a => exact .pure fun _ _ ↦ ⟨rfl, rfl⟩
  | error e => exact .throw (.error ⟨rfl, .refl e.token⟩)

theorem print_abreast (text : String) :
    Abreast x y w marks (fun _ ↦ Eq) (print text) (print text) :=
  fun _ _ _ _ hm _ ↦
    .ok List.prefix_rfl rfl { hm with printed_eq := congrArg (·.push text) hm.printed_eq } ⟨rfl, rfl⟩

theorem identity_abreast : Abreast x y w marks (fun _ ↦ Eq) identity identity :=
  fun _ _ _ _ hm _ ↦
    .ok List.prefix_rfl hm.fresh_eq.symm { hm with fresh_eq := congrArg (· + 1) hm.fresh_eq } ⟨rfl, rfl⟩

theorem result_abreast (s : Scalar) :
    Abreast x y w marks (Value.Respelled x y) (result (.scalar s)) (result (.scalar s)) := by
  unfold result
  split
  · split
    · exact identity_abreast.bind fun _ _ _ _ h ↦ h ▸ value_abreast .scalar
    · exact value_abreast .scalar
  · exact value_abreast .scalar

theorem define_abreast (ht : t.Respelled x y (markAt marks (some 0)) t')
    (hv : v.Respelled x y w v') :
    Abreast x y w marks (fun _ ↦ Eq) (define t.lexeme v) (define t'.lexeme v') := by
  intro w₁ m m' hw hm hspans
  have hmark : w₁[m.env.frame]? = some (markAt marks (some 0)) := hspans.mark rfl
  have hframes : Frames.Respelled x y w₁ (Value.Respelled x y w₁)
      (m.frames.define m.env.frame t.lexeme v) (m'.frames.define m'.env.frame t'.lexeme v') := by
    rw [hm.env_eq, ht.lexeme_eq]
    exact hm.frames.define hmark ht.known (hv.mono hw)
  exact .ok List.prefix_rfl rfl { hm with frames := hframes } ⟨rfl, rfl⟩

theorem newFrame_abreast (anew : Bool) {b b' : Bindings Value}
    (hb : b.Respelled x y anew (Value.Respelled x y w) b') :
    Abreast x y w marks (fun w₁ f f' ↦ f' = f ∧ w₁[f]? = some anew) (newFrame b) (newFrame b') := by
  intro w₁ m m' hw hm hspans
  have hgrow : w₁ <+: w₁ ++ [anew] := List.prefix_append w₁ [anew]
  have hpush := (hm.frames.mono fun v v' hv ↦ hv.mono hgrow).push
    (hb.mono fun v v' hv ↦ hv.mono (hw.trans hgrow))
  have hnext : (w₁ ++ [anew])[m.frames.next]? = some anew := by
    rw [← hm.frames.length_eq, List.getElem?_concat_length]
  refine .ok hgrow ⟨hm.frames.next_eq, hnext⟩ ?_ ⟨rfl, rfl⟩
  exact { hm with
    frames := hpush, fields := fun o ↦ (hm.fields o).mono fun v v' hv ↦ hv.mono hgrow }

theorem newObject_abreast : Abreast x y w marks (fun _ ↦ Eq) newObject newObject := by
  intro w₁ m m' hw hm hspans
  have hfields (object : Nat) : (m.newObject.fields object).Rel (Value.Respelled x y w₁)
      (m'.newObject.fields object) := by
    rw [m.fields_newObject, m'.fields_newObject]
    exact hm.fields object
  exact .ok List.prefix_rfl hm.objects_eq.symm
    { hm with objects_eq := by simp [hm.objects_eq], fields := hfields } ⟨rfl, rfl⟩

theorem field?_abreast (object : Nat) (name : String) :
    Abreast x y w marks (fun w₁ ↦ Option.Rel (Value.Respelled x y w₁)) (field? object name)
      (field? object name) :=
  Abreast.get.bind fun _ _ _ _ hm ↦ .pure fun _ hw ↦
    ((hm.1.fields object).mono fun _ _ hv ↦ hv.mono hw).get? name

theorem setField_abreast (object : Nat) (name : String) (hv : v.Respelled x y w v') :
    Abreast x y w marks (fun _ ↦ Eq) (setField object name v) (setField object name v') := by
  intro w₁ m m' hw hm hspans
  have hfields (i : Nat) : ((m.setField object name v).fields i).Rel (Value.Respelled x y w₁)
      ((m'.setField object name v').fields i) := by
    rw [m.fields_setField, m'.fields_setField, hm.objects_eq]
    split
    · exact (hm.fields i).set name (hv.mono hw)
    · exact hm.fields i
  exact .ok List.prefix_rfl rfl
    { hm with objects_eq := by simp [hm.objects_eq], fields := hfields } ⟨rfl, rfl⟩

theorem getAt_abreast {fs fs' : Frames Value} (h : fs.Respelled x y w (Value.Respelled x y w) fs')
    {e : Env} {marks' : List Bool} (he : Spans w e.chain marks') (hops : Nat) (hname : name ≠ y) :
    Abreast x y w marks (Value.Respelled x y) (ofFit (fs.getAt e hops name))
      (ofFit (fs'.getAt e hops (spelling x y (markAt marks' (some hops)) name))) := by
  unfold Frames.getAt Env.frameAt
  cases hf : e.chain[hops]? with
  | none => exact .throw .pastGlobals
  | some f =>
    have hv := h.bindings_get? (he.mark hf) hname
    simp only [Except.bind, Bind.bind]
    generalize (fs.bindings f).get? name = v at hv ⊢
    generalize (fs'.bindings f).get? _ = v' at hv ⊢
    cases hv with
    | none => exact .throw .unbound
    | some hv => exact value_abreast hv

theorem read_abreast {hops : Option Nat} (ht : t.Respelled x y (markAt marks hops) t') :
    Abreast x y w marks (Value.Respelled x y) (read t hops) (read t' hops) := by
  refine Abreast.get.bind fun w₁ m m' _ ⟨hm, hspans⟩ ↦ ?_
  cases hops with
  | none =>
    have hsame : t' = t := ht.eq.trans t.spelled_false
    subst hsame
    have hv := hm.frames.get? t'.lexeme
    dsimp only
    generalize m.frames.get? .globals t'.lexeme = v at hv ⊢
    generalize m'.frames.get? .globals t'.lexeme = v' at hv ⊢
    cases hv with
    | none => exact fail_abreast _ _
    | some hv => exact value_abreast hv
  | some d =>
    dsimp only
    rw [hm.env_eq, ht.lexeme_eq]
    exact getAt_abreast hm.frames hspans d ht.known

theorem write_abreast {hops : Option Nat} (ht : t.Respelled x y (markAt marks hops) t')
    (hv : v.Respelled x y w v') :
    Abreast x y w marks (fun _ ↦ Eq) (write t hops v) (write t' hops v') := by
  intro w₁ m m' hw hm hspans
  have hok {f : FrameId} {anew : Bool} (hf : w₁[f]? = some anew) :
      EndsAbreast x y w₁ (fun _ ↦ Eq) m (.ok () { m with frames := m.frames.define f t.lexeme v })
        (.ok () { m' with frames := m'.frames.define f (spelling x y anew t.lexeme) v' }) :=
    .ok List.prefix_rfl rfl { hm with frames := hm.frames.define hf ht.known (hv.mono hw) } ⟨rfl, rfl⟩
  unfold write Machine.target
  cases hops with
  | none =>
    have hsame : t' = t := ht.eq.trans t.spelled_false
    subst hsame
    dsimp only
    rw [hm.frames.binder?_eq]
    cases hb : m.frames.binder? .globals t'.lexeme with
    | none => exact .error List.prefix_rfl (.error ⟨rfl, .refl t'⟩) hm
    | some f =>
      have hf : f = 0 := by simpa [Env.chain, Env.globals] using List.mem_of_find?_eq_some hb
      subst hf
      have h := hok hm.frames.unmarked
      rw [spelling_false] at h
      exact h
  | some d =>
    have hframe : m'.env.frameAt d = m.env.frameAt d := by rw [hm.env_eq]
    dsimp only
    rw [hframe, ht.lexeme_eq, Env.frameAt]
    cases hf : m.env.chain[d]? with
    | none => exact .error List.prefix_rfl .pastGlobals hm
    | some f => exact hok (hspans.mark hf)

end Steps

end Exec

end TreeWalk
