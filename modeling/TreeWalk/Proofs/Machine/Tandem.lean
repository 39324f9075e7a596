import TreeWalk.Proofs.Machine.Lockstep
import TreeWalk.Proofs.Machine.Thinned

namespace TreeWalk

structure Machine.Onward (w : List FrameId) (m m' : Machine) (w₁ : List FrameId) (m₁ m₁' : Machine) :
    Prop where
  grows : w <+: w₁
  thinned : m₁.Thinned w₁ m₁'
  left : m.Beside m₁
  right : m'.Beside m₁'

namespace Machine.Onward

variable {w w₁ w₂ : List FrameId} {m m' m₁ m₁' m₂ m₂' : Machine}

theorem refl (hm : m.Thinned w m') : Onward w m m' w m m' :=
  ⟨List.prefix_rfl, hm, .refl m, .refl m'⟩

theorem trans (h : Onward w m m' w₁ m₁ m₁') (h' : Onward w₁ m₁ m₁' w₂ m₂ m₂') :
    Onward w m m' w₂ m₂ m₂' :=
  ⟨h.grows.trans h'.grows, h'.thinned, h.left.trans h'.left, h.right.trans h'.right⟩

theorem aligned {marks : List Bool} (h : Onward w m m' w₁ m₁ m₁')
    (halign : Aligned w m.env.chain m'.env.chain marks) :
    Aligned w₁ m₁.env.chain m₁'.env.chain marks := by
  rw [h.left.env_eq, h.right.env_eq]
  exact halign.mono h.grows

theorem within {env env' : Env}
    (h : Onward w { m with env := env } { m' with env := env' } w₁ m₁ m₁') :
    Onward w m m' w₁ { m₁ with env := m.env } { m₁' with env := m'.env } :=
  ⟨h.grows, ⟨h.thinned.frames, h.thinned.objects_eq, h.thinned.fields, h.thinned.fresh_eq,
    h.thinned.depth_eq, h.thinned.printed_eq⟩, ⟨rfl, h.left.depth_eq⟩, ⟨rfl, h.right.depth_eq⟩⟩

theorem active (h : Onward w m.called m'.called w₁ m₁ m₁') :
    Onward w m m' w₁ { m₁ with depth := m₁.depth - 1 } { m₁' with depth := m₁'.depth - 1 } :=
  ⟨h.grows, { h.thinned with depth_eq := congrArg (· - 1) h.thinned.depth_eq },
    ⟨h.left.env_eq, congrArg (· - 1) h.left.depth_eq⟩,
    ⟨h.right.env_eq, congrArg (· - 1) h.right.depth_eq⟩⟩

end Machine.Onward

namespace Exec

variable {α β : Type}

/-- How steps end, and others in tandem with them. -/
inductive EndsTandem (w : List FrameId) (S : List FrameId → α → α → Prop) (m m' : Machine) :
    EStateM.Result Interrupt Machine α → EStateM.Result Interrupt Machine α → Prop
  | ok {w₁ : List FrameId} {a a' : α} {m₁ m₁' : Machine} :
      Machine.Onward w m m' w₁ m₁ m₁' → S w₁ a a' → EndsTandem w S m m' (.ok a m₁) (.ok a' m₁')
  | error {w₁ : List FrameId} {i : Interrupt} {m₁ m₁' : Machine} :
      Machine.Onward w m m' w₁ m₁ m₁' → EndsTandem w S m m' (.error i m₁) (.error i m₁')

/-- Steps that are in tandem once at least the given frames stand for others. -/
def Tandem (w : List FrameId) (marks : List Bool) (S : List FrameId → α → α → Prop)
    (act act' : Exec α) : Prop :=
  ∀ ⦃w₁ m m'⦄, w <+: w₁ → m.Thinned w₁ m' → Aligned w₁ m.env.chain m'.env.chain marks →
    EndsTandem w₁ S m m' (act m) (act' m')

variable {w : List FrameId} {marks : List Bool} {S : List FrameId → α → α → Prop}
  {T : List FrameId → β → β → Prop}

theorem EndsTandem.after {w₁ : List FrameId} {m m' m₁ m₁' : Machine}
    {r r' : EStateM.Result Interrupt Machine α} (h : EndsTandem w₁ S m₁ m₁' r r')
    (hm : Machine.Onward w m m' w₁ m₁ m₁') : EndsTandem w S m m' r r' := by
  cases h with
  | ok h ha => exact .ok (hm.trans h) ha
  | error h => exact .error (hm.trans h)

namespace Tandem

variable {act act' : Exec α} {f f' : α → Exec β} {a a' : α}

theorem mono {w₁ : List FrameId} (h : Tandem w marks S act act') (hw : w <+: w₁) :
    Tandem w₁ marks S act act' :=
  fun _ _ _ hw₁ ↦ h (hw.trans hw₁)

theorem pure (h : ∀ w₁, w <+: w₁ → S w₁ a a') :
    Tandem w marks S (Pure.pure a) (Pure.pure a') :=
  fun w₁ _ _ hw hm _ ↦ .ok (.refl hm) (h w₁ hw)

theorem throw (i : Interrupt) : Tandem w marks S (throw i) (throw i) :=
  fun _ _ _ _ hm _ ↦ .error (.refl hm)

theorem bind (h : Tandem w marks S act act')
    (hf : ∀ w₁ a a', w <+: w₁ → S w₁ a a' → Tandem w₁ marks T (f a) (f' a')) :
    Tandem w marks T (act >>= f) (act' >>= f') := by
  intro w₁ m m' hw hm halign
  have hact := h hw hm halign
  show EndsTandem w₁ T m m' (EStateM.bind act f m) (EStateM.bind act' f' m')
  unfold EStateM.bind
  generalize act m = r at hact ⊢
  generalize act' m' = r' at hact ⊢
  cases hact with
  | ok h ha =>
    exact (hf _ _ _ (hw.trans h.grows) ha List.prefix_rfl h.thinned (h.aligned halign)).after h
  | error h => exact .error h

theorem get : Tandem w marks
    (fun w₁ m m' ↦ m.Thinned w₁ m' ∧ Aligned w₁ m.env.chain m'.env.chain marks) get get :=
  fun _ _ _ _ hm halign ↦ .ok (.refl hm) ⟨hm, halign⟩

theorem discard (h : Tandem w marks S act act') :
    Tandem w marks (fun _ ↦ Eq) (discard act) (discard act') :=
  h.bind fun _ _ _ _ _ ↦ pure fun _ _ ↦ rfl

theorem knowing {P : α → Prop} (h : Tandem w marks S act act')
    (hP : ∀ m a m₁, act m = .ok a m₁ → P a) :
    Tandem w marks (fun w₁ a a' ↦ S w₁ a a' ∧ P a) act act' := by
  intro w₁ m m' hw hm halign
  have hact := h hw hm halign
  have hknown := hP m
  generalize act m = r at hact hknown ⊢
  generalize act' m' = r' at hact ⊢
  cases hact with
  | ok h ha => exact .ok h ⟨ha, hknown _ _ rfl⟩
  | error h => exact .error h

theorem mapM (hT : ∀ {w w' : List FrameId} {b b'}, w <+: w' → T w b b' → T w' b b')
    {P : α → α → Prop} {as as' : List α} (has : List.Forall₂ P as as')
    (hf : ∀ a a', P a a' → Tandem w marks T (f a) (f' a')) :
    Tandem w marks (fun w₁ ↦ List.Forall₂ (T w₁)) (as.mapM f) (as'.mapM f') := by
  induction has generalizing w with
  | nil => exact pure fun _ _ ↦ .nil
  | cons ha _ ih =>
    rw [List.mapM_cons, List.mapM_cons]
    refine (hf _ _ ha).bind fun w₁ b b' hw hb ↦
      (ih fun a a' h ↦ (hf a a' h).mono hw).bind fun w₂ bs bs' hw₂ hbs ↦ ?_
    exact pure fun w₃ hw₃ ↦ .cons (hT (hw₂.trans hw₃) hb) (hbs.imp fun _ _ ↦ hT hw₃)

theorem within {env env' : Env} {marks' : List Bool} (h : Tandem w marks' S act act')
    (henv : Aligned w env.chain env'.chain marks') :
    Tandem w marks S (within env act) (within env' act') := by
  intro w₁ m m' hw hm _
  have hin : Machine.Thinned w₁ { m with env := env } { m' with env := env' } :=
    ⟨hm.frames, hm.objects_eq, hm.fields, hm.fresh_eq, hm.depth_eq, hm.printed_eq⟩
  have hact := h hw hin (henv.mono hw)
  unfold Exec.within
  dsimp only
  generalize act _ = r at hact ⊢
  generalize act' _ = r' at hact ⊢
  cases hact with
  | ok h ha => exact .ok h.within ha
  | error h => exact .error h.within

theorem inSpare (h : Tandem w (true :: marks) S act act') :
    Tandem w marks S (do
      let frame ← newFrame .empty
      Exec.within ((← MonadState.get).env.inside frame) act) act' := by
  intro w₁ m m' hw hm halign
  have hin : Machine.Thinned w₁ (m.inside m.env .empty) m' :=
    ⟨hm.frames.spare .empty, hm.objects_eq, hm.fields, hm.fresh_eq, hm.depth_eq, hm.printed_eq⟩
  have hout {w₂ : List FrameId} {m₁ m₁' : Machine}
      (h : Machine.Onward w₁ (m.inside m.env .empty) m' w₂ m₁ m₁') :
      Machine.Onward w₁ m m' w₂ { m₁ with env := m.env } m₁' :=
    ⟨h.grows, ⟨h.thinned.frames, h.thinned.objects_eq, h.thinned.fields, h.thinned.fresh_eq,
      h.thinned.depth_eq, h.thinned.printed_eq⟩, ⟨rfl, h.left.depth_eq⟩, h.right⟩
  have hact := h hw hin (.spare halign)
  show EndsTandem w₁ S m m' (Exec.within (m.env.inside m.frames.next) act
    { m with frames := m.frames.push .empty }) (act' m')
  unfold Exec.within
  dsimp only
  unfold Machine.inside at hact
  generalize act _ = r at hact ⊢
  generalize act' m' = r' at hact ⊢
  cases hact with
  | ok h ha => exact .ok (hout h) ha
  | error h => exact .error (hout h)

theorem active {paren : Token} (h : Tandem w marks S act act') :
    Tandem w marks S (active paren act) (active paren act') := by
  intro w₁ m m' hw hm halign
  have hin : m.called.Thinned w₁ m'.called :=
    { hm with depth_eq := congrArg (· + 1) hm.depth_eq }
  have hact := h hw hin halign
  unfold Exec.active
  rw [← Machine.called, ← Machine.called]
  generalize act _ = r at hact ⊢
  generalize act' _ = r' at hact ⊢
  cases hact with
  | ok h ha => exact .ok h.active ha
  | @error _ i _ _ h => cases i <;> exact .error h.active

end Tandem

section Steps

variable {v v' : Value} {name : String}

theorem value_tandem (hv : v.Thinned w v') :
    Tandem w marks Value.Thinned (pure v) (pure v') :=
  .pure fun _ hw ↦ hv.mono hw

theorem fail_tandem (cause : RuntimeError.Cause) (t : Token) :
    Tandem w marks S (fail cause t) (fail cause t) :=
  .throw _

theorem ofExcept_tandem (e : Except RuntimeError α) :
    Tandem w marks (fun _ a a' ↦ a' = a ∧ e = .ok a) (ofExcept e) (ofExcept e) := by
  cases e with
  | ok a => exact .pure fun _ _ ↦ ⟨rfl, rfl⟩
  | error e => exact .throw _

theorem print_tandem (text : String) :
    Tandem w marks (fun _ ↦ Eq) (print text) (print text) := by
  intro w₁ m m' _ hm _
  refine .ok ⟨List.prefix_rfl, ?_, ⟨rfl, rfl⟩, ⟨rfl, rfl⟩⟩ rfl
  exact { hm with printed_eq := congrArg (·.push text) hm.printed_eq }

theorem identity_tandem : Tandem w marks (fun _ ↦ Eq) identity identity := by
  intro w₁ m m' _ hm _
  refine .ok ⟨List.prefix_rfl, ?_, ⟨rfl, rfl⟩, ⟨rfl, rfl⟩⟩ hm.fresh_eq.symm
  exact { hm with fresh_eq := congrArg (· + 1) hm.fresh_eq }

theorem result_tandem (s : Scalar) :
    Tandem w marks Value.Thinned (result (.scalar s)) (result (.scalar s)) := by
  unfold result
  split
  · split
    · exact identity_tandem.bind fun _ _ _ _ h ↦ h ▸ value_tandem .scalar
    · exact value_tandem .scalar
  · exact value_tandem .scalar

theorem written {w₁ : List FrameId} {m m' : Machine} {f f' : FrameId} (hm : m.Thinned w₁ m')
    (hf : w₁[f']? = some f) (hv : v.Thinned w₁ v') :
    Machine.Onward w₁ m m' w₁ { m with frames := m.frames.define f name v }
      { m' with frames := m'.frames.define f' name v' } :=
  ⟨List.prefix_rfl, { hm with frames := hm.frames.define hf name hv }, ⟨rfl, rfl⟩, ⟨rfl, rfl⟩⟩

theorem define_tandem (hmarks : Declares marks) (name : String) (hv : v.Thinned w v') :
    Tandem w marks (fun _ ↦ Eq) (define name v) (define name v') :=
  fun _ _ _ hw hm halign ↦ .ok (written hm (halign.head hmarks) (hv.mono hw)) rfl

theorem newFrame_tandem {b b' : Bindings Value} (hb : b.Agree (Value.Thinned w) b') :
    Tandem w marks (fun w₁ f f' ↦ w₁[f']? = some f) (newFrame b) (newFrame b') := by
  intro w₁ m m' hw hm _
  have hgrow : w₁ <+: w₁ ++ [m.frames.next] := List.prefix_append w₁ _
  have hpush := (hm.frames.mono fun v v' hv ↦ hv.mono hgrow).push
    (hb.mono fun v v' hv ↦ hv.mono (hw.trans hgrow))
  have hnext : (w₁ ++ [m.frames.next])[m'.frames.next]? = some m.frames.next := by
    rw [← hm.frames.length_eq, List.getElem?_concat_length]
  refine .ok ⟨hgrow, ?_, ⟨rfl, rfl⟩, ⟨rfl, rfl⟩⟩ hnext
  exact { hm with
    frames := hpush, fields := fun o ↦ (hm.fields o).mono fun v v' hv ↦ hv.mono hgrow }

theorem newObject_tandem : Tandem w marks (fun _ ↦ Eq) newObject newObject := by
  intro w₁ m m' _ hm _
  have hfields (object : Nat) : (m.newObject.fields object).Agree (Value.Thinned w₁)
      (m'.newObject.fields object) := by
    rw [m.fields_newObject, m'.fields_newObject]
    exact hm.fields object
  refine .ok ⟨List.prefix_rfl, ?_, ⟨rfl, rfl⟩, ⟨rfl, rfl⟩⟩ hm.objects_eq.symm
  exact { hm with objects_eq := by simp [hm.objects_eq], fields := hfields }

theorem field?_tandem (object : Nat) (name : String) :
    Tandem w marks (fun w₁ ↦ Option.Rel (Value.Thinned w₁)) (field? object name)
      (field? object name) :=
  Tandem.get.bind fun _ _ _ _ hm ↦ .pure fun _ hw ↦
    ((hm.1.fields object).mono fun _ _ hv ↦ hv.mono hw) name

theorem setField_tandem (object : Nat) (name : String) (hv : v.Thinned w v') :
    Tandem w marks (fun _ ↦ Eq) (setField object name v) (setField object name v') := by
  intro w₁ m m' hw hm _
  have hfields (i : Nat) : ((m.setField object name v).fields i).Agree (Value.Thinned w₁)
      ((m'.setField object name v').fields i) := by
    rw [m.fields_setField, m'.fields_setField, hm.objects_eq]
    split
    · exact (hm.fields i).set name (hv.mono hw)
    · exact hm.fields i
  refine .ok ⟨List.prefix_rfl, ?_, ⟨rfl, rfl⟩, ⟨rfl, rfl⟩⟩ rfl
  exact { hm with objects_eq := by simp [hm.objects_eq], fields := hfields }

theorem getAt_tandem {m m' : Machine} (hm : m.Thinned w m') {e e' : Env} {d d' f f' : Nat}
    (hf : e.chain[d]? = some f) (hf' : e'.chain[d']? = some f') (hpair : w[f']? = some f)
    (name : String) : Tandem w marks Value.Thinned (ofFit (m.frames.getAt e d name))
      (ofFit (m'.frames.getAt e' d' name)) := by
  have hget := hm.frames.bindings f f' hpair name
  unfold Frames.getAt Env.frameAt
  rw [hf, hf']
  simp only [Except.bind, Bind.bind]
  generalize (m.frames.bindings f).get? name = v at hget ⊢
  generalize (m'.frames.bindings f').get? name = v' at hget ⊢
  cases hget with
  | none => exact .throw _
  | some hv => exact value_tandem hv

theorem read_tandem {ref ref' : Ref} (href : ref.Thinned marks ref') (name : Token) :
    Tandem w marks Value.Thinned (read name ref.hops) (read name ref'.hops) := by
  refine Tandem.get.bind fun w₁ m m' _ ⟨hm, halign⟩ ↦ ?_
  have hhops := href.hops
  generalize ref.hops = hops at hhops ⊢
  generalize ref'.hops = hops' at hhops ⊢
  cases hhops with
  | none =>
    have hget := hm.frames.get? name.lexeme
    dsimp only
    generalize m.frames.get? .globals name.lexeme = v at hget ⊢
    generalize m'.frames.get? .globals name.lexeme = v' at hget ⊢
    cases hget with
    | none => exact fail_tandem _ _
    | some hv => exact value_tandem hv
  | some hd =>
    obtain ⟨f, f', hf, hf', hpair⟩ := halign.pair hd
    exact getAt_tandem hm hf hf' hpair name.lexeme

theorem write_tandem {ref ref' : Ref} (href : ref.Thinned marks ref') (name : Token)
    (hv : v.Thinned w v') :
    Tandem w marks (fun _ ↦ Eq) (write name ref.hops v) (write name ref'.hops v') := by
  intro w₁ m m' hw hm halign
  have hhops := href.hops
  generalize ref.hops = hops at hhops ⊢
  generalize ref'.hops = hops' at hhops ⊢
  unfold write Machine.target
  cases hhops with
  | none =>
    dsimp only
    rw [hm.frames.binder?_eq]
    cases hb : m.frames.binder? .globals name.lexeme with
    | none => exact .error (.refl hm)
    | some f =>
      obtain rfl : f = 0 := by
        simpa [Env.chain, Env.globals] using List.mem_of_find?_eq_some hb
      exact .ok (written hm hm.frames.globals (hv.mono hw)) rfl
  | some hd =>
    obtain ⟨f, f', hf, hf', hpair⟩ := halign.pair hd
    dsimp only [Env.frameAt]
    rw [hf, hf']
    exact .ok (written hm hpair (hv.mono hw)) rfl

end Steps

end Exec

end TreeWalk
