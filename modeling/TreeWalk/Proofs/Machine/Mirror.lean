import TreeWalk.Proofs.Machine.Pairing
import TreeWalk.Proofs.Machine.Restoration

namespace TreeWalk

namespace Mirrored

variable {W W₁ : Pairing} {m m' m₁ m₁' : Machine}

theorem within {env env' : Env}
    (h : Mirrored W { m with env := env } { m' with env := env' } W₁ m₁ m₁') :
    Mirrored W m m' W₁ { m₁ with env := m.env } { m₁' with env := m'.env } where
  twin := ⟨h.twin.unique, h.twin.lt, h.twin.contents, h.twin.depth_eq⟩
  le := h.le
  new := h.new
  left := ⟨h.left.size_le, h.left.contents_eq, rfl, h.left.beside.depth_eq⟩
  right := ⟨h.right.size_le, h.right.contents_eq, rfl, h.right.beside.depth_eq⟩
  printed := h.printed

theorem active (h : Mirrored W m.called m'.called W₁ m₁ m₁') :
    Mirrored W m m' W₁ { m₁ with depth := m₁.depth - 1 } { m₁' with depth := m₁'.depth - 1 } where
  twin := ⟨h.twin.unique, h.twin.lt, h.twin.contents, congrArg (· - 1) h.twin.depth_eq⟩
  le := h.le
  new := h.new
  left := ⟨h.left.size_le, h.left.contents_eq, h.left.beside.env_eq,
    congrArg (· - 1) h.left.beside.depth_eq⟩
  right := ⟨h.right.size_le, h.right.contents_eq, h.right.beside.env_eq,
    congrArg (· - 1) h.right.beside.depth_eq⟩
  printed := h.printed

end Mirrored

namespace Exec

variable {α β : Type}

/-- From twins, in environments of which so many frames are paired, the second steps come to a value if the
first do. -/
def Mirrors (W : Pairing) (n : Nat) (S : Pairing → α → α → Prop) (act act' : Exec α) : Prop :=
  ∀ ⦃W₁ m m'⦄, W ≤ W₁ → m.Twin W₁ m' → m.env.Twin W₁ n m'.env → ∀ a m₁, act m = .ok a m₁ →
    ∃ W₂ a' m₁', act' m' = .ok a' m₁' ∧ S W₂ a a' ∧ Mirrored W₁ m m' W₂ m₁ m₁'

variable {W W₁ : Pairing} {n : Nat} {m m' m₁ m₁' : Machine}

namespace Mirrors

variable {S : Pairing → α → α → Prop} {T : Pairing → β → β → Prop} {act act' : Exec α}
  {f f' : α → Exec β} {a a' : α}

theorem mono (h : Mirrors W n S act act') (hW : W ≤ W₁) : Mirrors W₁ n S act act' :=
  fun _ _ _ hW₁ ↦ h (hW.trans hW₁)

/-- A pairing in which something is paired twice is of no two machines. -/
theorem of_unique (h : (∀ c, Relator.BiUnique (W c)) → Mirrors W n S act act') :
    Mirrors W n S act act' := by
  intro W₁ m m' hW hm
  refine h (fun c ↦ ⟨fun a a' b ha ha' ↦ ?_, fun a b b' hb hb' ↦ ?_⟩) hW hm
  · exact (hm.unique c).1 (hW _ _ _ ha) (hW _ _ _ ha')
  · exact (hm.unique c).2 (hW _ _ _ hb) (hW _ _ _ hb')

theorem pure (h : ∀ W₁, W ≤ W₁ → S W₁ a a') : Mirrors W n S (pure a) (pure a') := by
  intro W₁ m m' hW hm _ _ _ hrun
  cases hrun
  exact ⟨W₁, a', m', rfl, h W₁ hW, .refl hm⟩

theorem throw (i : Interrupt) : Mirrors W n S (throw i) act' := by
  intro _ _ _ _ _ _ _ _ hrun
  cases hrun

theorem bind (h : Mirrors W n S act act')
    (hf : ∀ W₁ a a', W ≤ W₁ → S W₁ a a' → Mirrors W₁ n T (f a) (f' a')) :
    Mirrors W n T (act >>= f) (act' >>= f') := by
  intro W₁ m m' hW hm henv b m₂ hrun
  obtain ⟨a, m₁, hact, hrest⟩ := ok_of_bind hrun
  obtain ⟨W₂, a', m₁', hact', ha, hsteps⟩ := h hW hm henv a m₁ hact
  have henv₁ : m₁.env.Twin W₂ n m₁'.env := by
    rw [hsteps.left.beside.env_eq, hsteps.right.beside.env_eq]
    exact henv.mono hsteps.le
  obtain ⟨W₃, b', m₂', hrest', hb, hsteps'⟩ :=
    hf W₂ a a' (hW.trans hsteps.le) ha le_rfl hsteps.twin henv₁ b m₂ hrest
  exact ⟨W₃, b', m₂', (bind_of_ok hact').trans hrest', hb, hsteps.trans hsteps'⟩

theorem get : Mirrors W n (fun W₁ m m' ↦ m.Twin W₁ m' ∧ m.env.Twin W₁ n m'.env) get get := by
  intro W₁ m m' _ hm henv _ _ hrun
  cases hrun
  exact ⟨W₁, m', m', rfl, ⟨hm, henv⟩, .refl hm⟩

theorem discard (h : Mirrors W n S act act') :
    Mirrors W n (fun _ ↦ Eq) (discard act) (discard act') :=
  h.bind fun _ _ _ _ _ ↦ pure fun _ _ ↦ rfl

theorem mapM {γ : Type} {g : γ → Exec β} (as : List γ)
    (hT : ∀ {W W' : Pairing} {b b'}, W ≤ W' → T W b b' → T W' b b')
    (hg : ∀ a ∈ as, Mirrors W n T (g a) (g a)) :
    Mirrors W n (fun W₁ ↦ List.Forall₂ (T W₁)) (as.mapM g) (as.mapM g) := by
  induction as generalizing W with
  | nil => exact pure fun _ _ ↦ .nil
  | cons a as ih =>
    rw [List.mapM_cons]
    refine (hg a (.head _)).bind fun W₁ b b' hW hb ↦
      (ih fun a ha ↦ (hg a (.tail _ ha)).mono hW).bind fun W₂ bs bs' hW₂ hbs ↦ ?_
    exact pure fun W₃ hW₃ ↦ .cons (hT (hW₂.trans hW₃) hb) (hbs.imp fun _ _ ↦ hT hW₃)

theorem within {env env' : Env} {k : Nat} (h : Mirrors W k S act act') (henv : env.Twin W k env') :
    Mirrors W n S (within env act) (within env' act') := by
  intro W₁ m m' hW hm _ a m₁ hrun
  have hin : Machine.Twin W₁ { m with env := env } { m' with env := env' } :=
    ⟨hm.unique, hm.lt, hm.contents, hm.depth_eq⟩
  unfold Exec.within at hrun
  cases hact : act { m with env := env } with
  | error i m₂ =>
    rw [hact] at hrun
    cases hrun
  | ok b m₂ =>
    rw [hact] at hrun
    cases hrun
    obtain ⟨W₂, a', m₂', hact', ha, hsteps⟩ := h hW hin (henv.mono hW) a m₂ hact
    refine ⟨W₂, a', { m₂' with env := m'.env }, ?_, ha, hsteps.within⟩
    unfold Exec.within
    rw [hact']

theorem active {paren : Token} (h : Mirrors W n S act act') :
    Mirrors W n S (active paren act) (active paren act') := by
  intro W₁ m m' hW hm henv a m₁ hrun
  have hin : m.called.Twin W₁ m'.called :=
    ⟨hm.unique, hm.lt, hm.contents, congrArg (· + 1) hm.depth_eq⟩
  unfold Exec.active at hrun
  rw [← Machine.called] at hrun
  cases hact : act m.called with
  | error i m₂ =>
    rw [hact] at hrun
    cases i <;> cases hrun
  | ok b m₂ =>
    rw [hact] at hrun
    cases hrun
    obtain ⟨W₂, a', m₂', hact', ha, hsteps⟩ := h hW hin henv a m₂ hact
    refine ⟨W₂, a', { m₂' with depth := m₂'.depth - 1 }, ?_, ha, hsteps.active⟩
    unfold Exec.active
    rw [← Machine.called, hact']

end Mirrors

section Steps

variable {S : Pairing → α → α → Prop} {v v' : Value} {name : String}

theorem value_mirrors (hv : v.Twin W v') : Mirrors W n Value.Twin (pure v) (pure v') :=
  .pure fun _ hW ↦ hv.mono hW

theorem fail_mirrors (cause : RuntimeError.Cause) (t : Token) {act' : Exec α} :
    Mirrors W n S (fail cause t) act' :=
  .throw _

theorem ofExcept_mirrors (e : Except RuntimeError α) :
    Mirrors W n (fun _ a a' ↦ a' = a ∧ e = .ok a) (ofExcept e) (ofExcept e) := by
  cases e with
  | ok a => exact .pure fun _ _ ↦ ⟨rfl, rfl⟩
  | error e => exact .throw _

theorem adds_mirrors {c : Store} {b b' : Bindings Value} {act act' : Exec Nat}
    (hact : ∀ m, ∃ m₁, act m = .ok (m.size c) m₁ ∧ m.Adds c b m₁)
    (hact' : ∀ m, ∃ m₁, act' m = .ok (m.size c) m₁ ∧ m.Adds c b' m₁)
    (hb : b.Rel (Value.Twin W) b') : Mirrors W n (fun W₁ ↦ W₁ c) act act' := by
  intro W₁ m m' hW hm _ a m₁ hrun
  obtain ⟨m₂, hok, hadds⟩ := hact m
  obtain ⟨m₂', hok', hadds'⟩ := hact' m'
  cases hok.symm.trans hrun
  exact ⟨_, _, m₂', hok', W₁.add_self c _ _,
    hm.add hadds hadds' (hb.mono fun _ _ hv ↦ hv.mono hW)⟩

theorem newFrame_mirrors {b b' : Bindings Value} (hb : b.Rel (Value.Twin W) b') :
    Mirrors W n (fun W₁ ↦ W₁ .frames) (newFrame b) (newFrame b') :=
  adds_mirrors (fun m ↦ ⟨_, rfl, m.adds_frame b⟩) (fun m ↦ ⟨_, rfl, m.adds_frame b'⟩) hb

theorem newObject_mirrors : Mirrors W n (fun W₁ ↦ W₁ .objects) newObject newObject :=
  adds_mirrors (fun m ↦ ⟨_, rfl, m.adds_object⟩) (fun m ↦ ⟨_, rfl, m.adds_object⟩) .empty

theorem identity_mirrors : Mirrors W n (fun W₁ ↦ W₁ .identities) identity identity :=
  adds_mirrors (fun m ↦ ⟨_, rfl, m.adds_identity⟩) (fun m ↦ ⟨_, rfl, m.adds_identity⟩) .empty

theorem print_mirrors (text : String) : Mirrors W n (fun _ ↦ Eq) (print text) (print text) := by
  intro W₁ m m' _ hm _ _ _ hrun
  cases hrun
  refine ⟨W₁, (), _, rfl, rfl, ?_⟩
  exact {
    twin := ⟨hm.unique, hm.lt, hm.contents, hm.depth_eq⟩
    le := le_rfl
    new := fun _ _ _ ↦ .inl
    left := ⟨fun _ ↦ Nat.le_refl _, fun _ _ _ _ ↦ rfl, rfl, rfl⟩
    right := ⟨fun _ ↦ Nat.le_refl _, fun _ _ _ _ ↦ rfl, rfl, rfl⟩
    printed := ⟨[text], by simp, by simp⟩ }

theorem result_mirrors (s : Scalar) :
    Mirrors W n Value.Twin (result (.scalar s)) (result (.scalar s)) := by
  unfold result
  split
  · split
    · exact identity_mirrors.bind fun _ _ _ _ _ ↦ value_mirrors .nan
    · exact value_mirrors .scalar
  · exact value_mirrors .scalar

theorem define_mirrors (hv : v.Twin W v') :
    Mirrors W (n + 1) (fun _ ↦ Eq) (define name v) (define name v') := by
  intro W₁ m m' hW hm henv _ _ hrun
  cases hrun
  exact ⟨W₁, (), _, rfl, rfl,
    hm.write henv.frame (hv.mono hW) (m.writes_frame _ name v) (m'.writes_frame _ name v')⟩

theorem setField_mirrors {o o' : Nat} (ho : W .objects o o') (hv : v.Twin W v') :
    Mirrors W n (fun _ ↦ Eq) (setField o name v) (setField o' name v') := by
  intro W₁ m m' hW hm _ _ _ hrun
  cases hrun
  exact ⟨W₁, (), _, rfl, rfl,
    hm.write (hW _ _ _ ho) (hv.mono hW) (m.writes_object o name v) (m'.writes_object o' name v')⟩

theorem field?_mirrors {o o' : Nat} (ho : W .objects o o') (name : String) :
    Mirrors W n (fun W₁ ↦ Option.Rel (Value.Twin W₁)) (field? o name) (field? o' name) :=
  Mirrors.get.bind fun _ _ _ hW ⟨hm, _⟩ ↦ .pure fun _ hW₁ ↦
    ((hm.contents (hW _ _ _ ho)).mono fun _ _ hv ↦ hv.mono hW₁).get? name

theorem getAt_mirrors {e e' : Env} {k d : Nat} (hm : m.Twin W m') (henv : e.Twin W k e') (hd : d < k)
    (name : String) : Mirrors W n Value.Twin (ofFit (m.frames.getAt e d name))
      (ofFit (m'.frames.getAt e' d name)) := by
  obtain ⟨f, f', hf, hf', hpair⟩ := henv d hd
  have hget : Option.Rel (Value.Twin W) ((m.frames.bindings f).get? name)
      ((m'.frames.bindings f').get? name) := (hm.contents hpair).get? name
  unfold Frames.getAt Env.frameAt
  rw [hf, hf']
  simp only [Except.bind, Bind.bind]
  generalize (m.frames.bindings f).get? name = v at hget ⊢
  generalize (m'.frames.bindings f').get? name = v' at hget ⊢
  cases hget with
  | none => exact .throw _
  | some hv => exact value_mirrors hv

theorem read_mirrors {ref : Ref} (href : ref.Within n) (name : Token) :
    Mirrors W n Value.Twin (read name ref.hops) (read name ref.hops) := by
  obtain ⟨d, hd, hhops⟩ := href
  rw [hhops]
  exact Mirrors.get.bind fun _ _ _ _ ⟨hm, henv⟩ ↦ getAt_mirrors hm henv hd name.lexeme

theorem write_mirrors {ref : Ref} (href : ref.Within n) (name : Token) (hv : v.Twin W v') :
    Mirrors W n (fun _ ↦ Eq) (write name ref.hops v) (write name ref.hops v') := by
  obtain ⟨d, hd, hhops⟩ := href
  intro W₁ m m' hW hm henv _ _ hrun
  obtain ⟨f, f', hf, hf', hpair⟩ := henv d hd
  have htarget (m : Machine) (f : FrameId) (v : Value) (hf : m.env.chain[d]? = some f) :
      write name ref.hops v m = .ok () { m with frames := m.frames.define f name.lexeme v } := by
    unfold write Machine.target Env.frameAt
    rw [hhops]
    dsimp only
    rw [hf]
    rfl
  cases (htarget m f v hf).symm.trans hrun
  exact ⟨W₁, (), _, htarget m' f' v' hf', rfl, hm.write hpair (hv.mono hW)
    (m.writes_frame f name.lexeme v) (m'.writes_frame f' name.lexeme v')⟩

end Steps

end Exec

end TreeWalk
