import TreeWalk.Proofs.Machine.Closed

namespace TreeWalk

/-- An expression of constants. Its value is `nil`, a truth value, a number or a string. -/
inductive Expr.Constant : Expr → Prop
  | literal {value : Scalar} : Constant (.literal value)
  | group {inner : Expr} : inner.Constant → Constant (.group inner)
  | unary {operator : Token} {right : Expr} : right.Constant → Constant (.unary operator right)
  | binary {left right : Expr} {operator : Token} :
      left.Constant → right.Constant → Constant (.binary left operator right)
  | logical {left right : Expr} {operator : Token} :
      left.Constant → right.Constant → Constant (.logical left operator right)

theorem Expr.Constant.closed {e : Expr} (h : e.Constant) (n : Nat) : e.Closed n := by
  induction h with
  | literal => exact .literal
  | group _ ih => exact .group ih
  | unary _ ih => exact .unary ih
  | binary _ _ ihl ihr => exact .binary ihl ihr
  | logical _ _ ihl ihr => exact .logical ihl ihr

/-- The statement `print c(..);`, for a global `c` and constant arguments. -/
inductive Stmt.Shows (c : String) : Stmt → Prop
  | mk {name paren : Token} {ref : Ref} {arguments : List Expr} :
      name.lexeme = c → ref.hops = none → (∀ e ∈ arguments, e.Constant) →
      Shows c (.print (.call (.var name ref) paren arguments))

/-- The statement `var c = f(..);`, for a global `f` and constant arguments. -/
inductive Stmt.Makes (c f : String) : Stmt → Prop
  | mk {name function paren : Token} {ref : Ref} {arguments : List Expr} :
      name.lexeme = c → function.lexeme = f → ref.hops = none → (∀ e ∈ arguments, e.Constant) →
      Makes c f (.var name (some (.call (.var function ref) paren arguments)))

namespace Exec

variable {setup : Setup} {room : Nat} {W : Pairing} {m m' m₁ : Machine} {v v' : Value}

section Rooms

theorem eval_room {e : Expr} (h : eval setup room e m = .ok v m₁) : ∃ k, room = k + 5 := by
  rcases room with _ | _ | _ | _ | _ | k
  case succ.succ.succ.succ.succ => exact ⟨k, rfl⟩
  all_goals
    unfold eval at h
    cases h

theorem exec_room {s : Stmt} {flow : Flow} (h : exec setup room s m = .ok flow m₁) :
    ∃ k, room = k + 3 := by
  rcases room with _ | _ | _ | k
  case succ.succ.succ => exact ⟨k, rfl⟩
  all_goals
    unfold exec at h
    cases h

theorem topLevel_iff {s : Stmt} : topLevel setup s m = .ok () m₁ ↔
    ∃ flow, exec setup setup.limits.nesting s m = .ok flow m₁ := by
  unfold topLevel
  cases exec setup setup.limits.nesting s m with
  | ok flow m₂ => simp
  | error i m₂ => cases i <;> simp

theorem exec_print (room : Nat) (e : Expr) :
    exec setup (room + 3) (.print e) = (do
      let v ← eval setup (room + 1) e
      print v.text
      return .next) := by
  conv => lhs; unfold exec

theorem exec_var (room : Nat) (name : Token) (e : Expr) :
    exec setup (room + 3) (.var name (some e)) = (do
      let v ← eval setup (room + 1) e
      define name.lexeme v
      return .next) := by
  conv => lhs; unfold exec

end Rooms

section Globals

variable {name paren : Token} {ref : Ref} {es : List Expr}

theorem eval_global (href : ref.hops = none) (hv : m.globals.get? name.lexeme = some v) :
    eval setup (room + 5) (.var name ref) m = .ok v m := by
  have hvalue : m.frames.get? .globals name.lexeme = some v := by
    rw [Frames.get?_globals, ← Machine.globals, hv]
  conv => lhs; unfold eval
  change read name ref.hops m = .ok v m
  have hget : (get : Exec Machine) m = .ok m m := rfl
  rw [href, read, bind_of_ok hget]
  dsimp only
  rw [hvalue]
  rfl

theorem global_call (href : ref.hops = none) (hes : ∀ e ∈ es, e.Constant) (hm : m.Twin W m')
    (hv : m.globals.get? name.lexeme = some v) (hv' : m'.globals.get? name.lexeme = some v')
    (hcallee : ∀ W₁, W ≤ W₁ → Option.Rel (Callee.Twin W₁) (callee? setup v) (callee? setup v'))
    {r : Value}
    (hrun : eval setup room (.call (.var name ref) paren es) m = .ok r m₁) :
    ∃ W₁ r' m₁', eval setup room (.call (.var name ref) paren es) m' = .ok r' m₁' ∧
      r.Twin W₁ r' ∧ Mirrored W m m' W₁ m₁ m₁' := by
  obtain ⟨k, rfl⟩ := eval_room hrun
  rw [eval_call] at hrun ⊢
  obtain ⟨f, m₂, hf, hrest⟩ := ok_of_bind hrun
  obtain ⟨j, hj⟩ := eval_room hf
  rw [hj] at hf ⊢
  cases (eval_global href hv).symm.trans hf
  rw [bind_of_ok (eval_global href hv')]
  have harguments : Mirrors W 0 _ (es.mapM (eval setup (k + 2))) (es.mapM (eval setup (k + 2))) :=
    Mirrors.mapM es (fun hW hu ↦ hu.mono hW)
      fun e he ↦ eval_mirrors (k + 2) W 0 e ((hes e he).closed 0)
  have hcall : Mirrors W 0 Value.Twin
      (es.mapM (eval setup (k + 2)) >>= fun vs ↦ call setup (runIn setup k) paren v vs)
      (es.mapM (eval setup (k + 2)) >>= fun vs ↦ call setup (runIn setup k) paren v' vs) :=
    harguments.bind fun W₁ vs vs' hW hvs ↦ call_mirrors (fun _ _ ↦ runIn_eq)
      (runIn_mirror (exec_mirrors k) (exec_mirrors (k + 1))) (hcallee W₁ hW) hvs
  exact hcall le_rfl hm (fun d hd ↦ absurd hd (Nat.not_lt_zero d)) r m₁ hrest

end Globals

end Exec

section Strands

/-- A global of a machine, and the same of another machine, hold twins. The globals themselves are paired with
nothing. -/
structure Strand (c : String) (W : Pairing) (m m' : Machine) : Prop where
  twin : m.Twin W m'
  left : ¬ W.Left .frames 0
  right : ¬ W.Right .frames 0
  value : ∃ v v', m.globals.get? c = some v ∧ m'.globals.get? c = some v' ∧ v.Twin W v'

/-- Nothing in the first machine is part of both. -/
def Pairing.Apart (W W' : Pairing) : Prop := ∀ c a, W.Left c a → ¬ W'.Left c a

theorem Pairing.Apart.symm {W W' : Pairing} (h : W.Apart W') : W'.Apart W :=
  fun c a ha ha' ↦ h c a ha' ha

variable {setup : Setup} {c : String} {W W₁ W₂ : Pairing} {m m' m'' m₁ m₁' : Machine} {s : Stmt}

theorem Machine.size_pos {k : String} {v : Value} (h : m.globals.get? k = some v) :
    0 < m.size .frames := by
  by_contra hpos
  have hnext : m.frames.next = 0 := Nat.eq_zero_of_not_pos hpos
  have hempty := m.frames.bindings_next
  rw [hnext] at hempty
  rw [Machine.globals, hempty] at h
  simp [Bindings.empty, Bindings.get?] at h

theorem Mirrored.apart (h : Mirrored W m m' W₁ m₁ m₁') (hm : m.Twin W₂ m'') (hapart : W.Apart W₂) :
    W₁.Apart W₂ := by
  rintro c a ⟨b, hpair⟩ ⟨b', hpair'⟩
  rcases h.new c a b hpair with hpair | ⟨hnew, -⟩
  · exact hapart c a ⟨b, hpair⟩ ⟨b', hpair'⟩
  · have hlt := (hm.lt hpair').1
    omega

namespace Strand

theorem mirrored (h : Strand c W m m') (hsteps : Mirrored W m m' W₁ m₁ m₁') :
    Strand c W₁ m₁ m₁' := by
  obtain ⟨v, v', hv, hv', htwin⟩ := h.value
  have hpos := Machine.size_pos hv
  have hpos' := Machine.size_pos hv'
  refine ⟨hsteps.twin, ?_, ?_, v, v', ?_, ?_, htwin.mono hsteps.le⟩
  · rintro ⟨b, hpair⟩
    rcases hsteps.new _ _ _ hpair with hpair | ⟨hnew, -⟩
    · exact h.left ⟨b, hpair⟩
    · omega
  · rintro ⟨a, hpair⟩
    rcases hsteps.new _ _ _ hpair with hpair | ⟨-, hnew⟩
    · exact h.right ⟨a, hpair⟩
    · omega
  · have hglobals : m₁.globals = m.globals := hsteps.left.contents_eq .frames 0 hpos h.left
    rw [hglobals, hv]
  · have hglobals : m₁'.globals = m'.globals := hsteps.right.contents_eq .frames 0 hpos' h.right
    rw [hglobals, hv']

/-- What is done outside of the strand of a global leaves it one. -/
theorem kept {P P' : Store → Nat → Prop} (h : Strand c W m m') (hm : m.Keeps P m₁)
    (hm' : m'.Keeps P' m₁') (hP : ∀ s a, W.Left s a → ¬ P s a) (hP' : ∀ s b, W.Right s b → ¬ P' s b)
    (hglobal : m₁.globals.get? c = m.globals.get? c)
    (hglobal' : m₁'.globals.get? c = m'.globals.get? c) : Strand c W m₁ m₁' := by
  obtain ⟨v, v', hv, hv', htwin⟩ := h.value
  exact ⟨h.twin.kept hm hm' hP hP', h.left, h.right, v, v', hglobal.trans hv, hglobal'.trans hv', htwin⟩

/-- What is done in one strand leaves another, apart from it, as it was. -/
theorem aside {k : String} {W' : Pairing} (h : Strand c W m m') (h' : Strand k W' m m'')
    (hapart : W'.Apart W) (hsteps : Mirrored W' m m'' W₁ m₁ m₁') : Strand c W m₁ m' := by
  obtain ⟨v, -, hv, -⟩ := h.value
  have hglobals : m₁.globals = m.globals :=
    hsteps.left.contents_eq .frames 0 (Machine.size_pos hv) h'.left
  exact h.kept hsteps.left (.refl (fun _ _ ↦ False) m') hapart.symm (fun _ _ _ ↦ id) (by rw [hglobals])
    rfl

end Strand

end Strands

namespace Exec

variable {setup : Setup} {c : String} {W : Pairing} {m m' m₁ : Machine} {s : Stmt}

/-- A call of the global in its strand is shown in the other machine too. -/
theorem shows_step (h : Strand c W m m') (hs : s.Shows c) (hrun : topLevel setup s m = .ok () m₁) :
    ∃ W₁ m₁', topLevel setup s m' = .ok () m₁' ∧ Mirrored W m m' W₁ m₁ m₁' := by
  obtain ⟨flow, hexec⟩ := topLevel_iff.mp hrun
  obtain ⟨k, hk⟩ := exec_room hexec
  obtain ⟨v, v', hv, hv', htwin⟩ := h.value
  cases hs with
  | @mk name paren ref es hname href hes =>
    subst hname
    rw [hk, exec_print] at hexec
    obtain ⟨r, m₂, hcall, hprint⟩ := ok_of_bind hexec
    obtain ⟨W₁, r', m₂', hcall', hr, hsteps⟩ :=
      global_call href hes h.twin hv hv' (fun W₁ hW ↦ callee?_twin (htwin.mono hW)) hcall
    have hshown : Mirrors W₁ 0 Flow.Twin (print r.text >>= fun _ ↦ pure .next)
        (print r.text >>= fun _ ↦ pure .next) :=
      (print_mirrors r.text).bind fun _ _ _ _ _ ↦ next_mirrors
    obtain ⟨W₂, flow', m₁', hprint', -, hsteps'⟩ :=
      hshown le_rfl hsteps.twin (fun d hd ↦ absurd hd (Nat.not_lt_zero d)) flow m₁ hprint
    refine ⟨W₂, m₁', topLevel_iff.mpr ⟨flow', ?_⟩, hsteps.trans hsteps'⟩
    rw [hk, exec_print, bind_of_ok hcall', hr.text_eq]
    exact hprint'

/-- Before a call of a closed function nothing has to be paired: it reaches nothing that is there. -/
theorem closed_call {room i : Nat} {name paren : Token} {ref : Ref} {es : List Expr} {d : FunDecl}
    {r : Value} (hd : d.Closed 0) (href : ref.hops = none) (hes : ∀ e ∈ es, e.Constant)
    (hf : m.globals.get? name.lexeme = some (.function i ⟨d, .globals, false⟩))
    (hrun : eval setup room (.call (.var name ref) paren es) m = .ok r m₁) :
    ∃ W, r.Twin W r ∧ Mirrored (fun _ _ _ ↦ False) m m W m₁ m₁ := by
  have hnone : m.Twin (fun _ _ _ ↦ False) m :=
    ⟨fun _ ↦ ⟨fun _ _ _ h ↦ h.elim, fun _ _ _ h ↦ h.elim⟩, fun h ↦ h.elim, fun h ↦ h.elim, rfl⟩
  have hclosure (W : Pairing) : Closure.Twin W 0 ⟨d, .globals, false⟩ ⟨d, .globals, false⟩ :=
    ⟨rfl, rfl, 0, fun d hd ↦ absurd hd (Nat.not_lt_zero d), hd, fun h ↦ absurd h (by simp)⟩
  obtain ⟨W, r', m₁', hrun', hr, hsteps⟩ :=
    global_call href hes hnone hf hf (fun W₁ _ ↦ .some (.function (hclosure W₁))) hrun
  cases hrun.symm.trans hrun'
  exact ⟨W, hr, hsteps⟩

structure Made (c : String) (W : Pairing) (m m₁ : Machine) : Prop where
  strand : Strand c W m₁ m₁
  new : ∀ s a b, W s a b → m.size s ≤ a ∧ m.size s ≤ b
  keeps : m.Keeps (fun s a ↦ s = .frames ∧ a = 0) m₁
  global_eq : ∀ k ≠ c, m₁.globals.get? k = m.globals.get? k

theorem made_of_mirrored {r : Value} (hr : r.Twin W r) (hpos : 0 < m.size .frames)
    (hsteps : Mirrored (fun _ _ _ ↦ False) m m W m₁ m₁) :
    Made c W m { m₁ with frames := m₁.frames.define 0 c r } := by
  have hnew (s : Store) (a b : Nat) (hpair : W s a b) : m.size s ≤ a ∧ m.size s ≤ b :=
    (hsteps.new s a b hpair).resolve_left id
  have hspared {a b : Nat} (hpair : W .frames a b) : a ≠ 0 ∧ b ≠ 0 := by
    have hle := hnew _ a b hpair
    omega
  have hwrites := m₁.writes_frame 0 c r
  have hkeeps : m₁.Keeps (fun s a ↦ s = .frames ∧ a = 0) _ := hwrites.keeps ⟨rfl, rfl⟩
  have hcalled : m.Keeps (fun s a ↦ s = .frames ∧ a = 0) m₁ :=
    hsteps.left.mono fun _ _ ⟨_, h⟩ ↦ h.elim
  have hglobals : Machine.globals { m₁ with frames := m₁.frames.define 0 c r } = m.globals.set c r := by
    have hsame : m₁.globals = m.globals := hsteps.left.contents_eq .frames 0 hpos fun ⟨_, h⟩ ↦ h
    have hlt : 0 < m₁.size .frames := Nat.lt_of_lt_of_le hpos (hsteps.left.size_le .frames)
    rw [← hsame]
    exact (hwrites.contents_eq .frames 0).trans (if_pos ⟨rfl, rfl, hlt⟩)
  have htwin : Machine.Twin W { m₁ with frames := m₁.frames.define 0 c r }
      { m₁ with frames := m₁.frames.define 0 c r } := by
    refine hsteps.twin.kept hkeeps hkeeps ?_ ?_
    · rintro _ _ ⟨b, hpair⟩ ⟨rfl, rfl⟩
      exact (hspared hpair).1 rfl
    · rintro _ _ ⟨a, hpair⟩ ⟨rfl, rfl⟩
      exact (hspared hpair).2 rfl
  have hvalue : (Machine.globals { m₁ with frames := m₁.frames.define 0 c r }).get? c = some r := by
    rw [hglobals, Bindings.get?_set, if_pos rfl]
  refine ⟨⟨htwin, ?_, ?_, r, r, hvalue, hvalue, hr⟩, hnew, hcalled.trans hkeeps fun _ _ ↦ .inl,
    fun k hk ↦ ?_⟩
  · exact fun ⟨b, hpair⟩ ↦ (hspared hpair).1 rfl
  · exact fun ⟨a, hpair⟩ ↦ (hspared hpair).2 rfl
  · rw [hglobals, Bindings.get?_set, if_neg hk]

theorem makes_step {f : String} {i : Nat} {d : FunDecl} (hs : s.Makes c f) (hd : d.Closed 0)
    (hf : m.globals.get? f = some (.function i ⟨d, .globals, false⟩)) (henv : m.env = .globals)
    (hrun : topLevel setup s m = .ok () m₁) : ∃ W, Made c W m m₁ := by
  obtain ⟨flow, hexec⟩ := topLevel_iff.mp hrun
  obtain ⟨k, hk⟩ := exec_room hexec
  cases hs with
  | @mk name function paren ref es hname hfunction href hes =>
    subst hname hfunction
    rw [hk, exec_var] at hexec
    obtain ⟨r, m₂, hcall, hdefine⟩ := ok_of_bind hexec
    obtain ⟨W, hr, hsteps⟩ := closed_call hd href hes hf hcall
    have hframe : m₂.env.frame = 0 := by
      rw [hsteps.left.beside.env_eq, henv]
      rfl
    cases hdefine
    dsimp only
    rw [hframe]
    exact ⟨W, made_of_mirrored hr (Machine.size_pos hf) hsteps⟩

/-- Of two values that a closed function gives, each is a strand apart from the other. The first is one also with
regard to the machine in which the second had not been made yet. -/
theorem makes_apart {k f : String} {i : Nat} {d : FunDecl} {s' : Stmt} {m₂ : Machine} (hne : c ≠ k)
    (hcf : c ≠ f) (hs : s.Makes c f) (hs' : s'.Makes k f) (hd : d.Closed 0)
    (hf : m.globals.get? f = some (.function i ⟨d, .globals, false⟩)) (henv : m.env = .globals)
    (hstep : topLevel setup s m = .ok () m₁) (hstep' : topLevel setup s' m₁ = .ok () m₂) :
    ∃ W W' : Pairing, W.Apart W' ∧ Strand k W' m₂ m₂ ∧ Strand c W m₂ m₁ ∧ Strand c W m₂ m₂ := by
  obtain ⟨W, hmade⟩ := makes_step hs hd hf henv hstep
  have henv₁ : m₁.env = .globals := hmade.keeps.beside.env_eq.trans henv
  obtain ⟨W', hmade'⟩ := makes_step hs' hd ((hmade.global_eq f hcf.symm).trans hf) henv₁ hstep'
  have hapart : W.Apart W' := by
    rintro s a ⟨b, hpair⟩ ⟨b', hpair'⟩
    have hlt := (hmade.strand.twin.lt hpair).1
    have hnew := (hmade'.new s a b' hpair').1
    omega
  have hleft (s : Store) (a : Nat) (ha : W.Left s a) : ¬ (s = .frames ∧ a = 0) := by
    rintro ⟨rfl, rfl⟩
    exact hmade.strand.left ha
  have hright (s : Store) (a : Nat) (ha : W.Right s a) : ¬ (s = .frames ∧ a = 0) := by
    rintro ⟨rfl, rfl⟩
    exact hmade.strand.right ha
  have hglobal := hmade'.global_eq c hne
  refine ⟨W, W', hapart, hmade'.strand, ?_, ?_⟩
  · exact hmade.strand.kept hmade'.keeps (.refl (fun _ _ ↦ False) m₁) hleft (fun _ _ _ ↦ id) hglobal rfl
  · exact hmade.strand.kept hmade'.keeps hmade'.keeps hleft hright hglobal hglobal

end Exec

end TreeWalk
