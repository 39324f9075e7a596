import TreeWalk.Proofs.Session.Assignments
import TreeWalk.Proofs.Session.Joined
import TreeWalk.Proofs.Session.Outputs
import TreeWalk.Proofs.Session.Spared

namespace TreeWalk

namespace Frames

variable {α : Type} {fs fs₁ fs' : Frames α} {P : String → Prop}

instance : Enduring (@Grow α) := ⟨.refl, .trans, grow_push⟩

def Gain (P : String → Prop) (fs fs' : Frames α) : Prop :=
  0 < fs.next → 0 < fs'.next ∧
    ∀ k, (fs'.bindings 0).contains k = true → (fs.bindings 0).contains k = true ∨ P k

namespace Gain

theorem refl (P : String → Prop) (fs : Frames α) : Gain P fs fs := fun h ↦ ⟨h, fun _ ↦ .inl⟩

theorem trans (h : Gain P fs fs₁) (h' : Gain P fs₁ fs') : Gain P fs fs' := by
  intro hfs
  obtain ⟨hfs₁, hgain⟩ := h hfs
  obtain ⟨hfs', hgain'⟩ := h' hfs₁
  exact ⟨hfs', fun k hk ↦ (hgain' k hk).elim (hgain k) .inr⟩

theorem push (P : String → Prop) (fs : Frames α) (b : Bindings α) : Gain P fs (fs.push b) := by
  refine fun hfs ↦ ⟨by simp, fun k hk ↦ .inl ?_⟩
  rwa [bindings_push, if_neg (Nat.ne_of_lt hfs)] at hk

theorem mono {Q : String → Prop} (h : Gain P fs fs') (hQ : ∀ k, P k → Q k) : Gain Q fs fs' :=
  fun hfs ↦ ⟨(h hfs).1, fun k hk ↦ ((h hfs).2 k hk).imp_right (hQ k)⟩

theorem define {f : FrameId} {name : String} (value : α)
    (h : f = 0 → (fs.bindings 0).contains name = true ∨ P name) :
    Gain P fs (fs.define f name value) := by
  refine fun hfs ↦ ⟨by simpa using hfs, fun k hk ↦ ?_⟩
  rw [bindings_define] at hk
  split at hk
  · next hf =>
    rcases Bindings.contains_set.mp hk with rfl | hk
    · exact h hf.1.symm
    · exact .inl hk
  · exact .inl hk

end Gain

instance (P : String → Prop) : Enduring (@Gain α P) := ⟨.refl P, .trans, .push P⟩

end Frames

open Exec Frames

theorem Moment.grow (setup : Setup) (μ : Moment) : Grow μ.machine.frames (μ.after setup).frames := by
  refine AllKeep.upheld fun μ' _ ↦ ?_
  obtain ⟨event, m⟩ := μ'
  cases event with
  | expr room e =>
    cases e with
    | assign => exact fun m' f value _ _ ↦ grow_define _ f _ value
    | _ => trivial
  | stmt room s => exact fun name _ fs value ↦ grow_define fs _ _ value
  | enter | bind => trivial

namespace Session

variable {setup : Setup} {sources : List String} {μ μ' : Moment}

/-- Inside what is evaluated, a declaration is never at top level. -/
theorem Happens.inside (hlawful : setup.Lawful) (h : Happens setup sources μ)
    (hleads : μ.Leads setup μ') {room : Nat} {s : Stmt} {m : Machine} (hμ' : μ' = ⟨.stmt room s, m⟩)
    {name : Token} (hname : name ∈ s.declared?) : m.env.frame ≠ 0 := by
  obtain ⟨hm, ⟨v, hv⟩, -⟩ := h.fits hlawful
  have hnext : ∀ {m₁ m₂ : Machine} {env : Env} {b : Bindings Value} {n : Nat} {ss : List Stmt},
      Sound setup sources m₁ → sequence (exec setup n) ss (m₁.inside env b) = .ok .next m₂ →
      m₂.env.frame ≠ 0 := by
    intro m₁ m₂ env b n ss hm₁ hss
    rw [(Restores.of_ok (restores_pervades.sequence (exec_restores setup n) ss) hss).1]
    exact Nat.ne_of_gt hm₁.globals
  cases hleads with
  | item hbefore =>
    cases hμ'
    exact hnext hm hbefore
  | statement _ hbefore =>
    cases hμ'
    exact hnext hm hbefore
  | yes =>
    cases hμ'
    obtain ⟨-, -, -, hnone⟩ := hv.yes 0
    cases hnone.symm.trans hname
  | no =>
    cases hμ'
    obtain ⟨-, -, -, hnone⟩ := hv.no 0
    cases hnone.symm.trans hname
  | round =>
    cases hμ'
    obtain ⟨-, -, -, hnone⟩ := hv.round 0
    cases hnone.symm.trans hname
  | _ => cases hμ'

theorem Situated.assigned_local {v : Visit} {room : Nat} {name : Token} {e : Expr} {ref : Ref} {env : Env}
    {fs : Frames Value} {d : Nat} {f : FrameId}
    (h : Situated setup sources v (.expr room (.assign name e ref)) env fs) (hd : ref.hops = some d)
    (hf : env.chain[d]? = some f) : f ≠ 0 := by
  obtain ⟨inner, hchain, hlen, hinner⟩ := h.lies.eq_append
  obtain ⟨scope, hscope, -⟩ := hops?_eq_some (h.assigned_hops.1.symm.trans hd)
  have hlt : d < inner.length := by
    rw [hlen]
    exact (List.getElem?_eq_some_iff.mp hscope).1
  rw [hchain, List.getElem?_append_left hlt] at hf
  exact hinner f (List.mem_of_getElem? hf)

theorem Happens.keeps (hlawful : setup.Lawful) (h : Happens setup sources μ) {P : String → Prop}
    (hP : ∀ room s m, μ = ⟨.stmt room s, m⟩ → ∀ name ∈ s.declared?, m.env.frame = 0 → P name.lexeme) :
    μ.Keeps (Gain P) := by
  obtain ⟨-, ⟨v, hv⟩, -⟩ := h.fits hlawful
  obtain ⟨event, m⟩ := μ
  cases event with
  | stmt room s =>
    exact fun name hname fs value ↦ .define value fun hf ↦ .inr (hP room s m rfl name hname hf)
  | enter | bind => trivial
  | expr room e =>
    cases e with
    | assign name e ref =>
      intro m' f value henv hf
      refine .define value fun hzero ↦ .inl ?_
      cases hhops : ref.hops with
      | some d =>
        obtain ⟨g, hg, -⟩ := hv.assignment hhops
        rw [hhops, Machine.target, Env.frameAt, henv, show m.env.chain[d]? = some g from hg] at hf
        exact absurd hzero (Except.ok.inj hf ▸ hv.assigned_local hhops hg)
      | none =>
        rw [hhops, Machine.target] at hf
        cases hb : m'.frames.binder? .globals name.lexeme with
        | some g =>
          rw [hb] at hf
          rw [← hzero, ← Except.ok.inj hf]
          exact List.find?_some (p := fun f ↦ (m'.frames.bindings f).contains name.lexeme) hb
        | none =>
          rw [hb] at hf
          cases hf
    | _ => trivial

/-- Whatever a moment leads to adds no name to the globals. -/
theorem Happens.inside_gains (hlawful : setup.Lawful) (h : Happens setup sources μ)
    (hleads : μ.Leads setup μ') : μ'.AllKeep (Gain fun _ ↦ False) setup := by
  intro μ'' hinside
  suffices ∃ μ₀, Happens setup sources μ₀ ∧ μ₀.Leads setup μ'' by
    obtain ⟨μ₀, hμ₀, hlast⟩ := this
    exact (hμ₀.tail hlast).keeps hlawful fun room s m heq name hname hzero ↦
      hμ₀.inside hlawful hlast heq hname hzero
  induction hinside with
  | refl => exact ⟨μ, h, hleads⟩
  | tail _ hstep ih =>
    obtain ⟨μ₀, hμ₀, hlast⟩ := ih
    have hnext := hμ₀.tail hlast
    exact ⟨_, hnext, hnext.leads hlawful hstep⟩

theorem Happens.gains (hlawful : setup.Lawful) {room : Nat} {s : Stmt} {m : Machine}
    (h : Happens setup sources ⟨.stmt room s, m⟩) :
    Moment.AllKeep (Gain fun k ↦ ∃ name ∈ s.declared?, name.lexeme = k) setup ⟨.stmt room s, m⟩ := by
  intro μ' hinside
  rcases hinside.cases_head with rfl | ⟨μ₁, hfirst, hrest⟩
  · exact h.keeps hlawful fun room s m heq name hname _ ↦ by
      cases heq
      exact ⟨name, hname, rfl⟩
  · have hinside := h.inside_gains hlawful (h.leads hlawful hfirst) μ' hrest
    exact hinside.mono fun fs fs' hgain ↦ hgain.mono fun _ ↦ False.elim

theorem declares {s : Stmt} {name : Token} (hname : name ∈ s.declared?) (room : Nat) (m : Machine) :
    (∃ m', exec setup room s m = .ok .next m') ∨ final (exec setup room s m) = m ∨
      ∃ μ, Moment.Leads setup ⟨.stmt room s, m⟩ μ ∧ μ.machine = m ∧
        final (exec setup room s m) = μ.after setup := by
  obtain _ | _ | _ | room := room
  · exact .inr (.inl (by unfold exec; rfl))
  · exact .inr (.inl (by unfold exec; rfl))
  · exact .inr (.inl (by unfold exec; rfl))
  · cases s with
    | var t initializer =>
      cases initializer with
      | none => exact .inl ⟨_, rfl⟩
      | some e =>
        have hexec : exec setup (room + 3) (.var t (some e)) m = EStateM.bind (eval setup (room + 1) e)
          (fun v ↦ define t.lexeme v >>= fun _ ↦ pure .next) m := rfl
        cases he : eval setup (room + 1) e m with
        | ok v m₁ =>
          rw [EStateM.bind, he] at hexec
          exact .inl ⟨_, hexec⟩
        | error i m₁ =>
          refine .inr (.inr ⟨_, .initializer, rfl, ?_⟩)
          rw [EStateM.bind, he] at hexec
          rw [hexec]
          show m₁ = final (eval setup (room + 1) e m)
          rw [he]
          rfl
    | function | cls => exact .inl ⟨_, rfl⟩
    | _ => cases hname

/-- A name that the globals gain by a statement is the one that it declares, and the statement was executed to
its end. -/
theorem Happens.gained (hlawful : setup.Lawful) {room : Nat} {s : Stmt} {m : Machine} {k : String}
    (h : Happens setup sources ⟨.stmt room s, m⟩)
    (hk : (final (exec setup room s m)).globals.contains k = true) :
    m.globals.contains k = true ∨
      ∃ name ∈ s.declared?, name.lexeme = k ∧ ∃ m', exec setup room s m = .ok .next m' := by
  have hglobals := (h.fits hlawful).sound.globals
  rcases ((h.gains hlawful).upheld hglobals).2 k hk with hold | ⟨name, hname, rfl⟩
  · exact .inl hold
  · rcases declares hname room m with hdone | hsame | ⟨μ, hleads, hμ, hfinal⟩
    · exact .inr ⟨name, hname, rfl, hdone⟩
    · exact .inl (by rwa [hsame] at hk)
    · rw [hfinal] at hk
      have hgain := (h.inside_gains hlawful hleads).upheld (hμ ▸ hglobals)
      rw [hμ] at hgain
      exact .inl ((hgain.2 _ hk).resolve_right id)

/-- In the run of some top-level statements a declaration of a name is come to and executed to its end. -/
def Declares (setup : Setup) (m : Machine) (statements : List Stmt) (k : String) : Prop :=
  ∃ ss s ss' m₁ m₂, ∃ name ∈ s.declared?, statements = ss ++ s :: ss' ∧ name.lexeme = k ∧
    ss.forM (topLevel setup) m = .ok () m₁ ∧ exec setup setup.limits.nesting s m₁ = .ok .next m₂

theorem forM_gained {k : String} (statements : List Stmt) {m : Machine}
    (hf : ∀ ss s ss', statements = ss ++ s :: ss' → ∀ m₁, ss.forM (topLevel setup) m = .ok () m₁ →
      (final (exec setup setup.limits.nesting s m₁)).globals.contains k = true →
      m₁.globals.contains k = true ∨ ∃ name ∈ s.declared?, name.lexeme = k ∧
        ∃ m₂, exec setup setup.limits.nesting s m₁ = .ok .next m₂)
    (hk : (final (statements.forM (topLevel setup) m)).globals.contains k = true) :
    m.globals.contains k = true ∨ Declares setup m statements k := by
  induction statements generalizing m with
  | nil => exact .inl hk
  | cons s statements ih =>
    have hfirst := hf [] s statements rfl m rfl
    rw [← final_topLevel] at hfirst
    have hstep : (s :: statements).forM (topLevel setup) m =
        EStateM.bind (topLevel setup s) (fun _ ↦ statements.forM (topLevel setup)) m := rfl
    have hdone : (final (topLevel setup s m)).globals.contains k = true →
        m.globals.contains k = true ∨ Declares setup m (s :: statements) k := by
      intro hk
      rcases hfirst hk with hold | ⟨name, hname, hlexeme, m₂, hs⟩
      · exact .inl hold
      · exact .inr ⟨[], s, statements, m, m₂, name, hname, rfl, hlexeme, rfl, hs⟩
    cases hs : topLevel setup s m with
    | error i m₁ =>
      rw [hstep, EStateM.bind, hs] at hk
      exact hdone (by rw [hs]; exact hk)
    | ok u m₁ =>
      rw [hstep, EStateM.bind, hs] at hk
      have hrest := ih (m := m₁) (fun ss s' ss' hss m₂ hm₂ ↦
        hf (s :: ss) s' ss' (by rw [hss]; rfl) m₂ (forM_cons_ok.mpr ⟨m₁, hs, hm₂⟩)) hk
      rcases hrest with hk₁ | ⟨ss, s', ss', m₂, m₃, name, hname, hss, hlexeme, hm₂, hm₃⟩
      · exact hdone (by rw [hs]; exact hk₁)
      · exact .inr ⟨s :: ss, s', ss', m₂, m₃, name, hname, by rw [hss]; rfl, hlexeme,
          forM_cons_ok.mpr ⟨m₁, hs, hm₂⟩, hm₃⟩

section Course

variable {before : List String} {source : String} {resolved : Resolved}

theorem run_gained (hlawful : setup.Lawful) (ha : Accepts setup.limits source resolved) {k : String}
    (hk : (after setup (before ++ [source])).machine.globals.contains k = true) :
    (after setup before).machine.globals.contains k = true ∨
      Declares setup (after setup before).ready resolved.statements k := by
  have hs : before ++ [source] = before ++ source :: [] := rfl
  rw [Machine.globals, accepted_frames hlawful hs ha] at hk
  refine forM_gained resolved.statements (fun ss s ss' hss m₁ hm₁ hk₁ ↦ ?_) hk
  exact Happens.gained hlawful
    ⟨before, source, [], resolved, ss, s, ss', m₁, hs, ha, hss, hm₁, .refl⟩ hk₁

/-- No run of a source takes a name from the globals, however it ends. Each name that one adds is that of a
declaration among the top-level statements of a source that is accepted, which was come to and executed to its
end. What is evaluated inside of such a statement, at any moment of a session, adds none. -/
theorem globals_declared (hlawful : setup.Lawful) (before : List String) (source : String)
    (rest : List String) :
    let m := (after setup before).machine
    let m' := (after setup (before ++ [source])).machine
    (∀ k, m.globals.contains k = true → m'.globals.contains k = true) ∧
      (∀ k, m'.globals.contains k = true → m.globals.contains k = false →
        ∃ resolved, Accepts setup.limits source resolved ∧
          Declares setup (after setup before).ready resolved.statements k) ∧
      ∀ μ₀ μ, Happens setup (before ++ source :: rest) μ₀ → μ₀.Leads setup μ →
        ∀ k, (μ.after setup).globals.contains k = μ.machine.globals.contains k := by
  intro m m'
  have hgrow := run_upholds (R := Grow) hlawful (rfl : before ++ source :: rest = _)
    fun μ _ ↦ μ.grow setup
  refine ⟨hgrow.contains 0, fun k hk hnew ↦ ?_, fun μ₀ μ h hleads k ↦ ?_⟩
  · have hsetup := (after_resting hlawful before [source] rfl).setup_eq
    rcases run_cases (after setup before) source with ⟨resolved, ha⟩ | ⟨hsame, -⟩
    · rw [hsetup] at ha
      refine ⟨resolved, ha, (run_gained hlawful ha hk).resolve_left fun hold ↦ ?_⟩
      exact Bool.noConfusion (hnew.symm.trans hold)
    · have hafter : m' = m := by
        show (after setup (before ++ [source])).machine = _
        rw [show after setup (before ++ [source]) = ((after setup before).run source).2 by simp [after],
          hsame]
      rw [hafter, hnew] at hk
      cases hk
  · have hglobals := ((h.tail hleads).fits hlawful).sound.globals
    have hgain := (h.inside_gains hlawful hleads).upheld hglobals
    rw [Bool.eq_iff_iff]
    exact ⟨fun hk ↦ (hgain.2 k hk).resolve_right id, (Moment.grow setup μ).contains 0 k⟩

/-- The first of the two texts declares a global. -/
theorem pieces_declares : ∃ resolved, Accepts smallSetup.limits "var a;" resolved ∧
    Declares smallSetup (start smallSetup).ready resolved.statements "a" := by
  have hrun := run_of_accepts (s := start smallSetup) pieces_accepted.1
  have hafter : after smallSetup ([] ++ ["var a;"]) = ((start smallSetup).run "var a;").2 := rfl
  refine (@globals_declared smallSetup (fun _ hn ↦ absurd hn List.not_mem_nil) [] "var a;"
    []).2.1 "a" ?_ rfl
  rw [hafter, hrun]
  rfl

end Course

end Session

end TreeWalk
