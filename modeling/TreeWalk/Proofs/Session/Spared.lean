import TreeWalk.Proofs.Machine.Steady
import TreeWalk.Proofs.Session.Course
import TreeWalk.Proofs.Tree.Formed

namespace TreeWalk

open Exec Frames Resolving

theorem Exec.final_topLevel (setup : Setup) (s : Stmt) (m : Machine) :
    final (topLevel setup s m) = final (exec setup setup.limits.nesting s m) := by
  unfold topLevel
  cases exec setup setup.limits.nesting s m with
  | ok flow m₁ => rfl
  | error i m₁ => cases i <;> rfl

section Visits

variable {N : Token → Prop} {v v' : Visit}

def Visit.Formed (N : Token → Prop) : Visit → Prop
  | ⟨.expr _ e, _⟩ => e.Formed N
  | ⟨.stmt _ s, _⟩ => s.Formed N
  | ⟨.function _ _ d, _⟩ => d.Formed N
  | ⟨.methods _ ds, _⟩ => ∀ d ∈ ds, d.Formed N

theorem Visit.Leads.formed (hv : v.Leads v') (h : v.Formed N) : v'.Formed N := by
  cases hv with
  | group => cases h with | group h => exact h
  | unary => cases h with | unary h => exact h
  | binaryLeft => cases h with | binary h _ => exact h
  | binaryRight => cases h with | binary _ h => exact h
  | logicalLeft => cases h with | logical h _ => exact h
  | logicalRight => cases h with | logical _ h => exact h
  | assigned => cases h with | assign _ h => exact h
  | callee => cases h with | call h _ => exact h
  | argument => cases h with | call _ h => exact h _ (by simp)
  | object => cases h with | get h => exact h
  | field => cases h with | set _ h => exact h
  | owner => cases h with | set h _ => exact h
  | expression => cases h with | expression h => exact h
  | printed => cases h with | print h => exact h
  | initializer => cases h with | var _ h => exact h _ rfl
  | item => cases h with | block h => exact h _ (by simp)
  | condition => cases h with | branch h _ => exact h
  | yes => cases h with | branch _ h => exact h
  | no => cases h with | branch _ _ _ h => exact h _ rfl
  | test => cases h with | loop h _ => exact h
  | round => cases h with | loop _ h => exact h
  | returned => cases h with | returns h => exact h _ rfl
  | function => cases h with | function _ hparams hbody => exact ⟨hparams, hbody⟩
  | methods => cases h with | cls _ hparams hbody => exact fun d hd ↦ ⟨hparams d hd, hbody d hd⟩
  | method => exact h _ (by simp)
  | statement => exact h.body _ (by simp [FunDecl.body])

end Visits

namespace Session

variable {setup : Setup} {sources : List String} {μ μ' : Moment}

theorem Visited.formed {v : Visit} (h : Visited setup sources v) : v.Formed Token.Ordinary := by
  obtain ⟨source, -, resolved, ha, ss, s, rest, hprogram, hencloses⟩ := h
  have hformed := Program.ofWords_formed (N := Token.Ordinary)
    (fun t ht hname ↦ (Scan.ofText_lexical source t ht).name hname) ha.parsed
  induction hencloses with
  | refl => exact hformed s (by rw [show (Program.ofWords _ _ _).statements = _ from hprogram]; simp)
  | tail _ hleads ih => exact hleads.formed ih

/-- The trees of a session have each part in its place. -/
theorem Happens.leads (hlawful : setup.Lawful) (h : Happens setup sources μ)
    (hμ : Moment.Follows setup μ μ') : μ.Leads setup μ' := by
  obtain ⟨-, ⟨v, hv⟩, -⟩ := h.fits hlawful
  cases hμ with
  | leads hleads => exact hleads
  | value => exact hv.notOfExpr.elim
  | back | condition | yes | no | statement => exact hv.notOfStmt.elim

theorem Happens.written (hlawful : setup.Lawful) (h : Happens setup sources μ) :
    ∀ name ∈ μ.written?, name.lexeme ≠ "this" := by
  obtain ⟨-, ⟨v, hv⟩, -⟩ := h.fits hlawful
  have hformed := hv.visited.formed
  have hgives := hv.gives
  intro name hname
  obtain ⟨event, m⟩ := μ
  cases event with
  | expr room e =>
    cases e with
    | assign name' e ref =>
      cases hname
      obtain ⟨hwalk⟩ := hgives
      obtain ⟨_, rfl, hform⟩ := expr_runs hwalk
      cases hform with
      | assign => cases hformed with | assign hname => exact hname
    | _ => cases hname
  | stmt room s =>
    obtain _ | ⟨hwalk⟩ := hgives
    exact hformed.declared name (declared?_eq hwalk ▸ hname)
  | enter | bind => cases hname

theorem Happens.spares (hlawful : setup.Lawful) (h : Happens setup sources μ) :
    μ.Spares "this" setup := by
  intro μ' hμ
  suffices Happens setup sources μ' from this.written hlawful
  induction hμ with
  | refl => exact h
  | tail _ hstep ih => exact ih.tail (ih.leads hlawful hstep)

section Ends

variable {R : Frames Value → Frames Value → Prop} {fs : Frames Value} {m m' : Machine}
  {f : Stmt → Exec Unit}

theorem topLevel_upholds {s : Stmt}
    (h : Upholds R fs (exec setup setup.limits.nesting s) m) : Upholds R fs (topLevel setup s) m := by
  rwa [Upholds, final_topLevel]

theorem evaluate_frames (s : Session) (ss : List Stmt) :
    (s.evaluate ss).2.2.machine.frames = (final (ss.forM (topLevel s.setup) s.ready)).frames := by
  cases hss : ss.forM (topLevel s.setup) s.ready with
  | ok u m =>
    rw [evaluate_ok hss]
    rfl
  | error i m =>
    rw [evaluate_error hss]
    rfl

variable [Enduring R]

theorem forM_upholds (as : List Stmt)
    (hf : ∀ before a rest, as = before ++ a :: rest → ∀ m', before.forM f m = .ok () m' →
      Upholds R m'.frames (f a) m') : Upholds R m.frames (as.forM f) m := by
  induction as generalizing m with
  | nil => exact .still rfl
  | cons a as ih =>
    refine Upholds.bind (hf [] a as rfl m rfl) fun _ m₁ ha ↦ ?_
    refine ih fun before a' rest has m' hbefore ↦ ?_
    exact hf (a :: before) a' rest (by rw [has]; rfl) m' ((bind_of_ok ha).trans hbefore)

theorem forM_upholds_item {before rest : List Stmt} {a : Stmt}
    (hbefore : before.forM f m = .ok () m') (ha : Upholds R fs (f a) m')
    (h : ∀ before' a' rest', before ++ a :: rest = before' ++ a' :: rest' → ∀ m',
      before'.forM f m = .ok () m' → Upholds R m'.frames (f a') m') :
    Upholds R fs ((before ++ a :: rest).forM f) m := by
  have happend (bs : List Stmt) : (before ++ bs).forM f m = bs.forM f m' :=
    (congrFun (List.forM_append (m := Exec)) m).trans (bind_of_ok hbefore)
  rw [Upholds, happend]
  refine Upholds.bind ha fun _ m₁ hm₁ ↦ forM_upholds rest fun before' a' rest' hrest m₂ hm₂ ↦ ?_
  refine h (before ++ a :: before') a' rest' (by simp [hrest]) m₂ ?_
  rw [happend]
  exact (bind_of_ok hm₁).trans hm₂

end Ends

section Course

variable {before rest : List String} {source : String} {resolved : Resolved}

theorem accepted_frames (hlawful : setup.Lawful) (hs : sources = before ++ source :: rest)
    (ha : Accepts setup.limits source resolved) :
    (after setup (before ++ [source])).machine.frames =
      (final (resolved.statements.forM (topLevel setup) (after setup before).ready)).frames := by
  have hsetup := (after_resting hlawful before _ hs).setup_eq
  have hafter : after setup (before ++ [source]) = ((after setup before).run source).2 := by
    simp [after]
  rw [hafter, run_of_accepts (hsetup.symm ▸ ha), evaluate_frames, hsetup]

theorem run_upholds {R : Frames Value → Frames Value → Prop} [Enduring R] (hlawful : setup.Lawful)
    (hs : sources = before ++ source :: rest)
    (h : ∀ μ, Happens setup sources μ → R μ.machine.frames (μ.after setup).frames) :
    R (after setup before).machine.frames (after setup (before ++ [source])).machine.frames := by
  have hsetup := (after_resting hlawful before _ hs).setup_eq
  obtain ⟨resolved, ha⟩ | ⟨hsame, -⟩ := run_cases (after setup before) source
  · rw [hsetup] at ha
    rw [accepted_frames hlawful hs ha]
    refine forM_upholds (m := (after setup before).ready) _ fun ss s ss' hss m hm ↦ topLevel_upholds ?_
    exact h _ ⟨before, source, rest, resolved, ss, s, ss', m, hs, ha, hss, hm, .refl⟩
  · have hafter : after setup (before ++ [source]) = ((after setup before).run source).2 := by
      simp [after]
    rw [hafter, hsame]
    exact Enduring.refl _

theorem after_steady (hlawful : setup.Lawful) : ∀ {rest before : List String},
    sources = before ++ rest →
    Steady "this" (after setup before).machine.frames (after setup sources).machine.frames
  | [], before, hs => by
    rw [hs, List.append_nil]
    exact .refl _ _
  | source :: rest, before, hs => by
    have hs' : sources = before ++ [source] ++ rest := by simp [hs]
    exact (run_upholds hlawful hs fun μ hμ ↦ (hμ.spares hlawful).steady).trans (after_steady hlawful hs')

/-- What `this` names in a frame at a moment, or at its end, it names there at the end of the session. -/
theorem Happens.steady (hlawful : setup.Lawful) (h : Happens setup sources μ) :
    Steady "this" μ.machine.frames (after setup sources).machine.frames ∧
      Steady "this" (μ.after setup).frames (after setup sources).machine.frames := by
  obtain ⟨before, source, rest, resolved, ss, s, ss', m, hs, ha, hss, hm, hμ⟩ := h
  have hstart : Happens setup sources ⟨.stmt setup.limits.nesting s, m⟩ :=
    ⟨before, source, rest, resolved, ss, s, ss', m, hs, ha, hss, hm, .refl⟩
  obtain ⟨hspares, hinside⟩ := (hstart.spares hlawful).steady_inside hμ
  have hrun : Upholds (Steady "this") (μ.after setup).frames (resolved.statements.forM (topLevel setup))
      (after setup before).ready := by
    rw [hss]
    refine forM_upholds_item hm (topLevel_upholds hinside) fun done s todo hdone m₁ hm₁ ↦ ?_
    exact topLevel_upholds (Happens.spares hlawful
      ⟨before, source, rest, resolved, done, s, todo, m₁, hs, ha, hss.trans hdone, hm₁, .refl⟩).steady
  rw [Upholds, ← accepted_frames hlawful hs ha] at hrun
  have hs' : sources = before ++ [source] ++ rest := by simp [hs]
  have hend := hrun.trans (after_steady hlawful hs')
  exact ⟨hspares.steady.trans hend, hend⟩

end Course

end Session

end TreeWalk
