import TreeWalk.Proofs.Machine.Mirror
import TreeWalk.Proofs.Machine.Truncation
import TreeWalk.Proofs.Session.Renamed

namespace TreeWalk

/-- The global that a statement declares, or that it calls to print the result. -/
def Stmt.subject? : Stmt → Option String
  | .var name _ | .print (.call (.var name _) _ _) => some name.lexeme
  | _ => none

theorem Stmt.Alike.subject?_eq {R : Token → Token → Prop} (hR : ∀ t t', R t t' → t.Like t') {s s' : Stmt}
    (h : s.Alike R s') : s'.subject? = s.subject? := by
  cases h with
  | var hname => exact congrArg some (hR _ _ hname).lexeme_eq
  | print he =>
    cases he with
    | call hf =>
      cases hf with
      | var hname => exact congrArg some (hR _ _ hname).lexeme_eq
      | _ => rfl
    | _ => rfl
  | _ => rfl

namespace Exec

/-- Statements in order, up to one that is interrupted: what each is about, and the lines that it prints. -/
def outputs (setup : Setup) : List Stmt → Machine → List (Option String × List String)
  | [], _ => []
  | s :: ss, m =>
    match topLevel setup s m with
    | .ok _ m₁ => (s.subject?, m₁.printed.toList.drop m.printed.size) :: outputs setup ss m₁
    | .error _ m₁ => [(s.subject?, m₁.printed.toList.drop m.printed.size)]

/-- The lines that the statements about a global print, statement by statement. -/
def linesAbout (setup : Setup) (name : String) (ss : List Stmt) (m : Machine) : List (List String) :=
  ((outputs setup ss m).filter (·.1 = some name)).map (·.2)

variable {setup : Setup} {m m' m₁ : Machine} {s : Stmt} {ss ss' : List Stmt}

theorem seq_ok {act act' : Exec Unit} : (act >>= fun _ ↦ act') m = .ok () m₁ ↔
    ∃ m₂, act m = .ok () m₂ ∧ act' m₂ = .ok () m₁ := by
  constructor
  · intro h
    obtain ⟨_, m₂, hact, hact'⟩ := ok_of_bind h
    exact ⟨m₂, hact, hact'⟩
  · rintro ⟨m₂, hact, hact'⟩
    exact (bind_of_ok hact).trans hact'

theorem forM_cons_ok : (s :: ss).forM (topLevel setup) m = .ok () m₁ ↔
    ∃ m₂, topLevel setup s m = .ok () m₂ ∧ ss.forM (topLevel setup) m₂ = .ok () m₁ :=
  seq_ok

theorem forM_append_ok : (ss ++ ss').forM (topLevel setup) m = .ok () m₁ ↔
    ∃ m₂, ss.forM (topLevel setup) m = .ok () m₂ ∧ ss'.forM (topLevel setup) m₂ = .ok () m₁ := by
  have happend : (ss ++ ss').forM (topLevel setup) =
      (ss.forM (topLevel setup) >>= fun _ ↦ ss'.forM (topLevel setup)) := List.forM_append
  rw [happend]
  exact seq_ok

theorem outputs_cons (h : topLevel setup s m = .ok () m₁) : outputs setup (s :: ss) m =
    (s.subject?, m₁.printed.toList.drop m.printed.size) :: outputs setup ss m₁ := by
  rw [outputs, h]

theorem outputs_append (h : ss.forM (topLevel setup) m = .ok () m₁) :
    outputs setup (ss ++ ss') m = outputs setup ss m ++ outputs setup ss' m₁ := by
  induction ss generalizing m with
  | nil =>
    cases h
    rfl
  | cons s ss ih =>
    obtain ⟨m₂, hs, hss⟩ := forM_cons_ok.mp h
    rw [List.cons_append, outputs_cons hs, outputs_cons hs, ih hss, List.cons_append]

section About

variable {name : String}

theorem linesAbout_cons (h : topLevel setup s m = .ok () m₁) (hs : s.subject? = some name) :
    linesAbout setup name (s :: ss) m =
      m₁.printed.toList.drop m.printed.size :: linesAbout setup name ss m₁ := by
  rw [linesAbout, outputs_cons h, List.filter_cons_of_pos (by simpa using hs), List.map_cons, linesAbout]

theorem linesAbout_cons_other (h : topLevel setup s m = .ok () m₁) (hs : s.subject? ≠ some name) :
    linesAbout setup name (s :: ss) m = linesAbout setup name ss m₁ := by
  rw [linesAbout, outputs_cons h, List.filter_cons_of_neg (by simpa using hs), linesAbout]

theorem linesAbout_append (h : ss.forM (topLevel setup) m = .ok () m₁) :
    linesAbout setup name (ss ++ ss') m = linesAbout setup name ss m ++ linesAbout setup name ss' m₁ := by
  rw [linesAbout, outputs_append h, List.filter_append, List.map_append, linesAbout, linesAbout]

end About

theorem printed_outputs (setup : Setup) (ss : List Stmt) (m : Machine) :
    (final (ss.forM (topLevel setup) m)).printed.toList =
      m.printed.toList ++ (outputs setup ss m).flatMap (·.2) := by
  have hprefix (s : Stmt) (m : Machine) :
      (final (topLevel setup s m)).printed.toList =
        m.printed.toList ++ (final (topLevel setup s m)).printed.toList.drop m.printed.size := by
    have hsame : Truncates (topLevel setup s) (topLevel setup s) :=
      @topLevel_truncates setup _ _ (Int.le_refl setup.maxDepth) s
    exact (List.prefix_iff_eq_append.mp (hsame.extends_printed m)).symm
  induction ss generalizing m with
  | nil => simp [outputs, pure, EStateM.pure, final]
  | cons s ss ih =>
    have hs := hprefix s m
    cases hstep : topLevel setup s m with
    | ok u m₁ =>
      have hrest : (s :: ss).forM (topLevel setup) m = ss.forM (topLevel setup) m₁ :=
        bind_of_ok (f := fun _ ↦ ss.forM (topLevel setup)) hstep
      rw [hstep] at hs
      rw [hrest, ih m₁, outputs_cons hstep, List.flatMap_cons, ← List.append_assoc]
      exact congrArg (· ++ _) hs
    | error i m₁ =>
      have hrest : (s :: ss).forM (topLevel setup) m = .error i m₁ := by
        change EStateM.bind (topLevel setup s) (fun _ ↦ ss.forM (topLevel setup)) m = _
        rw [EStateM.bind, hstep]
      rw [hstep] at hs
      rw [hrest, outputs, hstep]
      simpa [final] using hs

section Alike

variable {R : Token → Token → Prop} {before : List String}

theorem drop_printed (hm : m.Alike R before m') {m₁' : Machine} (hm₁ : m₁.Alike R before m₁') :
    m₁'.printed.toList.drop m'.printed.size = m₁.printed.toList.drop m.printed.size := by
  rw [hm₁.printed_eq, ← Array.length_toList, hm.printed_eq, List.length_append,
    List.drop_length_add_append, Array.length_toList]

theorem outputs_alike (hblind : setup.Blind) (hR : ∀ t t', R t t' → t.Like t')
    (hss : List.Forall₂ (Stmt.Alike R) ss ss') (hm : m.Alike R before m') :
    outputs setup ss' m' = outputs setup ss m := by
  induction hss generalizing m m' with
  | nil => rfl
  | @cons s s' ss ss' hs _ ih =>
    have hlock := topLevel_lockstep hblind hR hs hm
    rw [outputs, outputs, hs.subject?_eq hR]
    generalize topLevel setup s m = x at hlock ⊢
    generalize topLevel setup s' m' = x' at hlock ⊢
    cases hlock with
    | ok _ hm₁ =>
      dsimp only
      rw [drop_printed hm hm₁, ih hm₁]
    | error _ hm₁ =>
      dsimp only
      rw [drop_printed hm hm₁]

end Alike

end Exec

namespace Session

open Exec Scan

variable {setup : Setup}

theorem completed_iff {s : Session} {ss : List Stmt} : (s.evaluate ss).2.1 = .completed ↔
    ∃ m, ss.forM (topLevel s.setup) s.ready = .ok () m := by
  cases hrun : ss.forM (topLevel s.setup) s.ready with
  | ok u m => simp [evaluate_ok hrun]
  | error i m => simp [evaluate_error hrun]

theorem evaluate_outputs (s : Session) (ss : List Stmt) :
    (s.evaluate ss).1 = (outputs s.setup ss s.ready).flatMap (·.2) := by
  have hprinted := printed_outputs s.setup ss s.ready
  cases hrun : ss.forM (topLevel s.setup) s.ready with
  | ok u m =>
    rw [hrun] at hprinted
    rw [evaluate_ok hrun]
    exact hprinted
  | error i m =>
    rw [hrun] at hprinted
    rw [evaluate_error hrun]
    exact hprinted

theorem Accepts.like_self {limits : Limits} {source : String} {resolved : Resolved}
    (ha : Accepts limits source resolved) :
    List.Forall₂ (Stmt.Alike Token.Like) (programOf limits source).statements
        (programOf limits source).statements ∧
      List.Forall₂ (Stmt.Alike Token.Like) resolved.statements resolved.statements :=
  ha.self_alike (fun _ _ h ↦ h) fun t _ ↦ .refl t

theorem rested_like {m : Machine} (h : m.Alike Token.Like [] m) :
    (ready ⟨setup, m.rested⟩).Alike Token.Like [] (ready ⟨setup, m.rested⟩) :=
  ⟨h.frames, h.objects_eq, h.fields, h.fresh_eq, rfl, rfl, rfl⟩

theorem after_like (hblind : setup.Blind) (sources : List String) :
    (after setup sources).setup = setup ∧
      (after setup sources).ready.Alike Token.Like [] (after setup sources).ready := by
  induction sources using List.reverseRecOn with
  | nil => exact ⟨rfl, (start_level setup).alike⟩
  | append_singleton sources source ih =>
    obtain ⟨hsetup, hself⟩ := ih
    have hafter : after setup (sources ++ [source]) = ((after setup sources).run source).2 := by
      simp [after]
    rw [hafter]
    rcases run_cases (after setup sources) source with ⟨resolved, ha⟩ | ⟨hsame, -⟩
    · rw [run_of_accepts ha]
      have hlock := forM_lockstep (hsetup.symm ▸ hblind) (fun _ _ h ↦ h) ha.like_self.2 hself
      cases hrun : resolved.statements.forM (topLevel (after setup sources).setup)
          (after setup sources).ready with
      | ok u m =>
        rw [hrun] at hlock
        rw [evaluate_ok hrun]
        cases hlock with
        | ok _ hm => exact ⟨hsetup, rested_like hm⟩
      | error i m =>
        rw [hrun] at hlock
        rw [evaluate_error hrun]
        cases hlock with
        | error _ hm => exact ⟨hsetup, rested_like hm⟩
    · rw [hsame]
      exact ⟨hsetup, hself⟩

end Session

end TreeWalk
