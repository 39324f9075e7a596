import TreeWalk.Proofs.Scope.Program
import TreeWalk.Proofs.Session.Fits

namespace TreeWalk.Session

open Exec Frames Resolving

/-- The session is between two runs. -/
structure Resting (setup : Setup) (sources : List String) (s : Session) : Prop where
  setup_eq : s.setup = setup
  sound : Sound setup sources s.machine
  env_eq : s.machine.env = .globals

section Course

variable {setup : Setup} {sources : List String} {source : String} {resolved : Resolved}
  {m m' : Machine} {s : Stmt} {ss ss' : List Stmt}

theorem Accepts.situated (ha : Accepts setup.limits source resolved) (hmem : source ∈ sources)
    (hs : resolved.statements = ss ++ s :: ss') :
    ∃ v, v.state.scopes = [] ∧ ∀ n fs, 0 < fs.next →
      Situated setup sources v (.stmt n s) .globals fs := by
  have hregular := Program.ofWords_regular (Scan.ofText_lexical source) ha.parsed
  obtain ⟨r, hwalk⟩ := Resolved.runs_of_ofStatements ha.walked ha.clean
  rw [hs] at hwalk
  obtain ⟨as, a, bs, r₁, r₂, hprogram, has, hrun, -⟩ := hwalk.split
  have hregular : ∀ s ∈ as ++ a :: bs, s.Regular := hprogram ▸ hregular
  have hscopes : r₁.scopes = [] :=
    has.topLevel_scopes (fun s h ↦ hregular s (List.mem_append_left _ h)) rfl
  refine ⟨⟨.stmt setup.limits.nesting a, r₁⟩, hscopes, fun n fs hfs ↦ ?_⟩
  refine ⟨⟨source, hmem, resolved, ha, as, a, bs, hprogram, ?_⟩, .stmt (topLevel_runs hrun),
    hregular a (by simp), ?_, ?_, ?_⟩
  · rw [has.after_eq]
    exact .refl
  · show TreeWalk.Settled r₁.scopes
    rw [hscopes]
    exact fun _ h ↦ absurd h List.not_mem_nil
  · show Lies fs _ r₁.scopes
    rw [hscopes]
    exact .globals hfs
  · intro i hi
    rw [show (⟨.stmt setup.limits.nesting a, r₁⟩ : Visit).state.scopes = [] from hscopes] at hi
    exact absurd hi (Nat.not_lt_zero i)

theorem topLevel_goes {v : Visit} (hlawful : setup.Lawful) (hm : Sound setup sources m)
    (hv : Situated setup sources v (.stmt setup.limits.nesting s) m.env m.frames)
    (hμ : Happens setup sources ⟨.stmt setup.limits.nesting s, m⟩) :
    Goes setup sources (topLevel setup s) m fun _ _ ↦ True := by
  have hgo := stmts_go hlawful setup.limits.nesting hm hv hμ
  unfold Goes Exec.topLevel
  cases hrun : exec setup setup.limits.nesting s m with
  | ok flow m' =>
    obtain ⟨hm', henv, hg, -⟩ := hgo.ok hrun
    exact ⟨hm', henv, hg, trivial⟩
  | error i m' =>
    obtain ⟨hm', hi⟩ := hgo.error hrun
    cases i with
    | tooDeep => exact ⟨hm', trivial⟩
    | error | endless | misfit | unknown => exact ⟨hm', hi⟩

theorem forM_goes {γ : Type} {f : γ → Exec Unit} (as : List γ) (hm : Sound setup sources m)
    (hf : ∀ before a rest, as = before ++ a :: rest → ∀ m', before.forM f m = .ok () m' →
      Sound setup sources m' → m'.env = m.env → Grow m.frames m'.frames →
      Goes setup sources (f a) m' fun _ _ ↦ True) :
    Goes setup sources (as.forM f) m fun _ _ ↦ True := by
  induction as generalizing m with
  | nil => exact .pure hm trivial
  | cons a as ih =>
    refine (hf [] a as rfl m rfl hm rfl (.refl _)).bind fun _ m₁ ha hm₁ henv₁ hg₁ _ ↦ ?_
    refine ih hm₁ fun before a' rest has m' hbefore hm' henv hg ↦ ?_
    refine hf (a :: before) a' rest (by rw [has]; rfl) m' ?_ hm' (henv.trans henv₁) (hg₁.trans hg)
    show EStateM.bind (f a) (fun _ ↦ before.forM f) m = .ok () m'
    rw [EStateM.bind, ha]
    exact hbefore

/-- The first statements of a run keep the machine sound. -/
theorem Resting.statements_go {before rest : List String} (hlawful : setup.Lawful)
    (h : Resting setup sources (after setup before)) (hs : sources = before ++ source :: rest)
    (ha : Accepts setup.limits source resolved) (hss : resolved.statements = ss ++ ss') :
    Goes setup sources (ss.forM (topLevel setup)) (after setup before).ready fun _ _ ↦ True := by
  refine forM_goes ss (h.sound.congr rfl rfl) fun done s todo hdone m' hrun hm' henv hg ↦ ?_
  have hstatements : resolved.statements = done ++ s :: (todo ++ ss') := by simp [hss, hdone]
  have hmem : source ∈ sources := by simp [hs]
  obtain ⟨v, -, hv⟩ := ha.situated hmem hstatements
  have henv : m'.env = .globals := henv.trans h.env_eq
  refine topLevel_goes hlawful hm' (henv ▸ hv _ _ hm'.globals) ?_
  exact ⟨before, source, rest, resolved, done, s, _, m', hs, ha, hstatements, hrun, .refl⟩

theorem run_cases (s : Session) (source : String) :
    (∃ resolved, Accepts s.setup.limits source resolved) ∨
      (s.run source).2 = s ∧ (s.run source).1.ending = .refused ∧ (s.run source).1.faults ≠ [] := by
  by_cases hread : (Scan.ofText source).faults = [] ∧ (programOf s.setup.limits source).faults = []
  · obtain ⟨hscan, hparsed⟩ := hread
    obtain ⟨resolved, hwalked⟩ := Resolved.ofStatements_regular s.setup.limits.nesting
      (Program.ofWords_regular (Scan.ofText_lexical source) hparsed)
    by_cases hclean : resolved.faults = []
    · exact .inl ⟨resolved, hscan, hparsed, hwalked, hclean⟩
    · have hrun : s.run source =
          (⟨Scan.ofText source, programOf s.setup.limits source, some resolved, [], .refused⟩, s) := by
        unfold programOf at hparsed ⊢
        simp only [run, hscan, hparsed, hwalked, hclean, List.isEmpty_iff]
        simp
      refine .inr ⟨by rw [hrun], by rw [hrun], fun hnone ↦ hclean ?_⟩
      rw [hrun] at hnone
      exact (List.append_eq_nil_iff.mp hnone).2
  · have hrun : s.run source =
        (⟨Scan.ofText source, programOf s.setup.limits source, none, [], .refused⟩, s) := by
      unfold programOf at hread ⊢
      simp only [run, List.isEmpty_iff, if_pos hread]
    refine .inr ⟨by rw [hrun], by rw [hrun], fun hnone ↦ hread ?_⟩
    rw [hrun] at hnone
    exact List.append_eq_nil_iff.mp (List.append_eq_nil_iff.mp hnone).1

theorem evaluate_ok {s : Session} {u : Unit} (h : ss.forM (topLevel s.setup) s.ready = .ok u m) :
    s.evaluate ss = (m.printed.toList, .completed, { s with machine := m.rested }) := by
  have hprogram : program s.setup ss s.ready = .ok u m.rested := by
    rw [program, h]
    rfl
  rw [Session.evaluate, ← ready, hprogram]
  rfl

theorem evaluate_error {s : Session} {i : Interrupt}
    (h : ss.forM (topLevel s.setup) s.ready = .error i m) :
    s.evaluate ss = (m.printed.toList, .interrupted i, { s with machine := m.rested }) := by
  have hprogram : program s.setup ss s.ready = .error i m.rested := by
    rw [program, h]
    rfl
  rw [Session.evaluate, ← ready, hprogram]
  rfl

theorem Resting.evaluate {s : Session} (h : Resting setup sources s)
    (hgo : Goes setup sources (ss.forM (topLevel setup)) s.ready fun _ _ ↦ True) :
    Resting setup sources (s.evaluate ss).2.2 := by
  obtain ⟨rfl, -, -⟩ := h
  cases hss : ss.forM (topLevel s.setup) s.ready with
  | ok _ m =>
    rw [evaluate_ok hss]
    exact ⟨rfl, (hgo.ok hss).1.congr rfl rfl, rfl⟩
  | error i m =>
    rw [evaluate_error hss]
    exact ⟨rfl, (hgo.error hss).1.congr rfl rfl, rfl⟩

theorem Resting.run {before rest : List String} (hlawful : setup.Lawful)
    (hs : sources = before ++ source :: rest) (h : Resting setup sources (after setup before)) :
    Resting setup sources (after setup (before ++ [source])) := by
  have hafter : after setup (before ++ [source]) = ((after setup before).run source).2 := by
    simp [after]
  rw [hafter]
  rcases run_cases (after setup before) source with ⟨resolved, ha⟩ | ⟨hsame, -⟩
  · rw [run_of_accepts ha]
    rw [h.setup_eq] at ha
    exact h.evaluate (h.statements_go hlawful hs ha (List.append_nil _).symm)
  · rwa [hsame]

theorem start_native {f : FrameId} {name : String} {v : Value}
    (hv : ((start setup).machine.frames.bindings f).get? name = some v) : ∃ i, v = .native i := by
  cases f with
  | zero =>
    change (Bindings.ofList (setup.natives.mapIdx fun i n ↦ (n.name, Value.native i))).get? name =
      some v at hv
    obtain ⟨i, hi, he⟩ := List.mem_mapIdx.mp (Bindings.mem_of_get?_ofList hv)
    exact ⟨i, (congrArg Prod.snd he).symm⟩
  | succ f =>
    change Bindings.empty.get? name = some v at hv
    cases hv

theorem start_resting (setup : Setup) (sources : List String) :
    Resting setup sources (start setup) := by
  refine ⟨rfl, ⟨Nat.one_pos, fun f name v hv ↦ ?_, fun object name v hv ↦ ?_⟩, rfl⟩
  · obtain ⟨i, rfl⟩ := start_native hv
    trivial
  · change Bindings.empty.get? name = some v at hv
    cases hv

theorem after_resting (hlawful : setup.Lawful) :
    ∀ before rest, sources = before ++ rest → Resting setup sources (after setup before) := by
  intro before
  induction before using List.reverseRecOn with
  | nil => exact fun _ _ ↦ start_resting setup sources
  | append_singleton before source ih =>
    intro rest hs
    rw [List.append_assoc] at hs
    exact (ih (source :: rest) hs).run hlawful hs

/-- Every moment of a session fits a visit. -/
theorem Happens.fits {μ : Moment} (hlawful : setup.Lawful) (h : Happens setup sources μ) :
    Fits setup sources μ := by
  obtain ⟨before, source, rest, resolved, ss, s, ss', m, hs, ha, hstatements, hm, hμ⟩ := h
  have hstart : Happens setup sources ⟨.stmt setup.limits.nesting s, m⟩ :=
    ⟨before, source, rest, resolved, ss, s, ss', m, hs, ha, hstatements, hm, .refl⟩
  have hrest := after_resting hlawful before _ hs
  obtain ⟨hsound, henv, -⟩ := (hrest.statements_go hlawful hs ha hstatements).ok hm
  have hmem : source ∈ sources := by simp [hs]
  obtain ⟨v, -, hv⟩ := ha.situated hmem hstatements
  suffices Fits setup sources μ ∧ Happens setup sources μ from this.1
  induction hμ with
  | refl =>
    refine ⟨.stmt hsound (?_ : Situated setup sources v _ _ _), hstart⟩
    rw [henv]
    exact hrest.env_eq ▸ hv _ _ hsound.globals
  | tail _ hleads ih => exact ⟨ih.1.leads hlawful ih.2 hleads, ih.2.tail hleads⟩

end Course

end TreeWalk.Session
