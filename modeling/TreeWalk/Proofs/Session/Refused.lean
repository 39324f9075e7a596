import TreeWalk.Proofs.Session.Depth

namespace TreeWalk

/-- The distances that a run adds to those that the session knows. A run that is refused adds none. -/
def Run.links (r : Run) : List Link :=
  match r.ending with
  | .refused => []
  | _ => (r.resolved.map (·.links)).getD []

namespace Session

open Exec

/-- There is a complaint about a source before it is evaluated: by the scan, by the parser or by the resolver. -/
def refuses (limits : Limits) (source : String) : Bool :=
  !(Scan.ofText source).faults.isEmpty || !(programOf limits source).faults.isEmpty ||
    match Resolved.ofStatements limits.nesting (programOf limits source).statements with
    | .ok resolved => !resolved.faults.isEmpty
    | .error _ => false

/-- The distances that a session knows after some runs. -/
def table (setup : Setup) (sources : List String) : List Link :=
  (runs (start setup) sources).flatMap (·.links)

def Evaluates (μ : Moment) (s : Session) (source : String) : Prop :=
  ∃ resolved ss s' ss' m, Accepts s.setup.limits source resolved ∧
    resolved.statements = ss ++ s' :: ss' ∧ ss.forM (topLevel s.setup) s.ready = .ok () m ∧
    Relation.ReflTransGen (Moment.Leads s.setup) ⟨.stmt s.setup.limits.nesting s', m⟩ μ

/-- A moment of one of the runs of some sources in order. -/
def Passes (μ : Moment) : Session → List String → Prop
  | _, [] => False
  | s, source :: rest => Evaluates μ s source ∨ Passes μ (s.run source).2 rest

section Refused

variable {limits : Limits} {setup : Setup} {s : Session} {source : String} {resolved : Resolved}

theorem walked_of_parsed (h : (programOf limits source).faults = []) :
    ∃ resolved, Resolved.ofStatements limits.nesting (programOf limits source).statements =
      .ok resolved :=
  Resolved.ofStatements_regular limits.nesting
    (Program.ofWords_regular (Scan.ofText_lexical source) h)

/-- Every source is refused or accepted. -/
theorem not_refused_iff :
    refuses limits source = false ↔ ∃ resolved, Accepts limits source resolved := by
  constructor
  · intro h
    simp only [refuses, Bool.or_eq_false_iff, Bool.not_eq_false', List.isEmpty_iff] at h
    obtain ⟨⟨hscan, hparsed⟩, hclean⟩ := h
    obtain ⟨resolved, hwalked⟩ := walked_of_parsed hparsed
    rw [hwalked] at hclean
    exact ⟨resolved, hscan, hparsed, hwalked, by simpa using hclean⟩
  · rintro ⟨resolved, h⟩
    simp [refuses, h.scanned, h.parsed, h.walked, h.clean]

theorem not_accepts_of_refused (h : refuses limits source = true) : ¬ Accepts limits source resolved :=
  fun ha ↦ Bool.noConfusion ((not_refused_iff.mpr ⟨resolved, ha⟩).symm.trans h)

/-- A run of a source that is refused has nothing to do with the machine. -/
theorem run_refused (h : refuses setup.limits source = true) :
    ∃ r : Run, r.ending = .refused ∧ r.printed = [] ∧
      ∀ m, (⟨setup, m⟩ : Session).run source = (r, ⟨setup, m⟩) := by
  by_cases hread : (Scan.ofText source).faults = [] ∧ (programOf setup.limits source).faults = []
  · obtain ⟨hscan, hparsed⟩ := hread
    obtain ⟨resolved, hwalked⟩ := walked_of_parsed hparsed
    have hclean : resolved.faults ≠ [] :=
      fun hclean ↦ not_accepts_of_refused h ⟨hscan, hparsed, hwalked, hclean⟩
    refine ⟨⟨Scan.ofText source, programOf setup.limits source, some resolved, [], .refused⟩, rfl, rfl,
      fun m ↦ ?_⟩
    unfold programOf at hparsed hwalked ⊢
    simp [run, hscan, hparsed, hwalked, hclean, List.isEmpty_iff]
  · refine ⟨⟨Scan.ofText source, programOf setup.limits source, none, [], .refused⟩, rfl, rfl,
      fun m ↦ ?_⟩
    unfold programOf at hread ⊢
    simp only [run, List.isEmpty_iff, if_pos hread]

/-- A run of any source leaves the session at top level with no active call. -/
theorem run_returns (s : Session) (source : String) (henv : s.machine.env = .globals)
    (hdepth : s.machine.depth = 0) :
    (s.run source).2.setup = s.setup ∧ (s.run source).2.machine.env = .globals ∧
      (s.run source).2.machine.depth = 0 := by
  rcases run_cases s source with ⟨resolved, ha⟩ | ⟨hsame, -⟩
  · rw [run_of_accepts ha]
    cases hrun : resolved.statements.forM (topLevel s.setup) s.ready with
    | ok u m =>
      rw [evaluate_ok hrun]
      exact ⟨rfl, rfl, rfl⟩
    | error i m =>
      rw [evaluate_error hrun]
      exact ⟨rfl, rfl, rfl⟩
  · rw [hsame]
    exact ⟨rfl, henv, hdepth⟩

theorem after_returned (setup : Setup) (sources : List String) :
    (after setup sources).setup = setup ∧ (after setup sources).machine.env = .globals ∧
      (after setup sources).machine.depth = 0 := by
  induction sources using List.reverseRecOn with
  | nil => exact ⟨rfl, rfl, rfl⟩
  | append_singleton sources source ih =>
    obtain ⟨hsetup, henv, hdepth⟩ := ih
    have hrun := run_returns (after setup sources) source henv hdepth
    have hafter : after setup (sources ++ [source]) = ((after setup sources).run source).2 := by
      simp [after]
    rw [hafter]
    exact ⟨hrun.1.trans hsetup, hrun.2⟩

theorem passes_iff {μ : Moment} (s : Session) (sources : List String) :
    Passes μ s sources ↔ ∃ before source rest, sources = before ++ source :: rest ∧
      Evaluates μ (runThrough s before) source := by
  induction sources generalizing s with
  | nil => simp [Passes]
  | cons source sources ih =>
    rw [Passes, ih]
    constructor
    · rintro (h | ⟨before, source', rest, rfl, h⟩)
      · exact ⟨[], source, sources, rfl, h⟩
      · exact ⟨source :: before, source', rest, rfl, h⟩
    · rintro ⟨before, source', rest, hs, h⟩
      cases before with
      | nil =>
        obtain ⟨rfl, -⟩ := List.cons.inj hs
        exact .inl h
      | cons _ before =>
        obtain ⟨rfl, hsources⟩ := List.cons.inj hs
        exact .inr ⟨before, source', rest, hsources, h⟩

theorem happens_iff {μ : Moment} {sources : List String} :
    Happens setup sources μ ↔ Passes μ (start setup) sources := by
  rw [passes_iff]
  constructor
  · rintro ⟨before, source, rest, resolved, ss, s, ss', m, hs, h⟩
    refine ⟨before, source, rest, hs, resolved, ss, s, ss', m, ?_⟩
    rwa [show (runThrough (start setup) before).setup = setup from (after_returned setup before).1]
  · rintro ⟨before, source, rest, hs, resolved, ss, s, ss', m, h⟩
    refine ⟨before, source, rest, resolved, ss, s, ss', m, hs, ?_⟩
    rwa [show (runThrough (start setup) before).setup = setup from (after_returned setup before).1] at h

/-- Without the sources that are refused, the others are run alike. -/
theorem runs_kept (s : Session) (sources : List String)
    (henv : s.machine.env = .globals) (hdepth : s.machine.depth = 0) :
    let kept := sources.filter (!refuses s.setup.limits ·)
    runs s kept = ((sources.zip (runs s sources)).filter (!refuses s.setup.limits ·.1)).map (·.2) ∧
      runThrough s kept = runThrough s sources ∧
      (runs s kept).flatMap (·.links) = (runs s sources).flatMap (·.links) ∧
      ∀ μ, Passes μ s kept ↔ Passes μ s sources := by
  intro kept
  induction sources generalizing s with
  | nil => exact ⟨rfl, rfl, rfl, fun _ ↦ .rfl⟩
  | cons source sources ih =>
    obtain ⟨hsetup, henv', hdepth'⟩ := run_returns s source henv hdepth
    obtain ⟨hruns, hlast, htable, hpasses⟩ := ih (s.run source).2 henv' hdepth'
    rw [hsetup] at hruns hlast htable hpasses
    cases hrefused : refuses s.setup.limits source with
    | false =>
      have hkept : kept = source :: sources.filter (!refuses s.setup.limits ·) := by
        simp [kept, hrefused]
      rw [hkept]
      simp only [runs, List.zip_cons_cons, List.filter_cons, hrefused, Bool.not_false, if_true,
        List.map_cons, List.flatMap_cons]
      exact ⟨congrArg _ hruns, hlast, congrArg _ htable, fun μ ↦ or_congr_right (hpasses μ)⟩
    | true =>
      have hkept : kept = sources.filter (!refuses s.setup.limits ·) := by simp [kept, hrefused]
      obtain ⟨r, hending, -, hrun⟩ := run_refused hrefused
      have hsame : (s.run source).2 = s := congrArg Prod.snd (hrun s.machine)
      have hlinks : (s.run source).1.links = [] := by
        rw [show (s.run source).1 = r from congrArg Prod.fst (hrun s.machine), Run.links, hending]
      have hpass : ∀ μ, ¬ Evaluates μ s source := by
        rintro μ ⟨resolved, ss, s', ss', m, ha, -⟩
        exact not_accepts_of_refused hrefused ha
      have hthrough : runThrough s (source :: sources) = runThrough s sources := by
        rw [runThrough, List.foldl_cons, hsame, runThrough]
      rw [hsame] at hruns hlast htable hpasses
      rw [hkept, hthrough]
      simp only [runs, Passes, hsame, hlinks, hpass, false_or, List.zip_cons_cons, List.filter_cons,
        hrefused, Bool.not_true, List.flatMap_cons, List.nil_append]
      exact ⟨hruns, hlast, htable, hpasses⟩

/-- Failed runs do not disturb a session. After whatever runs, the next one starts at top level with no active
call. If its source is refused then it prints nothing, comes to no runtime error, and neither depends on the
machine nor changes it, and the distances that the session knows stay as they were. Without all sources that
are refused, each of the others has the same run, the same is evaluated in the same machines, and the session
comes to the same. -/
theorem failures_aside (setup : Setup) (sources : List String) :
    let s := after setup sources
    let kept := sources.filter (!refuses setup.limits ·)
    (s.ready.env = .globals ∧ s.ready.depth = 0) ∧
      (∀ source, refuses setup.limits source = true →
        (s.run source).1.printed = [] ∧ (s.run source).1.error? = none ∧
          (∀ m, (⟨setup, m⟩ : Session).run source = ((s.run source).1, ⟨setup, m⟩)) ∧
          table setup (sources ++ [source]) = table setup sources) ∧
      runs (start setup) kept =
        ((sources.zip (runs (start setup) sources)).filter (!refuses setup.limits ·.1)).map (·.2) ∧
      (∀ μ, Happens setup kept μ ↔ Happens setup sources μ) ∧
      after setup kept = s ∧ table setup kept = table setup sources := by
  intro s kept
  obtain ⟨hsetup, henv, hdepth⟩ := after_returned setup sources
  obtain ⟨hruns, hlast, htable, hpasses⟩ := runs_kept (start setup) sources rfl rfl
  refine ⟨⟨henv, hdepth⟩, fun source h ↦ ?_, hruns, fun μ ↦ ?_, hlast, htable⟩
  · obtain ⟨r, hending, hprinted, hrun⟩ := run_refused h
    have hs : (s.run source).1 = r := by
      rw [show s = ⟨setup, s.machine⟩ from congrArg (Session.mk · s.machine) hsetup, hrun]
    have hsources := (runs_kept (start setup) (sources ++ [source]) rfl rfl).2.2.1
    have hkept : (sources ++ [source]).filter (!refuses setup.limits ·) = kept := by
      simp [kept, List.filter_append, h]
    refine ⟨hs ▸ hprinted, by rw [hs, Run.error?, hending], hs ▸ hrun, ?_⟩
    rw [table, ← hsources]
    exact (congrArg (fun l ↦ (runs (start setup) l).flatMap (·.links)) hkept).trans htable
  · rw [happens_iff, happens_iff]
    exact hpasses μ

theorem refuses_unended : refuses smallSetup.limits "print a" = true := by
  have hscan : Scan.ofText "print a" =
      ⟨[⟨.printWord, "print", .nil, 1⟩, ⟨.identifier, "a", .nil, 1⟩], Scan.endMarker 1, []⟩ := by
    with_unfolding_all rfl
  simp only [refuses, programOf, hscan]
  rfl

theorem unended_aside :
    ((after smallSetup [nested]).run "print a").1.printed = [] ∧
      table smallSetup ([nested] ++ ["print a"]) = table smallSetup [nested] := by
  have hrefused := (failures_aside smallSetup [nested]).2.1 "print a" refuses_unended
  exact ⟨hrefused.1, hrefused.2.2.2⟩

end Refused

end Session

end TreeWalk
