import TreeWalk.Proofs.Machine.Truncation
import TreeWalk.Proofs.Session.Joined

namespace TreeWalk

/-- The run ends in a stack overflow. -/
def Run.Overflows (r : Run) : Prop := ∃ e, r.error? = some e ∧ e.cause = .stackOverflow

namespace Session

open Exec

def allowing (s : Session) (calls : Int) : Session := { s with setup := s.setup.allowing calls }

def runThrough (s : Session) (sources : List String) : Session :=
  sources.foldl (fun s source ↦ (s.run source).2) s

variable {lower higher : Int}

/-- What a run comes to under a lower limit, and what it comes to under a higher one. -/
inductive Cut (lower higher : Int) : Run × Session → Run × Session → Prop
  | same (r : Run) (s : Session) : Cut lower higher (r, s.allowing lower) (r, s.allowing higher)
  | short {r r' : Run} (s s' : Session) :
      r.Overflows → r.printed <+: r'.printed → Cut lower higher (r, s) (r', s')

/-- Evaluations differ only where a stack overflow ends the one under the lower limit. -/
theorem evaluate_cut (hle : lower ≤ higher) (s : Session) (ss : List Stmt) :
    (∃ printed ending, ∃ s₁ : Session, (s.allowing lower).evaluate ss = (printed, ending, s₁.allowing lower) ∧
      (s.allowing higher).evaluate ss = (printed, ending, s₁.allowing higher)) ∨
    (∃ e, ((s.allowing lower).evaluate ss).2.1 = .interrupted (.error e) ∧ e.cause = .stackOverflow ∧
      ((s.allowing lower).evaluate ss).1 <+: ((s.allowing higher).evaluate ss).1) := by
  have hcut := (forM_truncates s.setup hle ss).cut s.ready
  cases hlow : ss.forM (topLevel (s.setup.allowing lower)) s.ready with
  | ok u m =>
    rw [hlow] at hcut
    generalize hhigh : ss.forM (topLevel (s.setup.allowing higher)) s.ready = x' at hcut
    cases hcut
    exact .inl ⟨_, _, ⟨s.setup, m.rested⟩, evaluate_ok (s := s.allowing lower) hlow,
      evaluate_ok (s := s.allowing higher) hhigh⟩
  | error i m =>
    rw [hlow] at hcut
    generalize hhigh : ss.forM (topLevel (s.setup.allowing higher)) s.ready = x' at hcut
    cases hcut with
    | same =>
      exact .inl ⟨_, _, ⟨s.setup, m.rested⟩, evaluate_error (s := s.allowing lower) hlow,
        evaluate_error (s := s.allowing higher) hhigh⟩
    | @short e _ _ he hm =>
      refine .inr ⟨e, by rw [evaluate_error (s := s.allowing lower) hlow], he, ?_⟩
      rw [evaluate_error (s := s.allowing lower) hlow]
      cases x' with
      | ok u m' => rwa [evaluate_ok (s := s.allowing higher) hhigh]
      | error i m' => rwa [evaluate_error (s := s.allowing higher) hhigh]

theorem run_cut (hle : lower ≤ higher) (s : Session) (source : String) :
    Cut lower higher ((s.allowing lower).run source) ((s.allowing higher).run source) := by
  have hlimits : (s.allowing higher).setup.limits = (s.allowing lower).setup.limits := rfl
  unfold run
  dsimp only
  rw [hlimits]
  split
  · exact .same _ s
  · split
    · exact .same _ s
    · next resolved _ =>
      split
      · exact .same _ s
      · rcases evaluate_cut hle s resolved.statements with
          ⟨printed, ending, s₁, hlow, hhigh⟩ | ⟨e, hending, he, hprinted⟩
        · rw [hlow, hhigh]
          exact .same _ s₁
        · exact .short _ _ ⟨e, by rw [Run.error?, hending], he⟩ hprinted

theorem runs_undisturbed (hle : lower ≤ higher) (sources : List String) :
    ∀ s : Session, (∀ r ∈ runs (s.allowing lower) sources, ¬ r.Overflows) →
      runs (s.allowing higher) sources = runs (s.allowing lower) sources ∧
        ∀ before, before <+: sources →
          (runThrough (s.allowing higher) before).machine =
            (runThrough (s.allowing lower) before).machine := by
  induction sources with
  | nil =>
    intro s _
    refine ⟨rfl, fun before hbefore ↦ ?_⟩
    rw [List.prefix_nil.mp hbefore]
    rfl
  | cons source sources ih =>
    intro s hfits
    have hcut := run_cut hle s source
    rw [runs] at hfits
    have hfirst := hfits _ (.head _)
    have hrest (r : Run) (hr : r ∈ runs ((s.allowing lower).run source).2 sources) :=
      hfits r (.tail _ hr)
    suffices h : runs (s.allowing higher) (source :: sources) = runs (s.allowing lower) (source :: sources) ∧
        ∀ before, before <+: sources →
          (runThrough ((s.allowing higher).run source).2 before).machine =
            (runThrough ((s.allowing lower).run source).2 before).machine by
      refine ⟨h.1, fun before hbefore ↦ ?_⟩
      cases before with
      | nil => rfl
      | cons source' before =>
        obtain ⟨rfl, hsources⟩ := List.cons_prefix_cons.mp hbefore
        exact h.2 before hsources
    rw [runs, runs]
    generalize (s.allowing lower).run source = low at hcut hfirst hrest ⊢
    generalize (s.allowing higher).run source = high at hcut ⊢
    cases hcut with
    | same r s₁ =>
      obtain ⟨hruns, hmachines⟩ := ih s₁ hrest
      exact ⟨congrArg (r :: ·) hruns, hmachines⟩
    | short _ _ hover => exact absurd hover hfirst

theorem run_shortened (hle : lower ≤ higher) (s : Session) (source : String) :
    ((s.allowing lower).run source).1.printed <+: ((s.allowing higher).run source).1.printed := by
  have hcut := run_cut hle s source
  generalize (s.allowing lower).run source = low at hcut ⊢
  generalize (s.allowing higher).run source = high at hcut ⊢
  cases hcut with
  | same => exact List.prefix_rfl
  | short _ _ _ hprinted => exact hprinted

/-- Of two sessions that allow different numbers of calls, the one that allows more does the same in every
run, and its machine is the same after every run, if no run of the other overflows. In any case the first
run of a source prints a start of what it prints where more calls are allowed. -/
theorem runs_allowing (setup : Setup) (hle : lower ≤ higher) (sources : List String) :
    let low := setup.allowing lower
    let high := setup.allowing higher
    ((∀ r ∈ runs (start low) sources, ¬ r.Overflows) →
      runs (start high) sources = runs (start low) sources ∧
        ∀ before, before <+: sources → (after high before).machine = (after low before).machine) ∧
      ∀ source, ((start low).run source).1.printed <+: ((start high).run source).1.printed :=
  ⟨runs_undisturbed hle sources (start setup), run_shortened hle (start setup)⟩

/-- The text `print "a"; clock(); print "b";` and its words. -/
def chiming : String := "print \"a\"; clock(); print \"b\";"

def chimingWords : List Token :=
  [⟨.printWord, "print", .nil, 1⟩, ⟨.string, "\"a\"", .string "a", 1⟩, ⟨.semicolon, ";", .nil, 1⟩,
    ⟨.identifier, "clock", .nil, 1⟩, ⟨.leftParen, "(", .nil, 1⟩, ⟨.rightParen, ")", .nil, 1⟩,
    ⟨.semicolon, ";", .nil, 1⟩, ⟨.printWord, "print", .nil, 1⟩, ⟨.string, "\"b\"", .string "b", 1⟩,
    ⟨.semicolon, ";", .nil, 1⟩]

theorem ofText_chiming : Scan.ofText chiming = ⟨chimingWords, Scan.endMarker 1, []⟩ := by
  with_unfolding_all rfl

def chimingStatements : List Stmt :=
  [.print (.literal (.string "a")),
    .expression (.call (.var ⟨.identifier, "clock", .nil, 1⟩ {}) ⟨.rightParen, ")", .nil, 1⟩ []),
    .print (.literal (.string "b"))]

theorem chiming_accepted : Accepts smallSetup.limits chiming ⟨chimingStatements, [], []⟩ := by
  have hp : programOf smallSetup.limits chiming = ⟨chimingStatements, []⟩ := by
    rw [programOf, ofText_chiming]
    rfl
  exact ⟨by rw [ofText_chiming], by rw [hp], by rw [hp]; rfl, rfl⟩

theorem chiming_ending : ((start (smallSetup.allowing 1)).run chiming).1.ending = .completed := by
  rw [run_of_accepts (s := start (smallSetup.allowing 1)) chiming_accepted]
  rfl

theorem chiming_undisturbed :
    runs (start (smallSetup.allowing 2)) [chiming] = runs (start (smallSetup.allowing 1)) [chiming] ∧
      ((start (smallSetup.allowing 1)).run chiming).1.printed <+:
        ((start (smallSetup.allowing 2)).run chiming).1.printed := by
  obtain ⟨hruns, hprinted⟩ := runs_allowing smallSetup (show (1 : Int) ≤ 2 by decide) [chiming]
  refine ⟨(hruns fun r hr ↦ ?_).1, hprinted chiming⟩
  obtain rfl := List.mem_singleton.mp hr
  rintro ⟨e, he, -⟩
  rw [Run.error?, chiming_ending] at he
  cases he

end Session

end TreeWalk
