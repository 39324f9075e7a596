import TreeWalk.Proofs.Grammar.Alike
import TreeWalk.Proofs.Machine.Evaluation
import TreeWalk.Proofs.Scope.Alike
import TreeWalk.Proofs.Session.Course
import TreeWalk.Proofs.Token.Joined

namespace TreeWalk

/-- What can be seen of a value: how it is printed, and which object it is. -/
def Value.seen : Value → String × Option Nat
  | .object identity info => ((Value.object identity info).text, some identity)
  | v => (v.text, none)

def Bindings.seen (b : Bindings Value) : List (String × String × Option Nat) :=
  b.entries.map fun e ↦ (e.1, e.2.seen)

/-- The same can be seen of all globals, and of the fields of all objects. -/
structure Machine.LooksLike (m m' : Machine) : Prop where
  globals : m'.globals.seen = m.globals.seen
  fields : ∀ object, (m'.fields object).seen = (m.fields object).seen

/-- Both are completed, or both are interrupted alike. -/
inductive Ending.Alike (R : Token → Token → Prop) : Ending → Ending → Prop
  | completed : Alike R .completed .completed
  | interrupted {i i' : Interrupt} : i.Alike R i' → Alike R (.interrupted i) (.interrupted i')

theorem Bindings.Rel.seen_eq {S : Value → Value → Prop} (hS : ∀ v v', S v v' → v'.seen = v.seen)
    {b b' : Bindings Value} (h : b.Rel S b') : b'.seen = b.seen := by
  obtain ⟨entries⟩ := b
  obtain ⟨entries'⟩ := b'
  unfold Bindings.Rel at h
  unfold Bindings.seen
  dsimp only at h ⊢
  induction h with
  | nil => rfl
  | cons he _ ih => rw [List.map_cons, List.map_cons, ih, he.1, hS _ _ he.2]

theorem Value.Like.seen_eq {v v' : Value} (h : v.Like v') : v'.seen = v.seen := by
  have htext := h.text_eq
  cases h with
  | object => exact Prod.ext htext rfl
  | scalar | native => rfl
  | function | cls | completion => exact Prod.ext htext rfl

section Seen

variable {R : Token → Token → Prop} (hR : ∀ t t', R t t' → t.Like t')
include hR

theorem Machine.Alike.looksLike {before : List String} {m m' : Machine}
    (h : m.Alike R before m') : m.LooksLike m' :=
  ⟨(h.frames.bindings 0).seen_eq fun _ _ hv ↦ (hv.like hR).seen_eq,
    fun object ↦ (h.fields object).seen_eq fun _ _ hv ↦ (hv.like hR).seen_eq⟩

end Seen

namespace Session

open Exec Grammar Resolving Scan

def runs (s : Session) : List String → List Run
  | [] => []
  | source :: rest => (s.run source).1 :: runs (s.run source).2 rest

def lastEnding (rs : List Run) : Ending := (rs.getLast?.map (·.ending)).getD .completed

section Programs

variable {limits : Limits} {source : String} {resolved : Resolved} {r : Resolution}

/-- A source that is accepted is accepted behind others, and with others behind it. -/
theorem Accepts.placed (before rest : List String) (ha : Accepts limits source resolved)
    (hr : Resolution.Alike {} r) :
    ∃ ss as r', Sequence (Declaration limits.nesting)
        ((ofText source).words.map (·.moved (linesOf before))) ss ∧
      RunsAll (topLevel limits.nesting) r ss as r' ∧ Resolution.Alike {} r' ∧
      List.Forall₂ (Stmt.Alike (Moved (before ++ source :: rest))) resolved.statements as := by
  have hlike (t : Token) : t.Like (t.moved (linesOf before)) := ⟨rfl, rfl, rfl⟩
  have hregular := Program.ofWords_regular (ofText_lexical source) ha.parsed
  obtain ⟨ss, hss, hAlike⟩ := sequence_carries (declaration_carries hlike limits.nesting)
    (Program.ofWords_sound ha.parsed) fun t ht ↦ moved_of_mem before rest ht
  obtain ⟨r₁, hwalk⟩ := Resolved.runs_of_ofStatements ha.walked ha.clean
  obtain ⟨as, r', has, hAs, hr'⟩ :=
    hwalk.behind (fun _ _ h ↦ h.like) hregular hAlike hr
  exact ⟨ss, as, r', hss, has, hr', hAs⟩

/-- The trees of some sources in order, up to the lines of their tokens. -/
inductive Chained (limits : Limits) (R : Token → Token → Prop) :
    List String → List Stmt → Prop
  | nil : Chained limits R [] []
  | cons {source : String} {sources : List String} {resolved : Resolved} {as bs : List Stmt} :
      Accepts limits source resolved → List.Forall₂ (Stmt.Alike R) resolved.statements as →
      Chained limits R sources bs → Chained limits R (source :: sources) (as ++ bs)

theorem chained_of_accepts {sources : List String} : ∀ rest before, sources = before ++ rest →
    (∀ source ∈ rest, ∃ resolved, Accepts limits source resolved) →
    ∀ r, Resolution.Alike {} r →
      ∃ ss as r', Sequence (Declaration limits.nesting) (wordsFrom (linesOf before) rest) ss ∧
        RunsAll (topLevel limits.nesting) r ss as r' ∧ Resolution.Alike {} r' ∧
        Chained limits (Moved sources) rest as := by
  intro rest
  induction rest with
  | nil => exact fun _ _ _ r hr ↦ ⟨[], [], r, .nil, .nil, hr, .nil⟩
  | cons source rest ih =>
    intro before hs haccepted r hr
    obtain ⟨resolved, ha⟩ := haccepted source (.head _)
    obtain ⟨ss, as, r₁, hss, has, hr₁, hAs⟩ := ha.placed before rest hr
    have hs' : sources = (before ++ [source]) ++ rest := by simp [hs]
    obtain ⟨ss', as', r', hss', has', hr', hchained⟩ :=
      ih (before ++ [source]) hs' (fun s h ↦ haccepted s (.tail _ h)) r₁ hr₁
    have hlines : linesOf (before ++ [source]) = linesOf before + lines source := by
      simp [linesOf_append, linesOf]
    rw [hlines] at hss'
    rw [← hs] at hAs
    exact ⟨ss ++ ss', as ++ as', r', hss.append hss', has.append has', hr', .cons ha hAs hchained⟩

/-- Sources that are each accepted are accepted when they are joined. -/
theorem accepts_joined {sources : List String}
    (haccepted : ∀ source ∈ sources, ∃ resolved, Accepts limits source resolved) :
    ∃ resolved, Accepts limits ("\n".intercalate sources) resolved ∧
      Chained limits (Moved sources) sources resolved.statements := by
  have hclean : ∀ text ∈ sources, (ofText text).faults = [] := fun text ht ↦
    (haccepted text ht).choose_spec.scanned
  obtain ⟨hwords, hscanned⟩ := ofText_intercalate hclean
  obtain ⟨ss, as, r, hss, has, hr, hchained⟩ :=
    chained_of_accepts sources [] rfl haccepted {} ⟨rfl, rfl, rfl, rfl, id⟩
  have hp : programOf limits ("\n".intercalate sources) = ⟨ss, []⟩ := by
    rw [programOf, hwords]
    exact Program.ofWords_eq _ hss (Nat.le_refl _)
  have hwalked := Resolved.ofStatements_of_runs has (hr.clean ⟨rfl, rfl⟩)
  exact ⟨⟨as, r.links.toList, []⟩, ⟨hscanned, by rw [hp], by rw [hp]; exact hwalked, rfl⟩, hchained⟩

end Programs

section Machines

variable {setup : Setup} {R : Token → Token → Prop}

inductive Concludes (R : Token → Token → Prop) (printed : List String) (s : Session) :
    Ending → EStateM.Result Interrupt Machine Unit → Prop
  | completed {m : Machine} :
      s.ready.Alike R printed m.rested → Concludes R printed s .completed (.ok () m)
  | interrupted {i i' : Interrupt} {m : Machine} : i.Alike R i' →
      s.ready.Alike R printed m.rested → Concludes R printed s (.interrupted i) (.error i' m)

/-- A session at rest, and a machine that has done the same. -/
structure Level (R : Token → Token → Prop) (printed : List String) (s : Session) (m : Machine) :
    Prop where
  alike : s.ready.Alike R printed m
  env_eq : s.machine.env = .globals
  depth_eq : s.machine.depth = 0

theorem ready_alike {setup : Setup} {printed : List String} {m m' : Machine}
    (h : m.Alike R printed m') :
    (ready ⟨setup, m.rested⟩).Alike R (printed ++ m.printed.toList) m'.rested := by
  refine ⟨h.frames, h.objects_eq, h.fields, h.fresh_eq, rfl, rfl, ?_⟩
  show m'.printed.toList = _
  rw [h.printed_eq]
  simp [ready]

theorem rested_eq {m : Machine} (henv : m.env = .globals) (hdepth : m.depth = 0) :
    m.rested = m := by
  obtain ⟨_, _, _, _, _, _⟩ := m
  cases henv
  cases hdepth
  rfl

theorem lastEnding_cons {r : Run} {rs : List Run} (h : r.ending = .completed) :
    lastEnding (r :: rs) = lastEnding rs := by
  cases rs with
  | nil => exact h
  | cons r' rs => rw [lastEnding, List.getLast?_cons_cons, lastEnding]

theorem forM_append (as bs : List Stmt) (m : Machine) :
    (as ++ bs).forM (topLevel setup) m =
      EStateM.bind (as.forM (topLevel setup)) (fun _ ↦ bs.forM (topLevel setup)) m := by
  have h : (as ++ bs).forM (topLevel setup) =
      (do as.forM (topLevel setup); bs.forM (topLevel setup)) := List.forM_append
  rw [h]
  rfl

theorem mem_dropLast_cons {r r' : Run} {rs : List Run} (h : r' ∈ rs.dropLast) :
    r' ∈ (r :: rs).dropLast := by
  cases rs with
  | nil => exact absurd h List.not_mem_nil
  | cons => exact .tail _ h

/-- The statements of the joined sources do what the runs of the sources do. -/
theorem forM_concludes (hblind : setup.Blind) (hR : ∀ t t', R t t' → t.Like t')
    {sources : List String} {as : List Stmt} (h : Chained setup.limits R sources as) :
    ∀ {printed : List String} {s : Session} {m : Machine}, s.setup = setup → Level R printed s m →
      (∀ r ∈ (runs s sources).dropLast, r.ending = .completed) →
      Concludes R (printed ++ (runs s sources).flatMap (·.printed))
        (sources.foldl (fun s source ↦ (s.run source).2) s) (lastEnding (runs s sources))
        (as.forM (topLevel setup) m) := by
  induction h with
  | nil =>
    intro printed s m _ hm _
    have hrested : m.rested = m :=
      rested_eq (hm.alike.env_eq.trans hm.env_eq) (hm.alike.depth_eq.trans hm.depth_eq)
    rw [runs, List.flatMap_nil, List.append_nil]
    exact .completed (hrested.symm ▸ hm.alike)
  | @cons source sources resolved as bs ha has hrest ih =>
    rintro printed s m rfl hm hcompleted
    have hlock := forM_lockstep hblind hR has hm.alike
    have hrun := run_of_accepts ha
    rw [forM_append, EStateM.bind]
    rw [runs, hrun] at hcompleted
    rw [runs, List.flatMap_cons, List.foldl_cons, hrun]
    dsimp only at hcompleted ⊢
    generalize as.forM (topLevel s.setup) m = x at hlock ⊢
    cases hgo : resolved.statements.forM (topLevel s.setup) s.ready with
    | ok u m₁ =>
      rw [evaluate_ok hgo] at hcompleted ⊢
      rw [hgo] at hlock
      cases hlock with
      | @ok _ _ _ m₁' _ hm₁ hplace =>
        have hrested : m₁'.rested = m₁' :=
          rested_eq (hm₁.env_eq.trans (hplace.env_eq.trans hm.env_eq))
            (hm₁.depth_eq.trans (hplace.depth_eq.trans hm.depth_eq))
        have hlevel : Level R (printed ++ m₁.printed.toList) ⟨s.setup, m₁.rested⟩ m₁' :=
          ⟨hrested ▸ ready_alike hm₁, rfl, rfl⟩
        rw [← List.append_assoc, lastEnding_cons rfl]
        exact ih rfl hlevel fun r hr ↦ hcompleted r (mem_dropLast_cons hr)
    | error i m₁ =>
      rw [evaluate_error hgo] at hcompleted ⊢
      rw [hgo] at hlock
      cases hlock with
      | error hi hm₁ =>
        cases sources with
        | nil =>
          rw [runs, List.flatMap_nil, List.append_nil]
          exact .interrupted hi (ready_alike hm₁)
        | cons source' sources =>
          exact absurd (hcompleted _ (.head _)) nofun

theorem Concludes.evaluate {printed : List String} {s : Session} (s' : Session)
    {ending : Ending} {ss : List Stmt} (h : Concludes R printed s ending (ss.forM (topLevel s'.setup) s'.ready)) :
    (s'.evaluate ss).1 = printed ∧ ending.Alike R (s'.evaluate ss).2.1 ∧
      s.ready.Alike R printed (s'.evaluate ss).2.2.machine := by
  cases hgo : ss.forM (topLevel s'.setup) s'.ready with
  | ok u m =>
    rw [hgo] at h
    rw [evaluate_ok hgo]
    cases h with
    | completed hm => exact ⟨hm.printed_eq.trans (List.append_nil _), .completed, hm⟩
  | error i' m =>
    rw [hgo] at h
    rw [evaluate_error hgo]
    cases h with
    | interrupted hi hm => exact ⟨hm.printed_eq.trans (List.append_nil _), .interrupted hi, hm⟩

theorem start_level (setup : Setup) : Level R [] (start setup) (start setup).ready := by
  refine ⟨⟨⟨rfl, fun f ↦ ?_⟩, rfl, fun _ ↦ .empty, rfl, rfl, rfl, rfl⟩, rfl, rfl⟩
  cases f with
  | zero =>
    refine .ofList (List.forall₂_same.mpr fun e he ↦ ⟨rfl, ?_⟩)
    obtain ⟨i, hi, rfl⟩ := List.mem_mapIdx.mp he
    exact .native
  | succ f => exact .empty

/-- A session to which sources are given one by one does what it does when they are given in one text, joined
by line feeds, if each of them is accepted and each but the last is completed. The one text is accepted. It
prints the same, leaves the same to be seen, and ends alike: if the last source ends in a runtime error then
the one text does so for the same cause, and on a later line only because of the lines that come before the
source in which the token stands. -/
theorem run_joined (hblind : setup.Blind) {sources : List String}
    (haccepted : ∀ source ∈ sources, ∃ resolved, Accepts setup.limits source resolved)
    (hcompleted : ∀ r ∈ (runs (start setup) sources).dropLast, r.ending = .completed) :
    let rs := runs (start setup) sources
    let joined := (start setup).run ("\n".intercalate sources)
    (∃ resolved, Accepts setup.limits ("\n".intercalate sources) resolved) ∧
      joined.1.printed = rs.flatMap (·.printed) ∧
      (lastEnding rs).Alike (Moved sources) joined.1.ending ∧
      (after setup sources).machine.LooksLike joined.2.machine := by
  intro rs joined
  have hR : ∀ t t', Moved sources t t' → t.Like t' := fun _ _ h ↦ h.like
  obtain ⟨resolved, ha, hchained⟩ := accepts_joined haccepted
  have hends := forM_concludes hblind hR hchained rfl (start_level setup) hcompleted
  rw [List.nil_append] at hends
  obtain ⟨hprinted, hending, halike⟩ := Concludes.evaluate (start setup) hends
  have hrun : joined = _ := run_of_accepts (s := start setup) ha
  rw [hrun]
  exact ⟨⟨resolved, ha⟩, hprinted, hending, (halike.looksLike hR).1, (halike.looksLike hR).2⟩

def pieces : List String := ["var a;", "-a;"]

def minusSign : Token := ⟨.minus, "-", .nil, 1⟩

theorem ofText_pieces :
    ofText "var a;" = ⟨[⟨.varWord, "var", .nil, 1⟩, ⟨.identifier, "a", .nil, 1⟩,
      ⟨.semicolon, ";", .nil, 1⟩], endMarker 1, []⟩ ∧
    ofText "-a;" = ⟨[minusSign, ⟨.identifier, "a", .nil, 1⟩, ⟨.semicolon, ";", .nil, 1⟩],
      endMarker 1, []⟩ := by
  constructor <;> with_unfolding_all rfl

theorem pieces_accepted :
    Accepts smallSetup.limits "var a;" ⟨[.var ⟨.identifier, "a", .nil, 1⟩ none], [], []⟩ ∧
    Accepts smallSetup.limits "-a;"
      ⟨[.expression (.unary minusSign (.var ⟨.identifier, "a", .nil, 1⟩ {}))], [], []⟩ := by
  have hfirst : programOf smallSetup.limits "var a;" =
      ⟨[.var ⟨.identifier, "a", .nil, 1⟩ none], []⟩ := by
    rw [programOf, ofText_pieces.1]
    rfl
  have hsecond : programOf smallSetup.limits "-a;" =
      ⟨[.expression (.unary minusSign (.var ⟨.identifier, "a", .nil, 1⟩ {}))], []⟩ := by
    rw [programOf, ofText_pieces.2]
    rfl
  exact ⟨⟨by rw [ofText_pieces.1], by rw [hfirst], by rw [hfirst]; rfl, rfl⟩,
    ⟨by rw [ofText_pieces.2], by rw [hsecond], by rw [hsecond]; rfl, rfl⟩⟩

theorem pieces_end : (runs (start smallSetup) pieces).map (·.ending) =
    [.completed, .interrupted (.error ⟨.operandNotNumber, minusSign⟩)] := by
  have hfirst := run_of_accepts (s := start smallSetup) pieces_accepted.1
  have hsetup : ((start smallSetup).run "var a;").2.setup = smallSetup := by
    rw [hfirst]
    rfl
  have hsecond := run_of_accepts (s := ((start smallSetup).run "var a;").2)
    (hsetup.symm ▸ pieces_accepted.2)
  rw [pieces, runs, runs, hsecond, hfirst, runs]
  rfl

theorem minusSign_line {before rest : List String} {text : String}
    (hs : pieces = before ++ text :: rest) (ht : minusSign ∈ (ofText text).words) :
    linesOf before = 1 := by
  unfold pieces at hs
  cases before with
  | nil =>
    obtain ⟨rfl, -⟩ := List.cons.inj hs
    rw [ofText_pieces.1] at ht
    exact absurd ht (by simp [minusSign])
  | cons first before =>
    obtain ⟨rfl, hs⟩ := List.cons.inj hs
    cases before with
    | nil => rfl
    | cons => simp at hs

/-- Joined, they fail in the same way, on the second line. -/
theorem pieces_joined :
    ∃ e, ((start smallSetup).run ("\n".intercalate pieces)).1.ending = .interrupted (.error e) ∧
      e.cause = .operandNotNumber ∧ e.token.line = 2 := by
  have hblind : smallSetup.Blind := fun _ hn ↦ absurd hn List.not_mem_nil
  have haccepted : ∀ source ∈ pieces, ∃ resolved, Accepts smallSetup.limits source resolved := by
    simpa [pieces] using ⟨⟨_, pieces_accepted.1⟩, ⟨_, pieces_accepted.2⟩⟩
  have hcompleted : ∀ r ∈ (runs (start smallSetup) pieces).dropLast, r.ending = .completed := by
    intro r hr
    have hmem := List.mem_map_of_mem (f := Run.ending) hr
    rw [List.map_dropLast, pieces_end] at hmem
    exact List.mem_singleton.mp hmem
  obtain ⟨-, -, hending, -⟩ := run_joined hblind haccepted hcompleted
  rw [lastEnding, ← List.getLast?_map, pieces_end] at hending
  generalize ((start smallSetup).run ("\n".intercalate pieces)).1.ending = ending at hending ⊢
  cases hending with
  | interrupted hi =>
    cases hi with
    | @error _ e he =>
      refine ⟨e, rfl, he.cause_eq, ?_⟩
      rcases he.token with ⟨before, text, rest, hs, ht, hmoved, -⟩ | ⟨hmarker, -⟩
      · rw [hmoved, Token.moved, minusSign_line hs ht]
        rfl
      · cases hmarker

end Machines

end Session

end TreeWalk
