import TreeWalk.Proofs.Grammar.Traced
import TreeWalk.Proofs.Machine.Renaming
import TreeWalk.Proofs.Scope.Named
import TreeWalk.Proofs.Scope.Respelled
import TreeWalk.Proofs.Session.Joined
import TreeWalk.Proofs.Token.Respelled

namespace TreeWalk

/-- Both are completed, or both are interrupted, with tokens that are the same but for the variable. -/
inductive Ending.Respelled (x y : String) : Ending → Ending → Prop
  | completed : Respelled x y .completed .completed
  | interrupted {i i' : Interrupt} :
      i.Respelled x y i' → Respelled x y (.interrupted i) (.interrupted i')

section Seen

variable {x y : String} {w : List Bool}

theorem Machine.Respelled.looksLike {m m' : Machine} (h : m.Respelled x y w m') : m.LooksLike m' :=
  ⟨h.frames.globals.seen_eq fun _ _ hv ↦ hv.like.seen_eq,
    fun object ↦ (h.fields object).seen_eq fun _ _ hv ↦ hv.like.seen_eq⟩

theorem RuntimeError.Respelled.text_eq {e e' : RuntimeError} (h : e.Respelled x y e') :
    e'.text = e.text := by
  obtain ⟨anew, htoken⟩ := h.token
  rw [RuntimeError.text, RuntimeError.text, h.cause_eq, htoken]
  rfl

end Seen

namespace Session

open Exec Grammar Resolving Scan

section Programs

variable {limits : Limits} {source : String} {resolved : Resolved} {x y : String}

theorem Accepts.runs (ha : Accepts limits source resolved) : ∃ r : Resolution, r.Clean ∧
    RunsAll (topLevel limits.nesting) {} (programOf limits source).statements resolved.statements r ∧
    resolved.links = r.links.toList := by
  obtain ⟨r, hwalk⟩ := Resolved.runs_of_ofStatements ha.walked ha.clean
  have hclean := hwalk.clean ⟨rfl, rfl⟩
  have hresolved := (Resolved.ofStatements_of_runs hwalk hclean).symm.trans ha.walked
  injection hresolved with hresolved
  exact ⟨r, hclean, hwalk, (congrArg Resolved.links hresolved).symm⟩

theorem Accepts.regular (ha : Accepts limits source resolved) :
    ∀ s ∈ (programOf limits source).statements, s.Regular :=
  Program.ofWords_regular (ofText_lexical source) ha.parsed

theorem Accepts.self_alike {R : Token → Token → Prop} (hR : ∀ t t', R t t' → t.Like t')
    (ha : Accepts limits source resolved) (hwords : ∀ t ∈ (ofText source).words, R t t) :
    List.Forall₂ (Stmt.Alike R) (programOf limits source).statements
        (programOf limits source).statements ∧
      List.Forall₂ (Stmt.Alike R) resolved.statements resolved.statements := by
  -- The words are read once more, unchanged: what comes of that is alike, and it is the same.
  have hlike (t : Token) : t.Like (id t) := .refl t
  obtain ⟨ss, hss, hAlike⟩ := sequence_carries (declaration_carries hlike limits.nesting)
    (Program.ofWords_sound ha.parsed) hwords
  rw [List.map_id] at hss
  have hsame : programOf limits source = ⟨ss, []⟩ := Program.ofWords_eq _ hss (Nat.le_refl _)
  have hparsed : ss = (programOf limits source).statements := by rw [hsame]
  rw [hparsed] at hAlike
  obtain ⟨r, -, hwalk, -⟩ := ha.runs
  obtain ⟨as, r', hwalk', hAs, -⟩ := RunsAll.alike hR hwalk hAlike ⟨rfl, rfl, rfl, rfl, id⟩
  obtain ⟨rfl, -⟩ := Prod.mk.inj (hwalk'.run_eq.symm.trans hwalk.run_eq)
  exact ⟨hAlike, hAs⟩

theorem Accepts.identifier {ss : List Stmt} (ha : Accepts limits source resolved)
    (h : Stmt.RenamesAmong x y resolved.statements ss) : Identifier x := by
  obtain ⟨-, hself⟩ := ha.self_alike (R := fun t t' ↦ t' = t ∧ t ∈ (ofText source).words)
    (fun _ _ h ↦ h.1 ▸ .refl _) fun _ ht ↦ ⟨rfl, ht⟩
  have hnamed := Program.ofWords_named (ofText_lexical source) ha.parsed
  obtain ⟨r, -, hwalk, -⟩ := ha.runs
  have hnamed' := hwalk.forall_mem fun s hs ↦ fun h ↦ stmt_named (hnamed s hs) (topLevel_runs h)
  obtain ⟨t, hkind, rfl, -, ht⟩ := h.names hnamed' hself
  exact identifier_of_word ht hkind

theorem Accepts.respelled {ss : List Stmt} (ha : Accepts limits source resolved)
    (hfresh : ∀ t ∈ (ofText source).words, t.lexeme ≠ y)
    (h : Stmt.RenamesAmong x y resolved.statements ss) :
    Stmt.AllRespelled x y [] resolved.statements ss := by
  obtain ⟨r, -, hwalk, -⟩ := ha.runs
  obtain ⟨-, hself⟩ := ha.self_alike (R := fun t t' ↦ t.Known y t') (fun _ _ h ↦ h.eq ▸ .refl _)
    fun t ht ↦ ⟨rfl, hfresh t ht⟩
  exact h.respelled (ha.identifier h).ne_this hwalk.stmts ha.regular hself fun hops ↦ by
    cases hops <;> rfl

theorem renamed_kindred : Kindred (Token.Renamed x y) where
  refl := .refl
  kind_eq := by
    rintro t _ ⟨anew, rfl⟩
    rfl

/-- There is a text for the program in which the variable is renamed, which is accepted. -/
theorem Accepts.renamed {ss : List Stmt} (ha : Accepts limits source resolved) (hy : Identifier y)
    (hfresh : ∀ t ∈ (ofText source).words, t.lexeme ≠ y)
    (h : Stmt.RenamesAmong x y resolved.statements ss) :
    ∃ source' resolved',
      List.Forall₂ (Piece.Renamed x y) (Piece.cut source.toList) (Piece.cut source'.toList) ∧
      Accepts limits source' resolved' ∧ resolved'.statements = ss ∧
      List.Forall₂ (Link.Renamed x y) resolved.links resolved'.links := by
  obtain ⟨r, -, hwalk, hlinks⟩ := ha.runs
  obtain ⟨ss', r', hAlike, hwalk', hr⟩ := hwalk.topLevel_follow hy.ne_this (ha.respelled hfresh h)
  obtain ⟨words, hwords, hss'⟩ := sequence_traces
    (declaration_traces renamed_kindred limits.nesting) (Program.ofWords_sound ha.parsed) hAlike
  obtain ⟨source', hpieces, hwords', hclean⟩ :=
    text_of_words (ha.identifier h) hy ha.scanned hwords
  have hp : programOf limits source' = ⟨ss', []⟩ := by
    rw [programOf, hwords']
    exact Program.ofWords_eq _ hss' (Nat.le_refl _)
  have hwalked := Resolved.ofStatements_of_runs hwalk' hr.clean
  exact ⟨source', ⟨ss, r'.links.toList, []⟩, hpieces,
    ⟨hclean, by rw [hp], by rw [hp]; exact hwalked, rfl⟩, rfl, hlinks ▸ hr.links⟩

end Programs

section Runs

variable {setup : Setup} {x y : String} {w : List Bool}

theorem start_respelled (setup : Setup) :
    (start setup).ready.Respelled x y [false] (start setup).ready := by
  refine ⟨⟨rfl, rfl, rfl, ?_, ?_⟩, rfl, fun _ ↦ .empty, rfl, rfl, rfl, rfl⟩
  · refine .ofList (List.forall₂_same.mpr fun e he ↦ ⟨rfl, ?_⟩)
    obtain ⟨i, hi, rfl⟩ := List.mem_mapIdx.mp he
    exact .native
  · intro f anew hzero hf
    obtain ⟨f, rfl⟩ := Nat.exists_eq_succ_of_ne_zero hzero
    cases hf

theorem evaluate_respelled {s : Session} {ss ss' : List Stmt}
    (h : EndsAbreast x y w (fun _ ↦ Eq) s.ready (ss.forM (topLevel s.setup) s.ready)
      (ss'.forM (topLevel s.setup) s.ready)) :
    (s.evaluate ss').1 = (s.evaluate ss).1 ∧
      (s.evaluate ss).2.1.Respelled x y (s.evaluate ss').2.1 ∧
      (s.evaluate ss).2.2.machine.LooksLike (s.evaluate ss').2.2.machine := by
  have hlooks {w₁ : List Bool} {m m' : Machine} (hm : m.Respelled x y w₁ m') :
      m.rested.LooksLike m'.rested :=
    Machine.Respelled.looksLike (w := w₁) { hm with env_eq := rfl, depth_eq := rfl }
  generalize hrun : ss.forM (topLevel s.setup) s.ready = r at h
  generalize hrun' : ss'.forM (topLevel s.setup) s.ready = r' at h
  cases h with
  | ok _ _ hm =>
    rw [evaluate_ok hrun, evaluate_ok hrun']
    exact ⟨congrArg Array.toList hm.printed_eq, .completed, hlooks hm⟩
  | error _ hi hm =>
    rw [evaluate_error hrun, evaluate_error hrun']
    exact ⟨congrArg Array.toList hm.printed_eq, .interrupted hi, hlooks hm⟩

theorem report_eq {r r' : Run} (hr : r.faults = []) (hr' : r'.faults = [])
    (h : r.ending.Respelled x y r'.ending) : r'.report = r.report := by
  have herror : r'.error?.toList.map (·.text) = r.error?.toList.map (·.text) := by
    unfold Run.error?
    generalize r.ending = e at h ⊢
    generalize r'.ending = e' at h ⊢
    cases h with
    | completed => rfl
    | interrupted hi =>
      cases hi with
      | error he => exact congrArg (fun text ↦ [text]) he.text_eq
      | pastGlobals | unbound | unknown | tooDeep | endless => rfl
  rw [Run.report, Run.report, hr, hr', herror]

theorem Accepts.run_faults {source : String} {resolved : Resolved}
    (ha : Accepts setup.limits source resolved) : ((start setup).run source).1.faults = [] := by
  rw [run_of_accepts (s := start setup) ha]
  simp [Run.faults, ha.scanned, start, ha.parsed, ha.clean]

/-- Names of local variables do not matter. Take a program that is accepted, a variable `x` that a `var` inside
some scope declares, or that is a parameter, and an identifier `y` that is no word of the program. Renamed are
the declaration, and the references that are bound to it. There is a text for the program that this gives,
which is the same but for `y` in place of `x` at some places; it is accepted, with all references at the same
distances. Run in a new session it prints the same, ends alike, reports the same and leaves the same globals
to be seen. -/
theorem run_renamed (hsetup : setup.Indifferent) {source : String} {resolved : Resolved}
    {renamed : List Stmt} (ha : Accepts setup.limits source resolved) (hy : Identifier y)
    (hfresh : ∀ t ∈ (ofText source).words, t.lexeme ≠ y)
    (h : Stmt.RenamesAmong x y resolved.statements renamed) :
    ∃ source' resolved',
      List.Forall₂ (Piece.Renamed x y) (Piece.cut source.toList) (Piece.cut source'.toList) ∧
      Accepts setup.limits source' resolved' ∧ resolved'.statements = renamed ∧
      List.Forall₂ (Link.Renamed x y) resolved.links resolved'.links ∧
      let before := (start setup).run source
      let after := (start setup).run source'
      after.1.printed = before.1.printed ∧ before.1.ending.Respelled x y after.1.ending ∧
        after.1.report = before.1.report ∧ before.2.machine.LooksLike after.2.machine := by
  obtain ⟨source', resolved', hpieces, ha', rfl, hlinks⟩ := ha.renamed hy hfresh h
  have hss := Stmt.allRespelled_iff.mp (ha.respelled hfresh h)
  have hends := forM_abreast (w := [false]) hsetup (ha.identifier h).ne_this hy.ne_this hss
    List.prefix_rfl (start_respelled setup) (.globals rfl)
  obtain ⟨hprinted, hending, hlooks⟩ := evaluate_respelled hends
  have hrun := run_of_accepts (s := start setup) ha
  have hrun' := run_of_accepts (s := start setup) ha'
  have hendings : ((start setup).run source).1.ending.Respelled x y
      ((start setup).run source').1.ending := by
    rw [hrun, hrun']
    exact hending
  refine ⟨source', resolved', hpieces, ha', rfl, hlinks, ?_, hendings,
    report_eq ha.run_faults ha'.run_faults hendings, ?_⟩
  · rw [hrun, hrun']
    exact hprinted
  · rw [hrun, hrun']
    exact hlooks

/-- The name `b` in place of `a` in the text `{ var a; { print a; } }`. -/
theorem nested_renamed : ∃ source' resolved',
    List.Forall₂ (Piece.Renamed "a" "b") (Piece.cut nested.toList) (Piece.cut source'.toList) ∧
    Accepts smallSetup.limits source' resolved' ∧
    resolved'.statements =
      [.block [.var ⟨.identifier, "b", .nil, 1⟩ none,
        .block [.print (.var ⟨.identifier, "b", .nil, 1⟩ { hops := some 1 })]]] ∧
    ((start smallSetup).run source').1.printed = ["nil"] := by
  obtain ⟨resolved, ha, hs⟩ := nested_accepted
  have hfresh : ∀ t ∈ (ofText nested).words, t.lexeme ≠ "b" := by
    rw [ofText_nested]
    decide
  have hrenames : Stmt.RenamesAmong "a" "b" resolved.statements
      [(Stmt.block (Stmt.renamedAll "a" "b" 0 [nestedVar, .block [.print nestedRead]]))] := by
    rw [hs]
    exact @Stmt.RenamesAmong.mk _ _ [] [] _ _ (.block ⟨_, none, .head _, rfl⟩)
  obtain ⟨source', resolved', hpieces, ha', hs', -, hprinted, -⟩ :=
    @run_renamed smallSetup "a" "b" (fun _ hn ↦ absurd hn List.not_mem_nil) nested resolved _ ha
      (@Piece.Formed.name 'b' [] rfl (by simp)) hfresh hrenames
  refine ⟨source', resolved', hpieces, ha', hs', hprinted.trans ?_⟩
  rw [run_of_accepts (s := start smallSetup) ha, hs]
  rfl

end Runs

end Session

end TreeWalk
