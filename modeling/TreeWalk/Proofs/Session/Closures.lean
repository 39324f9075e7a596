import TreeWalk.Proofs.Machine.Outcome
import TreeWalk.Proofs.Machine.Strand
import TreeWalk.Proofs.Session.Outputs
import TreeWalk.Proofs.Session.Spared

namespace TreeWalk

theorem Stmt.Shows.subject?_eq {c : String} {s : Stmt} (h : s.Shows c) : s.subject? = some c := by
  cases h with
  | mk hname => exact congrArg some hname

theorem Stmt.Makes.subject?_eq {c f : String} {s : Stmt} (h : s.Makes c f) : s.subject? = some c := by
  cases h with
  | mk hname => exact congrArg some hname

namespace Exec

variable {setup : Setup} {m m' m'' m₁ : Machine} {s : Stmt} {c k : String} {d : FunDecl}

/-- In two strands that are apart the calls of the one print what they print without those of the other. -/
theorem strands_run (hne : c ≠ k) {calls : List Stmt} (hcalls : ∀ s ∈ calls, s.Shows c ∨ s.Shows k)
    {W W' : Pairing} (h : Strand c W m m') (h' : Strand k W' m m'') (hapart : W.Apart W')
    (hrun : calls.forM (topLevel setup) m = .ok () m₁) :
    ∃ m₁', (calls.filter (·.subject? = some c)).forM (topLevel setup) m' = .ok () m₁' ∧
      linesAbout setup c (calls.filter (·.subject? = some c)) m' = linesAbout setup c calls m := by
  induction calls generalizing W W' m m' m'' with
  | nil => exact ⟨m', rfl, rfl⟩
  | cons s calls ih =>
    obtain ⟨m₂, hstep, hrest⟩ := forM_cons_ok.mp hrun
    have hcalls' := fun s h ↦ hcalls s (.tail _ h)
    rcases hcalls s (.head _) with hs | hs
    · obtain ⟨W₁, m₂', hstep', hsteps⟩ := shows_step h hs hstep
      obtain ⟨lines, hlines, hlines'⟩ := hsteps.printed
      have hsame : m₂'.printed.toList.drop m'.printed.size =
          m₂.printed.toList.drop m.printed.size := by
        rw [hlines, hlines', ← Array.length_toList, ← Array.length_toList, List.drop_left,
          List.drop_left]
      obtain ⟨m₁', hrun', hprinted⟩ :=
        ih hcalls' (h.mirrored hsteps) (h'.aside h hapart hsteps) (hsteps.apart h'.twin hapart) hrest
      rw [List.filter_cons_of_pos (by simp [hs.subject?_eq])]
      refine ⟨m₁', forM_cons_ok.mpr ⟨m₂', hstep', hrun'⟩, ?_⟩
      rw [linesAbout_cons hstep' hs.subject?_eq, linesAbout_cons hstep hs.subject?_eq, hsame, hprinted]
    · obtain ⟨W₁, m₂'', -, hsteps⟩ := shows_step h' hs hstep
      obtain ⟨m₁', hrun', hprinted⟩ :=
        ih hcalls' (h.aside h' hapart.symm hsteps) (h'.mirrored hsteps)
          (hsteps.apart h.twin hapart.symm).symm hrest
      have hother : s.subject? ≠ some c := by simp [hs.subject?_eq, hne.symm]
      rw [List.filter_cons_of_neg (by simpa using hother), linesAbout_cons_other hstep hother]
      exact ⟨m₁', hrun', hprinted⟩

section Statements

theorem forM_restores (setup : Setup) (ss : List Stmt) : Restores (ss.forM (topLevel setup)) := by
  refine restores_pervades.forM (fun s m ↦ ?_) ss
  rw [final_topLevel]
  exact exec_restores setup setup.limits.nesting s m

def Grows {α : Type} (act : Exec α) : Prop := ∀ m c, m.size c ≤ (final (act m)).size c

theorem grows_of_keeps {α : Type} {act : Exec α}
    (h : ∀ m, Machine.Keeps (fun _ _ ↦ True) m (final (act m))) : Grows act :=
  fun m ↦ (h m).size_le

theorem grows_pervades : Pervades Grows where
  pure _ _ _ := Nat.le_refl _
  throw _ _ _ := Nat.le_refl _
  bind {_ _ act f} h hf m c := by
    have hact := h m c
    change m.size c ≤ (final (EStateM.bind act f m)).size c
    unfold EStateM.bind
    generalize act m = x at hact ⊢
    cases x with
    | ok a m₁ => exact Nat.le_trans hact (hf a m₁ c)
    | error i m₁ => exact hact
  get _ _ := Nat.le_refl _
  print _ _ _ := Nat.le_refl _
  define name v := grows_of_keeps fun m ↦ (m.writes_frame _ name v).keeps trivial
  newFrame b := grows_of_keeps fun m ↦ (m.adds_frame b).keeps _
  identity := grows_of_keeps fun m ↦ m.adds_identity.keeps _
  newObject := grows_of_keeps fun m ↦ m.adds_object.keeps _
  setField o name v := grows_of_keeps fun m ↦ (m.writes_object o name v).keeps trivial
  write name hops v m c := by
    unfold Exec.write
    split
    · next f _ => exact Nat.le_of_eq ((m.writes_frame f name.lexeme v).size_eq c).symm
    · exact Nat.le_refl _
  within {_ act} env h m c := by
    have hact := h { m with env := env } c
    unfold Exec.within
    dsimp only
    generalize act { m with env := env } = x at hact ⊢
    cases x <;> exact hact
  active {_ act} paren h m c := by
    have hact := h { m with depth := m.depth + 1 } c
    unfold Exec.active
    generalize act { m with depth := m.depth + 1 } = x at hact ⊢
    cases x with
    | ok a m₁ => exact hact
    | error i m₁ => cases i <;> exact hact

theorem forM_grows (setup : Setup) (ss : List Stmt) : Grows (ss.forM (topLevel setup)) := by
  refine grows_pervades.forM (fun s m ↦ ?_) ss
  rw [final_topLevel]
  exact grows_pervades.exec setup setup.limits.nesting s m

end Statements

/-- The statements about the first variable print the same without those about the second, be that declared or
not. -/
theorem statements_apart (hd : d.Closed 0) (henv : m.env = .globals) {opening calls : List Stmt}
    {make₁ make₂ : Stmt}
    (hf : ∀ m', opening.forM (topLevel setup) m = .ok () m' →
      ∃ i, m'.globals.get? d.name.lexeme = some (.function i ⟨d, .globals, false⟩))
    (hne : c ≠ k) (hc : c ≠ d.name.lexeme) (hmake₁ : make₁.Makes c d.name.lexeme)
    (hmake₂ : make₂.Makes k d.name.lexeme) (hcalls : ∀ s ∈ calls, s.Shows c ∨ s.Shows k)
    (hrun : (opening ++ make₁ :: make₂ :: calls).forM (topLevel setup) m = .ok () m₁) {kept : List Stmt}
    (hkept : kept ∈ [[], [make₂]]) :
    let cut := opening ++ make₁ :: (kept ++ calls.filter (·.subject? = some c))
    (∃ m₁', cut.forM (topLevel setup) m = .ok () m₁') ∧
      linesAbout setup c cut m = linesAbout setup c (opening ++ make₁ :: make₂ :: calls) m := by
  obtain ⟨m₂, hopening, hrun⟩ := forM_append_ok.mp hrun
  obtain ⟨m₃, hstep₁, hrun⟩ := forM_cons_ok.mp hrun
  obtain ⟨m₄, hstep₂, hrun⟩ := forM_cons_ok.mp hrun
  have henv₂ : m₂.env = .globals := ((forM_restores setup opening).of_ok hopening).1.trans henv
  obtain ⟨i, hi⟩ := hf m₂ hopening
  obtain ⟨W₁, W₂, hapart, hsecond, hone, htwo⟩ :=
    makes_apart hne hc hmake₁ hmake₂ hd hi henv₂ hstep₁ hstep₂
  have hother : make₂.subject? ≠ some c := by simp [hmake₂.subject?_eq, hne.symm]
  obtain ⟨m', hkept, hfirst, hquiet⟩ : ∃ m', kept.forM (topLevel setup) m₃ = .ok () m' ∧
      Strand c W₁ m₄ m' ∧ linesAbout setup c kept m₃ = [] := by
    rcases List.mem_pair.mp hkept with rfl | rfl
    · exact ⟨m₃, rfl, hone, rfl⟩
    · exact ⟨m₄, forM_cons_ok.mpr ⟨m₄, hstep₂, rfl⟩, htwo, linesAbout_cons_other hstep₂ hother⟩
  obtain ⟨m₁', hcalls', hprinted⟩ := strands_run hne hcalls hfirst hsecond hapart hrun
  refine ⟨⟨m₁', forM_append_ok.mpr ⟨m₂, hopening,
    forM_cons_ok.mpr ⟨m₃, hstep₁, forM_append_ok.mpr ⟨m', hkept, hcalls'⟩⟩⟩⟩, ?_⟩
  rw [linesAbout_append hopening, linesAbout_append hopening, linesAbout_cons hstep₁ hmake₁.subject?_eq,
    linesAbout_cons hstep₁ hmake₁.subject?_eq, linesAbout_append hkept, hquiet, List.nil_append, hprinted,
    linesAbout_cons_other hstep₂ hother]

end Exec

namespace Resolving

variable {room : Nat} {r r' : Resolution} {s a : Stmt} {e e' : Expr} {c f : String}

theorem constant_runs (he : e.Constant) (h : Runs (expr room e) r e' r') : e'.Constant := by
  induction he generalizing room r e' r' with
  | literal =>
    obtain ⟨_, rfl, hform⟩ := expr_runs h
    cases hform
    exact .literal
  | group _ ih =>
    obtain ⟨_, rfl, hform⟩ := expr_runs h
    cases hform with
    | group h => exact .group (ih h)
  | unary _ ih =>
    obtain ⟨_, rfl, hform⟩ := expr_runs h
    cases hform with
    | unary h => exact .unary (ih h)
  | binary _ _ ihl ihr =>
    obtain ⟨_, rfl, hform⟩ := expr_runs h
    cases hform with
    | binary hl hr => exact .binary (ihl hl) (ihr hr)
  | logical _ _ ihl ihr =>
    obtain ⟨_, rfl, hform⟩ := expr_runs h
    cases hform with
    | logical hl hr => exact .logical (ihl hl) (ihr hr)

theorem call_runs {name paren : Token} {ref : Ref} {es : List Expr} (hr : r.scopes = [])
    (hes : ∀ e ∈ es, e.Constant) (h : Runs (expr room (.call (.var name ref) paren es)) r e' r') :
    ∃ ref' es', e' = .call (.var name ref') paren es' ∧ ref'.hops = none ∧ ∀ e ∈ es', e.Constant := by
  obtain ⟨_, rfl, hform⟩ := expr_runs h
  cases hform with
  | call hname hes' =>
    obtain ⟨_, rfl, hform⟩ := expr_runs hname
    cases hform with
    | var =>
      refine ⟨_, _, rfl, by rw [hr]; rfl, ?_⟩
      exact (hes'.all (expr_careful _)).forall_mem fun e he {r b r'} h ↦ constant_runs (hes e he) h

namespace Resolves

theorem shows (h : Resolves room s a) (hs : s.Shows c) : a.Shows c := by
  obtain ⟨r, r', hr, hrun, -⟩ := h
  obtain ⟨_, rfl, hform⟩ := stmt_runs (topLevel_runs hrun)
  cases hs with
  | mk hname _ hes =>
    cases hform with
    | print he =>
      obtain ⟨ref, es, rfl, href, hes'⟩ := call_runs hr.scopes_eq hes he
      exact .mk hname href hes'

theorem makes (h : Resolves room s a) (hs : s.Makes c f) : a.Makes c f := by
  obtain ⟨r, r', hr, hrun, -⟩ := h
  obtain ⟨_, rfl, hform⟩ := stmt_runs (topLevel_runs hrun)
  cases hs with
  | mk hname hfunction _ hes =>
    cases hform with
    | initialized hd he =>
      rw [declare_runs hd] at he
      obtain ⟨ref, es, rfl, href, hes'⟩ := call_runs (by rw [Resolution.within_scopes, hr.scopes_eq]; rfl) hes he
      exact .mk hname hfunction href hes'

theorem subject?_eq (h : Resolves room s a) : a.subject? = s.subject? := by
  obtain ⟨r, r', -, hrun, -⟩ := h
  obtain ⟨_, rfl, hform⟩ := stmt_runs (topLevel_runs hrun)
  cases hform with
  | print he =>
    obtain ⟨_, -, hform⟩ := expr_runs he
    cases hform with
    | call hf =>
      obtain ⟨_, -, hform⟩ := expr_runs hf
      cases hform <;> rfl
    | _ => rfl
  | _ => rfl

end Resolves

theorem shows_resolved {k : String} {calls calls' : List Stmt}
    (h : List.Forall₂ (Resolves room) calls calls') (hcalls : ∀ s ∈ calls, s.Shows c ∨ s.Shows k) :
    ∀ s ∈ calls', s.Shows c ∨ s.Shows k := by
  induction h with
  | nil => simp
  | cons hs _ ih =>
    obtain ⟨hhead, htail⟩ := List.forall_mem_cons.mp hcalls
    exact List.forall_mem_cons.mpr ⟨hhead.imp hs.shows hs.shows, ih htail⟩

end Resolving

namespace Session

open Exec Resolving

section Closures

variable {setup : Setup} {source : String} {resolved : Resolved} {d : FunDecl}

/-- A function of the program that leaves no reference to the globals is closed. -/
theorem Accepts.closed {limits : Limits} (ha : Accepts limits source resolved)
    (hd : .function d ∈ resolved.statements) (hlocal : d.Local) : d.Closed 0 := by
  obtain ⟨ss, ss', hs⟩ := List.append_of_mem hd
  obtain ⟨r, -, hwalk, -⟩ := ha.runs
  rw [hs] at hwalk
  obtain ⟨as, a, bs, r₁, r₂, hprogram, has, hrun, -⟩ := hwalk.split
  have hregular : ∀ s ∈ as ++ a :: bs, s.Regular := hprogram ▸ ha.regular
  have hscopes : r₁.scopes = [] :=
    has.topLevel_scopes (fun s h ↦ hregular s (List.mem_append_left _ h)) rfl
  have hclosed := stmt_closed (hregular a (by simp)) (FunDecl.local_iff.mpr hlocal) (topLevel_runs hrun)
  rw [hscopes] at hclosed
  cases hclosed with
  | function hbody => exact hbody

structure Rested (setup : Setup) (s : Session) : Prop where
  setup_eq : s.setup = setup
  env_eq : s.machine.env = .globals
  globals : 0 < s.machine.size .frames

theorem Rested.evaluate {s : Session} (h : Rested setup s) (ss : List Stmt) :
    Rested setup (s.evaluate ss).2.2 := by
  have hgrows := forM_grows s.setup ss s.ready .frames
  cases hrun : ss.forM (topLevel s.setup) s.ready with
  | ok _ m =>
    rw [hrun] at hgrows
    rw [evaluate_ok hrun]
    exact ⟨h.setup_eq, rfl, Nat.lt_of_lt_of_le h.globals hgrows⟩
  | error i m =>
    rw [hrun] at hgrows
    rw [evaluate_error hrun]
    exact ⟨h.setup_eq, rfl, Nat.lt_of_lt_of_le h.globals hgrows⟩

theorem after_rested (setup : Setup) (sources : List String) : Rested setup (after setup sources) := by
  induction sources using List.reverseRecOn with
  | nil => exact ⟨rfl, rfl, Nat.one_pos⟩
  | append_singleton before source ih =>
    have hafter : after setup (before ++ [source]) = ((after setup before).run source).2 := by
      simp [after]
    rw [hafter]
    rcases run_cases (after setup before) source with ⟨resolved, ha⟩ | ⟨hsame, -⟩
    · rw [run_of_accepts ha]
      exact ih.evaluate resolved.statements
    · rwa [hsame]

/-- Right behind its declaration, the name of a function is that function. -/
theorem declared_global {before : List String} {ss : List Stmt} {m : Machine}
    (h : (ss ++ [Stmt.function d]).forM (topLevel setup) (after setup before).ready = .ok () m) :
    ∃ i, m.globals.get? d.name.lexeme = some (.function i ⟨d, .globals, false⟩) := by
  have hrested := after_rested setup before
  obtain ⟨m₁, hss, hlast⟩ := forM_append_ok.mp h
  obtain ⟨m₂, hstep, hnil⟩ := forM_cons_ok.mp hlast
  cases hnil
  have henv : m₁.env = .globals := ((forM_restores setup ss).of_ok hss).1.trans hrested.env_eq
  have hpos : 0 < m₁.frames.next := by
    have hgrows := forM_grows setup ss (after setup before).ready .frames
    rw [hss] at hgrows
    exact Nat.lt_of_lt_of_le hrested.globals hgrows
  obtain ⟨flow, hexec⟩ := topLevel_iff.mp hstep
  obtain ⟨k, hk⟩ := exec_room hexec
  rw [hk] at hexec
  unfold exec at hexec
  cases hexec
  refine ⟨m₁.fresh, ?_⟩
  change ((m₁.frames.define m₁.env.frame d.name.lexeme
    (.function m₁.fresh ⟨d, m₁.env, false⟩)).bindings 0).get? d.name.lexeme = _
  rw [henv, Frames.bindings_define, if_pos ⟨rfl, hpos⟩, Bindings.get?_set, if_pos rfl]

/-- The source is read as these statements, up to the lines of their tokens, and without a complaint. -/
structure ReadAs (limits : Limits) (source : String) (ss : List Stmt) : Prop where
  scanned : (Scan.ofText source).faults = []
  parsed : (programOf limits source).faults = []
  alike : List.Forall₂ (Stmt.Alike Token.Like) ss (programOf limits source).statements

/-- A source that is read as some statements of a program is accepted, and does what these do. -/
theorem ReadAs.run {s : Session} (hblind : s.setup.Blind) (hs : s.ready.Alike Token.Like [] s.ready)
    {ss as : List Stmt} (h : ReadAs s.setup.limits source ss)
    (hresolves : List.Forall₂ (Resolves s.setup.limits.nesting) ss as) {m : Machine}
    (hrun : as.forM (topLevel s.setup) s.ready = .ok () m) :
    ∃ resolved, Accepts s.setup.limits source resolved ∧ (s.run source).1.ending = .completed ∧
      outputs s.setup resolved.statements s.ready = outputs s.setup as s.ready := by
  have hlike : ∀ t t', Token.Like t t' → t.Like t' := fun _ _ h ↦ h
  obtain ⟨as', r, hwalk, has⟩ := resolves_again hlike hresolves h.alike (.refl {})
  have hclean := hwalk.clean ⟨rfl, rfl⟩
  have ha : Accepts s.setup.limits source ⟨as', r.links.toList, []⟩ :=
    ⟨h.scanned, h.parsed, Resolved.ofStatements_of_runs hwalk hclean, rfl⟩
  refine ⟨_, ha, ?_, outputs_alike hblind hlike has hs⟩
  have hlock := forM_lockstep hblind hlike has hs
  rw [hrun] at hlock
  rw [run_of_accepts ha]
  refine completed_iff.mpr ?_
  generalize as'.forM (topLevel s.setup) s.ready = x at hlock ⊢
  cases hlock with
  | ok => exact ⟨_, rfl⟩

/-- Closures of separate activations do not interfere. Take a program that is accepted, and a function that it
declares at top level and in which no reference is left for the globals. Where its name means that function, two
calls of it with constant arguments are the values of two variables; then these are called, with constant arguments,
in any order, and the results are printed. If the program runs to its end, so does the one without the calls of the
second variable, be that declared or not, and each statement about the first prints the same lines in both. -/
theorem activations_apart (hblind : setup.Blind) {before : List String}
    (ha : Accepts setup.limits source resolved) {opening calls : List Stmt} {make₁ make₂ : Stmt}
    (hs : (programOf setup.limits source).statements = opening ++ make₁ :: make₂ :: calls)
    (hd : .function d ∈ resolved.statements) (hlocal : d.Local)
    (hf : ∀ m, (resolved.statements.take opening.length).forM (topLevel setup)
        (after setup before).ready = .ok () m →
      ∃ i, m.globals.get? d.name.lexeme = some (.function i ⟨d, .globals, false⟩))
    {c₁ c₂ : String} (hne : c₁ ≠ c₂) (hc : c₁ ≠ d.name.lexeme)
    (hmake₁ : make₁.Makes c₁ d.name.lexeme) (hmake₂ : make₂.Makes c₂ d.name.lexeme)
    (hcalls : ∀ s ∈ calls, s.Shows c₁ ∨ s.Shows c₂)
    (hdone : ((after setup before).run source).1.ending = .completed) :
    ∀ kept ∈ [[], [make₂]], ∀ cut,
      ReadAs setup.limits cut (opening ++ make₁ :: (kept ++ calls.filter (·.subject? = some c₁))) →
      ∃ resolved', Accepts setup.limits cut resolved' ∧
        ((after setup before).run cut).1.ending = .completed ∧
        linesAbout setup c₁ resolved'.statements (after setup before).ready =
          linesAbout setup c₁ resolved.statements (after setup before).ready := by
  intro kept hkept cut hcut
  have hlike := (after_like hblind before).2
  obtain ⟨hsetup, henv, -⟩ := after_rested setup before
  generalize after setup before = s at *
  subst hsetup
  obtain ⟨r, -, hwalk, -⟩ := ha.runs
  have hresolves := hwalk.resolves (fun _ _ h ↦ h) ha.regular ha.like_self.1 (.refl {})
  rw [hs] at hresolves
  have hopening := List.forall₂_take opening.length hresolves
  have hrest := List.forall₂_drop opening.length hresolves
  rw [List.take_left] at hopening
  rw [List.drop_left] at hrest
  have hstatements := List.take_append_drop opening.length resolved.statements
  generalize resolved.statements.take opening.length = opening' at *
  generalize resolved.statements.drop opening.length = rest at *
  cases hrest with
  | @cons _ make₁' _ _ hresolves₁ hrest =>
  cases hrest with
  | @cons _ make₂' _ calls' hresolves₂ hresolves' =>
  rw [run_of_accepts ha] at hdone
  obtain ⟨m, hrun⟩ := completed_iff.mp hdone
  rw [← hstatements] at hrun ⊢
  obtain ⟨kept', hkept', hkeeps⟩ : ∃ kept' ∈ [[], [make₂']],
      List.Forall₂ (Resolves s.setup.limits.nesting) kept kept' := by
    rcases List.mem_pair.mp hkept with rfl | rfl
    · exact ⟨[], .head _, .nil⟩
    · exact ⟨[make₂'], .tail _ (.head _), .cons hresolves₂ .nil⟩
  obtain ⟨⟨m', hrun'⟩, hlines⟩ := statements_apart (m := s.ready) (ha.closed hd hlocal) henv hf hne hc
    (hresolves₁.makes hmake₁) (hresolves₂.makes hmake₂) (shows_resolved hresolves' hcalls) hrun hkept'
  have hfilter : List.Forall₂ (Resolves s.setup.limits.nesting)
      (calls.filter (·.subject? = some c₁)) (calls'.filter (·.subject? = some c₁)) :=
    List.rel_filter (fun _ _ h ↦ by simp [h.subject?_eq]) hresolves'
  obtain ⟨resolved', ha', hdone', houtputs⟩ := hcut.run hblind hlike
    (List.rel_append hopening (.cons hresolves₁ (List.rel_append hkeeps hfilter))) hrun'
  refine ⟨resolved', ha', hdone', ?_⟩
  rw [← hlines, linesAbout, houtputs, linesAbout]

end Closures

def flipWord (kind : Kind) (lexeme : String) : Token := ⟨kind, lexeme, .nil, 1⟩

def flipNamed (name : String) : Token := flipWord .identifier name

/-- A function whose closures turn a truth value of their own around. -/
def flipText : String := "fun f()\x7bvar b=false;fun g()\x7bb=!b;return b;\x7dreturn g;\x7d"

def flipTokens : List Token :=
  [flipWord .funWord "fun", flipNamed "f", flipWord .leftParen "(", flipWord .rightParen ")",
    flipWord .leftBrace "\x7b", flipWord .varWord "var", flipNamed "b", flipWord .equal "=",
    flipWord .falseWord "false", flipWord .semicolon ";", flipWord .funWord "fun", flipNamed "g",
    flipWord .leftParen "(", flipWord .rightParen ")", flipWord .leftBrace "\x7b", flipNamed "b",
    flipWord .equal "=", flipWord .bang "!", flipNamed "b", flipWord .semicolon ";",
    flipWord .returnWord "return", flipNamed "b", flipWord .semicolon ";", flipWord .rightBrace "\x7d",
    flipWord .returnWord "return", flipNamed "g", flipWord .semicolon ";", flipWord .rightBrace "\x7d"]

def makeTokens (c : String) : List Token :=
  [flipWord .varWord "var", flipNamed c, flipWord .equal "=", flipNamed "f", flipWord .leftParen "(",
    flipWord .rightParen ")", flipWord .semicolon ";"]

def showTokens (c : String) : List Token :=
  [flipWord .printWord "print", flipNamed c, flipWord .leftParen "(", flipWord .rightParen ")",
    flipWord .semicolon ";"]

def flips : String := flipText ++ "var c=f();var d=f();print c();print d();print c();"

def flipsCut : String := flipText ++ "var c=f();print c();print c();"

theorem ofText_flips : Scan.ofText flips =
    ⟨flipTokens ++ makeTokens "c" ++ makeTokens "d" ++ showTokens "c" ++ showTokens "d" ++ showTokens "c",
      Scan.endMarker 1, []⟩ := by
  with_unfolding_all rfl

theorem ofText_flipsCut : Scan.ofText flipsCut =
    ⟨flipTokens ++ makeTokens "c" ++ showTokens "c" ++ showTokens "c", Scan.endMarker 1, []⟩ := by
  with_unfolding_all rfl

def flipInner (outer : Option Nat) : FunDecl :=
  .mk (flipNamed "g") []
    [.expression (.assign (flipNamed "b") (.unary (flipWord .bang "!") (.var (flipNamed "b") ⟨outer, none⟩))
        ⟨outer, none⟩),
      .returns (flipWord .returnWord "return") (some (.var (flipNamed "b") ⟨outer, none⟩))]

def flipFunction (outer inner : Option Nat) : FunDecl :=
  .mk (flipNamed "f") []
    [.var (flipNamed "b") (some (.literal (.bool false))), .function (flipInner outer),
      .returns (flipWord .returnWord "return") (some (.var (flipNamed "g") ⟨inner, none⟩))]

def flipMake (c : String) : Stmt :=
  .var (flipNamed c) (some (.call (.var (flipNamed "f") {}) (flipWord .rightParen ")") []))

def flipShow (c : String) : Stmt :=
  .print (.call (.var (flipNamed c) {}) (flipWord .rightParen ")") [])

def flipsStatements (outer inner : Option Nat) : List Stmt :=
  [.function (flipFunction outer inner), flipMake "c", flipMake "d", flipShow "c", flipShow "d", flipShow "c"]

theorem programOf_flips : programOf smallSetup.limits flips = ⟨flipsStatements none none, []⟩ := by
  rw [programOf, ofText_flips]
  decide +kernel

theorem programOf_flipsCut : programOf smallSetup.limits flipsCut =
    ⟨[.function (flipFunction none none), flipMake "c", flipShow "c", flipShow "c"], []⟩ := by
  rw [programOf, ofText_flipsCut]
  decide +kernel

theorem flips_accepted : ∃ links,
    Accepts smallSetup.limits flips ⟨flipsStatements (some 1) (some 0), links, []⟩ :=
  ⟨_, by rw [ofText_flips], by rw [programOf_flips], by rw [programOf_flips]; rfl, rfl⟩

theorem flipFunction_local : (flipFunction (some 1) (some 0)).Local := by
  unfold FunDecl.Local
  repeat' first
    | exact List.forall_mem_nil _
    | refine List.forall_mem_cons.mpr ⟨?_, ?_⟩
    | refine Node.local_iff.mpr ⟨by simp [Node.ref?], ?_⟩

theorem flipMake_makes (c : String) : (flipMake c).Makes c "f" := .mk rfl rfl rfl (List.forall_mem_nil _)

theorem flipShow_shows (c : String) : (flipShow c).Shows c := .mk rfl rfl (List.forall_mem_nil _)

/-- Without the second variable the first one prints the same lines. -/
theorem flips_apart : ∃ resolved resolved',
    Accepts smallSetup.limits flips resolved ∧ Accepts smallSetup.limits flipsCut resolved' ∧
      linesAbout smallSetup "c" resolved'.statements (start smallSetup).ready =
        linesAbout smallSetup "c" resolved.statements (start smallSetup).ready := by
  obtain ⟨links, ha⟩ := flips_accepted
  have hblind : smallSetup.Blind := fun n hn ↦ absurd hn List.not_mem_nil
  have hs : (programOf smallSetup.limits flips).statements =
      [.function (flipFunction none none)] ++
        flipMake "c" :: flipMake "d" :: [flipShow "c", flipShow "d", flipShow "c"] := by
    rw [programOf_flips]
    rfl
  have hcalls : ∀ s ∈ [flipShow "c", flipShow "d", flipShow "c"], s.Shows "c" ∨ s.Shows "d" := by
    simp [flipShow_shows]
  have hdone : ((after smallSetup []).run flips).1.ending = .completed := by
    obtain ⟨m, hends⟩ : ∃ m, (flipsStatements (some 1) (some 0)).forM
        (topLevel (after smallSetup []).setup) (after smallSetup []).ready = .ok () m :=
      ⟨_, ok_of_outcome (by decide +kernel)⟩
    rw [run_of_accepts (s := after smallSetup []) ha]
    dsimp only
    rw [evaluate_ok hends]
  have hfilter : [flipShow "c", flipShow "d", flipShow "c"].filter (·.subject? = some "c") =
      [flipShow "c", flipShow "c"] := by
    decide +kernel
  have hlike := ha.like_self.1
  rw [programOf_flips] at hlike
  have hlike : ∀ s ∈ flipsStatements none none, s.Alike Token.Like s := List.forall₂_same.mp hlike
  have hcut : ReadAs smallSetup.limits flipsCut ([.function (flipFunction none none)] ++
      flipMake "c" :: ([] ++ [flipShow "c", flipShow "d", flipShow "c"].filter (·.subject? = some "c"))) := by
    refine ⟨by rw [ofText_flipsCut], by rw [programOf_flipsCut], ?_⟩
    rw [hfilter, programOf_flipsCut]
    refine List.forall₂_same.mpr fun s hs ↦ hlike s ?_
    simp only [flipsStatements, List.mem_cons, List.cons_append, List.nil_append] at hs ⊢
    tauto
  obtain ⟨resolved', ha', -, hlines⟩ := activations_apart hblind ha hs (.head _) flipFunction_local
    (fun m hm ↦ @declared_global _ _ [] [] m hm) (by decide) (by decide) (flipMake_makes "c") (flipMake_makes "d")
    hcalls hdone [] (.head _) flipsCut hcut
  exact ⟨_, resolved', ha, ha', hlines⟩

end Session

end TreeWalk
