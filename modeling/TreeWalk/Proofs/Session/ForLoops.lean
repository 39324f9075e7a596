import TreeWalk.Proofs.Machine.ForLoop
import TreeWalk.Proofs.Machine.Outcome
import TreeWalk.Proofs.Session.Course

namespace TreeWalk

open Exec Frames Resolving

theorem Frames.Lies.aligned {α : Type} {fs : Frames α} {chain : List FrameId} {scopes : List Scope}
    (h : Lies fs chain scopes) :
    Aligned (List.range fs.next) chain chain (List.replicate scopes.length false) := by
  induction h with
  | globals h => exact .globals (List.getElem?_range h)
  | inside hf _ _ _ ih => exact .frame (List.getElem?_range hf) ih

namespace Session

variable {setup : Setup} {sources : List String}

section Alone

variable {fs : Frames Value} {c : Closure}

theorem Callable.thinned (h : Callable setup sources fs c) :
    c.Thinned (List.range fs.next) [] c := by
  obtain ⟨⟨v, hv⟩, -⟩ := h
  obtain ⟨-, hgives, hregular, -, hlies, -⟩ := hv 0 []
  refine ⟨⟨_, hlies.aligned, ?_, fun _ ↦ declares_replicate _⟩, rfl⟩
  cases hgives with
  | @function room _ role d _ _ _ _ hwalk =>
    have hclean := hwalk.clean (unclean_kept.function role d (Careful.mapM (stmt_careful room) d.body))
    exact (function_thins role room d hregular).refl hwalk hclean

theorem Bindable.thinned (h : Bindable setup sources fs c) :
    c.Thinned (List.range fs.next) [false] c := by
  obtain ⟨v, hv⟩ := h
  obtain ⟨-, hgives, hregular, -, hlies, -⟩ := hv .nil
  refine ⟨⟨_, hlies.aligned, ?_, fun _ ↦ declares_scope⟩, rfl⟩
  cases hgives with
  | @methods room ds _ _ _ _ _ hwalk hmem =>
    have hclean := hwalk.clean (Careful.mapM (method_careful room) ds)
    have hds := (Thins.mapM ds (method_careful room) fun d hd ↦
      function_thins (methodRole d) room d (hregular d hd)).refl hwalk hclean
    exact List.forall₂_same.mp hds c.decl hmem

theorem Proper.thinned {v : Value} (h : Proper setup sources fs v) :
    v.Thinned (List.range fs.next) v := by
  cases v with
  | scalar => exact .scalar
  | native => exact .native
  | function => exact .function (Callable.thinned h)
  | cls _ info => exact .cls ⟨rfl, .self fun name c hc ↦ (h name c hc).thinned⟩
  | object _ info => exact .object ⟨rfl, .self fun name c hc ↦ (h name c hc).thinned⟩
  | completion => exact h.elim

/-- A sound machine is its own counterpart, with no frame that is spare. -/
theorem Sound.thinned {m : Machine} (h : Sound setup sources m) :
    m.Thinned (List.range m.frames.next) m where
  frames := {
    length_eq := List.length_range
    lt := fun f hf ↦ List.mem_range.mp hf
    nodup := List.nodup_range
    globals := List.getElem?_range h.globals
    bindings := fun f f' hf ↦ by
      obtain ⟨hlt, hget⟩ := List.getElem?_eq_some_iff.mp hf
      rw [List.getElem_range] at hget
      rw [hget]
      exact .self fun name v hv ↦ (h.bound f name v hv).thinned }
  objects_eq := rfl
  fields object := .self fun name v hv ↦ (h.fields object name v hv).thinned
  fresh_eq := rfl
  depth_eq := rfl
  printed_eq := rfl

end Alone

open Grammar

/-- Every statement that is executed was visited, and where it is a `for` statement, its parts are those of a loop.
Resolved in the one scope of the loop, and run in one frame, they print the same, end in the same way, and leave
the same in all frames and objects that were there before. -/
theorem Happens.runs_for (hlawful : setup.Lawful) (hhost : setup.Unaware) {n : Nat} {s' : Stmt}
    {m : Machine} (hμ : Happens setup sources ⟨.stmt n s', m⟩) :
    (∃ v, Situated setup sources v (.stmt n s') m.env m.frames) ∧
    ∀ room s r, Situated setup sources ⟨.stmt room s, r⟩ (.stmt n s') m.env m.frames →
    ∀ depth dangling keyword words, Statement depth dangling (keyword :: words) s →
      keyword.kind = .forWord →
    ∃ (d k : Nat) (l l' : ForLoop), depth = d + 3 ∧ l.Derives d dangling words ∧ s = l.tree ∧
      room = k + 9 ∧ l.Resolves k r l' ∧
      EndsTandem (List.range m.frames.next) Flow.Thinned m m (exec setup n s' m) (l'.run setup n m) := by
  obtain ⟨hsound, hsituated, -⟩ := hμ.fits hlawful
  refine ⟨hsituated, fun room s r hs depth dangling keyword words hfor hkind ↦ ?_⟩
  obtain ⟨d, l, hdepth, hderives, rfl⟩ := statement_forLoop hfor hkind
  obtain ⟨-, hgives, hregular, hsettled, hlies, -⟩ := hs
  cases hgives with
  | stmt hwalk =>
  obtain ⟨k, t, hroom, rfl, htree⟩ := ForLoop.tree_runs hwalk
  have hproper := hderives.proper
  obtain ⟨l', hresolves, hthinned⟩ := htree.thinned (ForLoop.regular_of_tree hregular) hproper
    (hwalk.clean (stmt_careful _ _)) hsettled
  obtain ⟨hinitial, hincrement⟩ := htree.inHeader hproper
  exact ⟨d, k, l, l', hdepth, hderives, rfl, hroom, hresolves,
    forLoop_tandem hhost hthinned hinitial hincrement n List.prefix_rfl hsound.thinned hlies.aligned⟩

/-- The text `for (var a = true; a; a = false) { var a; print a; }` and its words. -/
def shadowing : String := "for (var a = true; a; a = false) \x7b var a; print a; \x7d"

def shadowingWords : List Token :=
  [⟨.forWord, "for", .nil, 1⟩, ⟨.leftParen, "(", .nil, 1⟩, ⟨.varWord, "var", .nil, 1⟩,
    ⟨.identifier, "a", .nil, 1⟩, ⟨.equal, "=", .nil, 1⟩, ⟨.trueWord, "true", .nil, 1⟩,
    ⟨.semicolon, ";", .nil, 1⟩, ⟨.identifier, "a", .nil, 1⟩, ⟨.semicolon, ";", .nil, 1⟩,
    ⟨.identifier, "a", .nil, 1⟩, ⟨.equal, "=", .nil, 1⟩, ⟨.falseWord, "false", .nil, 1⟩,
    ⟨.rightParen, ")", .nil, 1⟩, ⟨.leftBrace, "\x7b", .nil, 1⟩, ⟨.varWord, "var", .nil, 1⟩,
    ⟨.identifier, "a", .nil, 1⟩, ⟨.semicolon, ";", .nil, 1⟩, ⟨.printWord, "print", .nil, 1⟩,
    ⟨.identifier, "a", .nil, 1⟩, ⟨.semicolon, ";", .nil, 1⟩, ⟨.rightBrace, "\x7d", .nil, 1⟩]

theorem ofText_shadowing : Scan.ofText shadowing = ⟨shadowingWords, Scan.endMarker 1, []⟩ := by
  with_unfolding_all rfl

def shadowingLoop (condition increment body : Option Nat) : ForLoop where
  initial := .var ⟨.identifier, "a", .nil, 1⟩ (some (.literal (.bool true)))
  condition := .var ⟨.identifier, "a", .nil, 1⟩ { hops := condition }
  increment := .expression (.assign ⟨.identifier, "a", .nil, 1⟩ (.literal (.bool false)) { hops := increment })
  body := .block [.var ⟨.identifier, "a", .nil, 1⟩ none,
    .print (.var ⟨.identifier, "a", .nil, 1⟩ { hops := body })]

theorem ofWords_shadowing : Program.ofWords 30 shadowingWords (Scan.endMarker 1) =
    ⟨[(shadowingLoop none none none).tree], []⟩ := by
  decide +kernel

theorem programOf_shadowing :
    programOf smallSetup.limits shadowing = ⟨[(shadowingLoop none none none).tree], []⟩ := by
  rw [programOf, ofText_shadowing]
  exact ofWords_shadowing

theorem shadowing_walk : ∃ r, Runs (stmt 30 (shadowingLoop none none none).tree) {}
    (shadowingLoop (some 0) (some 1) (some 0)).tree r :=
  ⟨_, rfl, rfl, rfl⟩

theorem shadowing_accepted : ∃ links, Accepts smallSetup.limits shadowing
    ⟨[(shadowingLoop (some 0) (some 1) (some 0)).tree], links, []⟩ := by
  have hp := programOf_shadowing
  exact ⟨_, by rw [ofText_shadowing], by rw [hp], by rw [hp]; rfl, rfl⟩

theorem shadowing_statement : ∃ depth dangling,
    Statement depth dangling shadowingWords (shadowingLoop none none none).tree := by
  have hsequence : Sequence (Declaration 30) shadowingWords [(shadowingLoop none none none).tree] := by
    have h := @Program.ofWords_sound 30 shadowingWords (Scan.endMarker 1)
    rw [ofWords_shadowing] at h
    exact h rfl
  generalize hw : shadowingWords = w at hsequence
  cases hsequence with
  | cons hitem hrest =>
    cases hrest
    rw [List.append_nil] at hw
    subst hw
    rw [Declaration] at hitem
    cases hitem with
    | statement h => exact ⟨_, _, h⟩
    | declares hkind _ => cases hkind

theorem shadowing_situated : Situated smallSetup [shadowing]
    ⟨.stmt 30 (shadowingLoop none none none).tree, {}⟩
    (.stmt 30 (shadowingLoop (some 0) (some 1) (some 0)).tree) .globals (start smallSetup).ready.frames := by
  obtain ⟨links, ha⟩ := shadowing_accepted
  obtain ⟨r, hwalk⟩ := shadowing_walk
  have hprogram := programOf_shadowing
  refine ⟨⟨shadowing, .head _, _, ha, [], _, [], congrArg Program.statements hprogram, .refl⟩,
    .stmt hwalk, ?_, ?_, .globals Nat.one_pos, ?_⟩
  · have hregular := Program.ofWords_regular (Scan.ofText_lexical shadowing) ha.parsed
    rw [← programOf, hprogram] at hregular
    exact hregular _ (.head _)
  · exact fun _ h ↦ absurd h List.not_mem_nil
  · exact fun i hi ↦ absurd hi (Nat.not_lt_zero i)

def shadowingMachine : Machine :=
  final (exec smallSetup 30 (shadowingLoop (some 0) (some 1) (some 0)).tree (start smallSetup).ready)

theorem exec_shadowing :
    exec smallSetup 30 (shadowingLoop (some 0) (some 1) (some 0)).tree (start smallSetup).ready =
      .ok .next shadowingMachine ∧ shadowingMachine.printed = #["nil"] := by
  exact ⟨ok_of_outcome (by decide +kernel), by decide +kernel⟩

/-- One round prints the variable of the body, and the increment writes that of the loop. -/
theorem shadowing_runs : ∃ (l l' : ForLoop) (m : Machine),
    l.tree = (shadowingLoop none none none).tree ∧ l.Resolves 21 {} l' ∧
    l'.run smallSetup 30 (start smallSetup).ready = .ok .next m ∧ m.printed = #["nil"] ∧
    ∃ w, [0] <+: w ∧ shadowingMachine.Thinned w m := by
  obtain ⟨links, ha⟩ := shadowing_accepted
  have hhappens : Happens smallSetup [shadowing]
      ⟨.stmt 30 (shadowingLoop (some 0) (some 1) (some 0)).tree, (start smallSetup).ready⟩ :=
    ⟨[], shadowing, [], _, [], _, [], _, rfl, ha, rfl, rfl, .refl⟩
  obtain ⟨depth, dangling, hstatement⟩ := shadowing_statement
  obtain ⟨-, hruns⟩ := hhappens.runs_for (fun n hn ↦ absurd hn List.not_mem_nil)
    fun n hn ↦ absurd hn List.not_mem_nil
  obtain ⟨d, k, l, l', -, -, htree, hroom, hresolves, hends⟩ :=
    hruns 30 _ {} shadowing_situated depth dangling _ _ hstatement rfl
  obtain rfl : k = 21 := by omega
  obtain ⟨hexec, hprinted⟩ := exec_shadowing
  refine ⟨l, l', ?_⟩
  rw [hexec] at hends
  generalize l'.run smallSetup 30 (start smallSetup).ready = r at hends
  cases hends with
  | @ok w₁ _ flow' _ m' h hflow =>
    cases hflow
    exact ⟨m', htree.symm, hresolves, rfl, h.thinned.printed_eq.trans hprinted, w₁, h.grows,
      h.thinned⟩

end Session

end TreeWalk
