import TreeWalk.Proofs.Session.Course

namespace TreeWalk

inductive Expr.Reads : Expr → Token → Ref → Prop
  | var {name : Token} {ref : Ref} : Reads (.var name ref) name ref
  | self {keyword : Token} {ref : Ref} : Reads (.self keyword ref) keyword ref

theorem Expr.Reads.eval_eq {setup : Setup} {e : Expr} {name : Token} {ref : Ref} {room : Nat}
    (h : e.Reads name ref) (hroom : 5 ≤ room) :
    Exec.eval setup room e = Exec.read name ref.hops := by
  obtain ⟨room, rfl⟩ := Nat.exists_eq_add_of_le' hroom
  cases h <;> rfl

namespace Session

open Exec Frames Resolving

section Matches

variable (setup : Setup) (sources : List String)

/-- The frames at a moment and the scopes at a visit match. -/
structure Matches (v : Visit) (μ : Moment) : Prop where
  chain : ∃ inner, μ.env.chain = inner ++ Env.globals.chain ∧
    inner.length = v.state.scopes.length ∧ ∀ f ∈ inner, f ≠ Env.globals.frame
  descends : μ.env.chain.Pairwise (· > ·)
  holds : ∀ (i : Nat) (scope : Scope), v.state.scopes[i]? = some scope →
    ∃ f, μ.env.chain[i]? = some f ∧ ∀ name, scope.get? name = some true →
      (μ.machine.frames.bindings f).contains name = true
  /-- The frame of a scope was made when what has that scope was evaluated. -/
  made : Made setup sources v μ.env.chain
  /-- What is read at a distance is in the frame at that distance, which is that of the nearest scope
  that declares the name. -/
  finds : ∀ {room : Nat} {e : Expr} {name : Token} {ref : Ref} {d : Nat},
    μ.event = .expr room e → e.Reads name ref → ref.hops = some d →
    (∃ scope, v.state.scopes[d]? = some scope ∧ scope.get? name.lexeme = some true) ∧
    (∀ scope ∈ v.state.scopes.take d, scope.contains name.lexeme = false) ∧
    ∃ f value, μ.env.chain[d]? = some f ∧
      (μ.machine.frames.bindings f).get? name.lexeme = some value ∧
      (5 ≤ room → eval setup room e μ.machine = .ok value μ.machine)
  /-- What is read without a distance is declared in no scope, and is looked up in the globals. -/
  global : ∀ {room : Nat} {e : Expr} {name : Token} {ref : Ref},
    μ.event = .expr room e → e.Reads name ref → ref.hops = none →
    (∀ scope ∈ v.state.scopes, scope.contains name.lexeme = false) ∧
    (5 ≤ room → eval setup room e μ.machine =
      match μ.machine.globals.get? name.lexeme with
      | some value => .ok value μ.machine
      | none => .error (.error ⟨.undefinedVariable name.lexeme, name⟩) μ.machine)

end Matches

variable {setup : Setup} {sources : List String} {v : Visit} {μ : Moment}

theorem Situated.reads {room : Nat} {e : Expr} {name : Token} {ref : Ref} {env : Env}
    {fs : Frames Value} (h : Situated setup sources v (.expr room e) env fs)
    (hreads : e.Reads name ref) :
    ref.hops = hops? v.state.scopes name.lexeme ∧ ∀ d, ref.hops = some d →
      ∃ scope f, v.state.scopes[d]? = some scope ∧ scope.get? name.lexeme = some true ∧
        env.chain[d]? = some f ∧ (fs.bindings f).contains name.lexeme = true := by
  cases hreads with
  | var => exact h.variable_finds
  | self => exact h.self_finds

theorem read_none (name : Token) (m : Machine) :
    read name none m =
      match m.globals.get? name.lexeme with
      | some value => .ok value m
      | none => .error (.error ⟨.undefinedVariable name.lexeme, name⟩) m := by
  have hglobals : m.frames.get? .globals name.lexeme = m.globals.get? name.lexeme := by
    simp [Frames.get?, Env.globals, Env.chain, Machine.globals]
  have hread : read name none m =
      (match m.frames.get? .globals name.lexeme with
        | some value => return value
        | none => fail (.undefinedVariable name.lexeme) name : Exec Value) m := rfl
  rw [hread, hglobals]
  cases m.globals.get? name.lexeme <;> rfl

theorem Situated.matches (h : Situated setup sources v μ.event μ.env μ.machine.frames) :
    Matches setup sources v μ where
  chain := h.lies.eq_append
  descends := h.lies.pairwise
  holds i scope hi := h.lies.contains hi
  made := h.made
  finds := by
    obtain ⟨event, m⟩ := μ
    rintro room e name ref d rfl hreads hd
    obtain ⟨hhops, hfinds⟩ := h.reads hreads
    obtain ⟨scope, f, hscope, hdefined, hf, hc⟩ := hfinds d hd
    obtain ⟨value, hvalue⟩ := Bindings.contains_iff.mp hc
    refine ⟨⟨scope, hscope, hdefined⟩, fun nearer hnearer ↦ ?_, f, value, hf, hvalue, fun hroom ↦ ?_⟩
    · have hnearest := (List.findIdx?_eq_some_iff_getElem.mp (hhops.symm.trans hd)).2.2
      obtain ⟨i, hi, rfl⟩ := List.mem_take_iff_getElem.mp hnearer
      simpa using hnearest i (Nat.lt_of_lt_of_le hi (Nat.min_le_left _ _))
    · have hget : m.frames.getAt m.env d name.lexeme = .ok value := getAt_eq hf hvalue
      have hread : read name (some d) m = ofFit (m.frames.getAt m.env d name.lexeme) m := rfl
      rw [hreads.eval_eq hroom, hd, hread, hget]
      rfl
  global := by
    obtain ⟨event, m⟩ := μ
    rintro room e name ref rfl hreads hnone
    obtain ⟨hhops, -⟩ := h.reads hreads
    refine ⟨fun scope hscope ↦ ?_, fun hroom ↦ ?_⟩
    · simpa using List.findIdx?_eq_none_iff.mp (hhops.symm.trans hnone) scope hscope
    · rw [hreads.eval_eq hroom, hnone]
      exact read_none name m

/-- Static distances match the frames at every moment of every session. -/
theorem Happens.matches_visit (hlawful : setup.Lawful) (h : Happens setup sources μ) :
    ∃ v, Visited setup sources v ∧ v.Gives μ.event ∧ Matches setup sources v μ := by
  obtain ⟨-, ⟨v, hv⟩, -⟩ := h.fits hlawful
  exact ⟨v, hv.visited, hv.gives, hv.matches⟩

theorem nested_happens : ∃ m, Happens smallSetup [nested] ⟨.expr 22 nestedRead, m⟩ := by
  obtain ⟨resolved, ha, hs⟩ := nested_accepted
  let outer : Stmt := .block [nestedVar, .block [.print nestedRead]]
  have hstart : Happens smallSetup [nested] ⟨.stmt 30 outer, (start smallSetup).ready⟩ :=
    ⟨[], nested, [], resolved, [], outer, [], _, rfl, ha, hs, rfl, .refl⟩
  have hinner := hstart.tail
    (@Moment.Leads.item _ 27 (.block [.print nestedRead]) [nestedVar] [] _ _ rfl)
  have hprint := hinner.tail (@Moment.Leads.item _ 24 (.print nestedRead) [] [] _ _ rfl)
  exact ⟨_, hprint.tail .printed⟩

theorem nested_read_matches : ∃ m v, Happens smallSetup [nested] ⟨.expr 22 nestedRead, m⟩ ∧
    Visited smallSetup [nested] v ∧ v.Gives (.expr 22 nestedRead) ∧
    Matches smallSetup [nested] v ⟨.expr 22 nestedRead, m⟩ := by
  obtain ⟨m, hm⟩ := nested_happens
  obtain ⟨v, hv⟩ := hm.matches_visit fun n hn ↦ absurd hn List.not_mem_nil
  exact ⟨m, v, hm, hv⟩

end Session

end TreeWalk
