import TreeWalk.Proofs.Machine.Restoration
import TreeWalk.Proofs.Session.Distances

namespace TreeWalk

/-- The innermost scope declares a name whose definition is pending: what is visited is in the initializer
of a variable of that name. -/
def Visit.Pending (name : String) (v : Visit) : Prop :=
  ∃ scope ∈ v.state.scopes.head?, scope.get? name = some false

namespace Machine

def written (m : Machine) (f : FrameId) (name : Token) (value : Value) : Machine :=
  { m with frames := m.frames.define f name.lexeme value }

variable {m : Machine} {f : FrameId} {name : Token} {value : Value}

theorem contains_written (h : (m.frames.bindings f).contains name.lexeme = true) (g : FrameId)
    (k : String) :
    ((m.written f name value).frames.bindings g).contains k = (m.frames.bindings g).contains k := by
  rw [written, Frames.bindings_define]
  split
  · next hg =>
    rw [Bool.eq_iff_iff, Bindings.contains_set, hg.1]
    exact ⟨fun hk ↦ hk.elim (fun hk ↦ hk ▸ h) id, .inr⟩
  · rfl

end Machine

namespace Exec

variable {setup : Setup} {room : Nat} {name : Token} {e : Expr} {ref : Ref} {m m₁ : Machine} {value : Value}

theorem eval_assign (he : eval setup (room + 3) e m = .ok value m₁) :
    eval setup (room + 5) (.assign name e ref) m =
      match m₁.target name ref.hops with
      | .ok f => .ok value (m₁.written f name value)
      | .error i => .error i m₁ := by
  have hassign : eval setup (room + 5) (.assign name e ref) m =
      EStateM.bind (write name ref.hops value) (fun _ ↦ pure value) m₁ :=
    bind_of_ok he
  rw [hassign, EStateM.bind, write]
  cases m₁.target name ref.hops <;> rfl

theorem eval_assign_some {d : Nat} {f : FrameId} (he : eval setup (room + 3) e m = .ok value m₁)
    (hd : ref.hops = some d) (hf : m₁.env.chain[d]? = some f) :
    eval setup (room + 5) (.assign name e ref) m = .ok value (m₁.written f name value) := by
  rw [eval_assign he, hd, Machine.target, Env.frameAt, hf]
  rfl

theorem eval_assign_none (he : eval setup (room + 3) e m = .ok value m₁) (hnone : ref.hops = none) :
    eval setup (room + 5) (.assign name e ref) m =
      if m₁.globals.contains name.lexeme then .ok value (m₁.written Env.globals.frame name value)
      else .error (.error ⟨.undefinedVariable name.lexeme, name⟩) m₁ := by
  rw [eval_assign he, hnone, Machine.target, Frames.binder?, Env.globals, Env.chain, List.find?_cons]
  unfold Machine.globals
  cases (m₁.frames.bindings 0).contains name.lexeme <;> rfl

end Exec

namespace Session

open Exec Frames Resolving

variable {setup : Setup} {sources : List String} {v : Visit} {room : Nat} {name : Token} {e : Expr}
  {ref : Ref} {m m₁ : Machine} {value : Value}

/-- The distance of an assignment is that of the nearest scope that declares the name. -/
theorem Situated.assigned_hops {env : Env} {fs : Frames Value}
    (h : Situated setup sources v (.expr room (.assign name e ref)) env fs) :
    ref.hops = hops? v.state.scopes name.lexeme ∧ TreeWalk.Settled v.state.scopes.tail := by
  have hregular := h.regular
  have hsettled := h.settled
  obtain ⟨hwalk⟩ := h.gives
  obtain ⟨_, rfl, hform⟩ := expr_runs hwalk
  cases hform with
  | assign hvalue =>
    cases hregular with
    | assign he => exact ⟨by rw [expr_scopes he hvalue], hsettled.1⟩

/-- An assignment with a distance has a frame to write to. That binds the name, unless its definition is
pending. -/
theorem Situated.assignment {env : Env} {fs : Frames Value} {d : Nat}
    (h : Situated setup sources v (.expr room (.assign name e ref)) env fs) (hd : ref.hops = some d) :
    ∃ f, env.chain[d]? = some f ∧
      ((fs.bindings f).contains name.lexeme = true ∨ d = 0 ∧ v.Pending name.lexeme) := by
  obtain ⟨hhops, hsettled⟩ := h.assigned_hops
  rw [hhops] at hd
  by_cases hpending : v.Pending name.lexeme
  · obtain ⟨scope, hhead, hfalse⟩ := hpending
    have hnearest : hops? v.state.scopes name.lexeme = some 0 := by
      obtain ⟨rest, hscopes⟩ := List.head?_eq_some_iff.mp hhead
      rw [hops?, hscopes, List.findIdx?_cons, Bindings.contains, hfalse]
      rfl
    obtain rfl : d = 0 := Option.some.inj (hd.symm.trans hnearest)
    obtain ⟨scope', hscope', -⟩ := hops?_eq_some hd
    obtain ⟨f, hf, -⟩ := h.lies.contains hscope'
    exact ⟨f, hf, .inr ⟨rfl, scope, hhead, hfalse⟩⟩
  · obtain ⟨-, f, -, -, hf, hc⟩ :=
      h.finds (fun scope hhead hfalse ↦ hpending ⟨scope, hhead, hfalse⟩) hsettled hd
    exact ⟨f, hf, .inl hc⟩

/-- An assignment whose value is known goes to the frame at its distance. Without a distance it goes to the
globals, or fails where they do not have the name. The name is bound before in the frame that is written, and
no frame gets a name, unless the assignment stands in the initializer of a local variable of that name. -/
theorem Happens.assigns (hlawful : setup.Lawful)
    (h : Happens setup sources ⟨.expr (room + 5) (.assign name e ref), m⟩)
    (he : eval setup (room + 3) e m = .ok value m₁) :
    ∃ v, Visited setup sources v ∧ v.Gives (.expr (room + 5) (.assign name e ref)) ∧
      (∀ d, ref.hops = some d → ∃ f, m.env.chain[d]? = some f ∧
        eval setup (room + 5) (.assign name e ref) m = .ok value (m₁.written f name value) ∧
        ((m.frames.bindings f).contains name.lexeme = true ∨ d = 0 ∧ v.Pending name.lexeme)) ∧
      (ref.hops = none →
        eval setup (room + 5) (.assign name e ref) m =
          if m₁.globals.contains name.lexeme then .ok value (m₁.written Env.globals.frame name value)
          else .error (.error ⟨.undefinedVariable name.lexeme, name⟩) m₁) ∧
      (¬ v.Pending name.lexeme → ∀ f k,
        ((final (eval setup (room + 5) (.assign name e ref) m)).frames.bindings f).contains k =
          (m₁.frames.bindings f).contains k) := by
  obtain ⟨hm, ⟨v, hv⟩, -⟩ := h.fits hlawful
  obtain ⟨v', hv'⟩ := hv.assigned (room + 3)
  obtain ⟨-, henv, hgrow, -⟩ := (exprs_go hlawful (room + 3) hm hv' (h.tail .assigned)).ok he
  refine ⟨v, hv.visited, hv.gives, fun d hd ↦ ?_, eval_assign_none he, fun hsettled g k ↦ ?_⟩
  · obtain ⟨f, hf, hc⟩ := hv.assignment hd
    exact ⟨f, hf, eval_assign_some he hd (by rwa [henv]), hc⟩
  · cases hhops : ref.hops with
    | some d =>
      obtain ⟨f, hf, hc⟩ := hv.assignment hhops
      rw [eval_assign_some he hhops (by rwa [henv])]
      have hbound := hc.resolve_right fun hpending ↦ hsettled hpending.2
      exact Machine.contains_written (hgrow.contains f _ hbound) g k
    | none =>
      rw [eval_assign_none he hhops]
      split
      · next hbound => exact Machine.contains_written hbound g k
      · rfl

/-- The text `{ var a = a = nil; a = nil; }` and its words. Both assignments are to the variable of the block,
the first of them in its initializer. -/
def selfish : String := "\x7b var a = a = nil; a = nil; \x7d"

def selfishName : Token := ⟨.identifier, "a", .nil, 1⟩

def selfishWords : List Token :=
  [⟨.leftBrace, "\x7b", .nil, 1⟩, ⟨.varWord, "var", .nil, 1⟩, selfishName, ⟨.equal, "=", .nil, 1⟩,
    selfishName, ⟨.equal, "=", .nil, 1⟩, ⟨.nilWord, "nil", .nil, 1⟩, ⟨.semicolon, ";", .nil, 1⟩, selfishName,
    ⟨.equal, "=", .nil, 1⟩, ⟨.nilWord, "nil", .nil, 1⟩, ⟨.semicolon, ";", .nil, 1⟩,
    ⟨.rightBrace, "\x7d", .nil, 1⟩]

theorem ofText_selfish : Scan.ofText selfish = ⟨selfishWords, Scan.endMarker 1, []⟩ := by
  with_unfolding_all rfl

def selfishAssign : Expr := .assign selfishName (.literal .nil) { hops := some 0 }

def selfishVar : Stmt := .var selfishName (some selfishAssign)

theorem selfish_accepted : ∃ resolved, Accepts smallSetup.limits selfish resolved ∧
    resolved.statements = [.block [selfishVar, .expression selfishAssign]] := by
  have hp : programOf smallSetup.limits selfish = .ofWords 30 selfishWords (Scan.endMarker 1) := by
    rw [programOf, ofText_selfish]
    rfl
  exact ⟨_, ⟨by rw [ofText_selfish], by rw [hp]; rfl, by rw [hp]; rfl, rfl⟩, rfl⟩

theorem selfish_happens : Happens smallSetup [selfish]
    ⟨.stmt 30 (.block [selfishVar, .expression selfishAssign]), (start smallSetup).ready⟩ := by
  obtain ⟨resolved, ha, hs⟩ := selfish_accepted
  exact ⟨[], selfish, [], resolved, [], _, [], _, rfl, ha, hs, rfl, .refl⟩

/-- The assignment in the initializer binds a name that the frame at its distance does not have. -/
theorem selfish_binds : ∃ m, Happens smallSetup [selfish] ⟨.expr 25 selfishAssign, m⟩ ∧
    m.env.chain[0]? = some 1 ∧ (m.frames.bindings 1).contains "a" = false ∧
    ((final (eval smallSetup 25 selfishAssign m)).frames.bindings 1).contains "a" = true := by
  have hfirst := selfish_happens.tail
    (@Moment.Leads.item _ 27 selfishVar [] [.expression selfishAssign] _ _ rfl)
  exact ⟨_, hfirst.tail .initializer, rfl, rfl, rfl⟩

/-- Behind the declaration the frame has the name, and the assignment writes over its value. -/
theorem selfish_assigns : ∃ m v, Happens smallSetup [selfish] ⟨.expr 25 selfishAssign, m⟩ ∧
    Visited smallSetup [selfish] v ∧ (m.frames.bindings 1).contains "a" = true ∧
    eval smallSetup 25 selfishAssign m = .ok .nil (m.written 1 selfishName .nil) := by
  have hlast := selfish_happens.tail
    (@Moment.Leads.item _ 27 (.expression selfishAssign) [selfishVar] [] _ _ rfl)
  have hm := hlast.tail .expression
  obtain ⟨v, hv, -, hsome, -⟩ := hm.assigns (fun n hn ↦ absurd hn List.not_mem_nil) rfl
  obtain ⟨f, hf, heval, -⟩ := hsome 0 rfl
  obtain rfl : 1 = f := Option.some.inj hf
  exact ⟨_, v, hm, hv, rfl, heval⟩

end Session

end TreeWalk
