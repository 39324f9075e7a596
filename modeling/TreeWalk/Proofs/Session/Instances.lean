import TreeWalk.Proofs.Machine.Calls
import TreeWalk.Proofs.Machine.Genuine
import TreeWalk.Proofs.Session.Receiver

namespace TreeWalk

open Exec Frames

section Hosts

/-- The functions of the host make no objects: what object they give they were given. -/
def Setup.Barren (setup : Setup) : Prop :=
  ∀ n ∈ setup.added, ∀ (arguments : List Value) o info, n.apply arguments = .object o info →
    .object o info ∈ arguments

variable {made : Nat} {arguments : List Value} {v : Value}

def Value.class? : Value → Option ClassInfo
  | .cls _ info | .object _ info => some info
  | _ => none

theorem Value.Genuine.class_genuine (h : v.Genuine made) : ∀ info ∈ v.class?, info.Genuine := by
  intro info hinfo
  cases v with
  | cls =>
    cases hinfo
    exact h
  | object =>
    cases hinfo
    exact h.2
  | scalar | native | function | completion => cases hinfo

theorem Value.From.class_genuine (h : ∀ v ∈ arguments, v.Genuine made) (hv : v.From arguments) :
    ∀ info ∈ v.class?, info.Genuine := by
  induction hv with
  | argument hv => exact (h _ hv).class_genuine
  | scalar | native => exact fun _ hinfo ↦ by cases hinfo
  | classOf _ ih | objectOf _ ih => exact ih

theorem Setup.Lawful.genuine {setup : Setup} (hlawful : setup.Lawful) (hbarren : setup.Barren) :
    setup.Genuine := by
  intro n hn made arguments harity harguments
  obtain rfl | hn := List.mem_cons.mp hn
  · exact trivial
  · have hfrom := hlawful n hn arguments harity
    cases hv : n.apply arguments with
    | scalar | native | function => trivial
    | cls i info => exact hfrom.class_genuine harguments info (hv ▸ rfl)
    | object o info => exact harguments _ (hbarren n hn arguments o info hv)
    | completion v =>
      rw [hv] at hfrom
      cases hfrom with | argument hmem => exact harguments _ hmem

end Hosts

namespace Session

variable {setup : Setup} {sources : List String} {μ : Moment}

section Course

variable {n : Nat}

theorem topLevel_makes (hsetup : setup.Genuine) (s : Stmt) :
    Makes n (fun _ _ ↦ True) (topLevel setup s) := by
  intro m hm hn
  rw [final_topLevel]
  obtain ⟨hfinal, hsize, -⟩ := exec_makes hsetup setup.limits.nesting n s m hm hn
  exact ⟨hfinal, hsize, fun _ _ _ ↦ trivial⟩

theorem forM_makes (hsetup : setup.Genuine) (ss : List Stmt) :
    Makes n (fun _ _ ↦ True) (ss.forM (topLevel setup)) := by
  induction ss generalizing n with
  | nil => exact .pure fun _ _ ↦ trivial
  | cons s ss ih => exact (topLevel_makes hsetup s).bind fun _ _ _ _ ↦ ih

theorem start_genuine (setup : Setup) : (start setup).machine.Genuine := by
  refine ⟨fun f name v hv ↦ ?_, fun object name v hv ↦ ?_⟩
  · obtain ⟨i, rfl⟩ := start_native hv
    trivial
  · change Bindings.empty.get? name = some v at hv
    cases hv

theorem evaluate_setup (s : Session) (ss : List Stmt) : (s.evaluate ss).2.2.setup = s.setup := by
  cases hss : ss.forM (topLevel s.setup) s.ready with
  | ok u m => rw [evaluate_ok hss]
  | error i m => rw [evaluate_error hss]

theorem evaluate_genuine {s : Session} (hsetup : s.setup.Genuine) (hs : s.machine.Genuine)
    (ss : List Stmt) : (s.evaluate ss).2.2.machine.Genuine := by
  have hrun := (forM_makes (n := 0) hsetup ss s.ready (hs.congr rfl rfl) (Nat.zero_le _)).1
  cases hss : ss.forM (topLevel s.setup) s.ready with
  | ok u m =>
    rw [hss] at hrun
    rw [evaluate_ok hss]
    exact hrun.congr rfl rfl
  | error i m =>
    rw [hss] at hrun
    rw [evaluate_error hss]
    exact hrun.congr rfl rfl

/-- Between two runs the values are genuine. -/
theorem after_genuine (hsetup : setup.Genuine) (sources : List String) :
    (after setup sources).setup = setup ∧ (after setup sources).machine.Genuine := by
  induction sources using List.reverseRecOn with
  | nil => exact ⟨rfl, start_genuine setup⟩
  | append_singleton before source ih =>
    have hafter : after setup (before ++ [source]) = ((after setup before).run source).2 := by
      simp [after]
    rw [hafter]
    obtain ⟨heq, hm⟩ := ih
    obtain ⟨resolved, ha⟩ | ⟨hsame, -⟩ := run_cases (after setup before) source
    · rw [run_of_accepts ha]
      exact ⟨(evaluate_setup _ _).trans heq, evaluate_genuine (heq.symm ▸ hsetup) hm _⟩
    · rw [hsame]
      exact ⟨heq, hm⟩

/-- At every moment of a session the values are genuine. -/
theorem Happens.genuine (hlawful : setup.Lawful) (hbarren : setup.Barren)
    (h : Happens setup sources μ) : μ.Genuine := by
  obtain ⟨before, source, rest, resolved, ss, s, ss', m, hs, ha, hstatements, hm, hμ⟩ := h
  have hsetup := hlawful.genuine hbarren
  have hready : (after setup before).ready.Genuine := (after_genuine hsetup before).2.congr rfl rfl
  have hstart := ((forM_makes hsetup ss).of_ok hready (Nat.zero_le _) hm).1
  induction hμ with
  | refl => exact hstart
  | tail _ hleads ih => exact hleads.genuine hsetup ih

end Course

section Known

variable (setup : Setup) (sources : List String)

/-- There is such an object in a machine: a frame binds it, a field holds it, or an expression had it as its
value when no more objects had been made. -/
inductive Known (m : Machine) (object : Nat) : Prop
  | bound {f : FrameId} {name : String} {info : ClassInfo} :
      (m.frames.bindings f).get? name = some (.object object info) → Known m object
  | field {owner : Nat} {name : String} {info : ClassInfo} :
      (m.fields owner).get? name = some (.object object info) → Known m object
  | value {room : Nat} {e : Expr} {m₀ m₁ : Machine} {info : ClassInfo} :
      Happens setup sources ⟨.expr room e, m₀⟩ → eval setup room e m₀ = .ok (.object object info) m₁ →
      m₁.objects.size ≤ m.objects.size → Known m object

variable {setup sources} {m : Machine} {object : Nat}

theorem Known.lt (hlawful : setup.Lawful) (hbarren : setup.Barren) (hm : m.Genuine)
    (h : Known setup sources m object) : object < m.objects.size := by
  cases h with
  | bound h => exact (hm.bound _ _ _ h).1
  | field h => exact (hm.fields _ _ _ h).1
  | @value room e m₀ m₁ info hhappens he hsize =>
    have hm₀ := (hhappens.genuine hlawful hbarren).machine
    obtain ⟨-, -, hv⟩ :=
      (eval_makes (hlawful.genuine hbarren) room 0 e).of_ok hm₀ (Nat.zero_le _) he
    exact Nat.lt_of_lt_of_le hv.1 hsize

end Known

section Instances

variable {room : Nat} {e : Expr} {m m₁ : Machine} {v : Value}

/-- An initializer that was bound to an object yields the object, whenever it runs. -/
theorem Happens.bound_yields (hlawful : setup.Lawful) {c : Closure} {this : Value}
    (hbind : Happens setup sources ⟨.bind c this, m⟩) (hinit : c.isInitializer = true) {n : Nat}
    {arguments : List Value} {m₂ : Machine}
    (henter : Happens setup sources ⟨.enter n { c with env := c.env.inside m.frames.next } arguments, m₁⟩)
    (h : enter (exec setup n) { c with env := c.env.inside m.frames.next } arguments m₁ = .ok v m₂) :
    v = this := by
  obtain ⟨-, ⟨visit, hvisit⟩, -⟩ := henter.fits hlawful
  have hlt : m.frames.next < m₁.frames.next := hvisit.lies.lt _ (.head _)
  have hend : Moment.after setup ⟨.enter n { c with env := c.env.inside m.frames.next } arguments, m₁⟩ =
      m₂ := congrArg final h
  have hle : m₁.frames.next ≤ m₂.frames.next := hend ▸ (henter.spares hlawful).steady.next_le
  have hthis := hbind.this_after hlawful henter (hend ▸ Nat.lt_of_lt_of_le hlt hle)
  obtain ⟨_, _, -, -, hyields⟩ := enter_ok h
  rw [if_pos hinit, getAt_eq rfl (hend ▸ hthis)] at hyields
  cases hyields
  rfl

/-- The object that a call of a class yields is the next one to be made. -/
theorem Happens.instantiates (hlawful : setup.Lawful) (hbarren : setup.Barren) {paren : Token}
    {es : List Expr} {m₂ m' : Machine} {identity : Nat} {info : ClassInfo} {vs : List Value}
    (hcall : Happens setup sources ⟨.expr (room + 5) (.call e paren es), m⟩)
    (hv : eval setup (room + 3) e m = .ok (.cls identity info) m₁)
    (hvs : es.mapM (eval setup (room + 2)) m₁ = .ok vs m₂)
    (h : eval setup (room + 5) (.call e paren es) m = .ok v m') :
    v = .object m₂.objects.size info ∧ m₂.objects.size < m'.objects.size ∧
      ∀ i, Known setup sources m₂ i → i ≠ m₂.objects.size := by
  have hsetup := hlawful.genuine hbarren
  have hm := (hcall.genuine hlawful hbarren).machine
  have hcallee : callee? setup (.cls identity info) = some (.cls info) := rfl
  obtain ⟨vs', m₂', m₃, hvs', -, -, happly, rfl⟩ := call_ok hv hcallee h
  cases hvs.symm.trans hvs'
  have hobject : v = .object m₂.objects.size info := instantiate_ok (m := m₂.called) happly
  obtain ⟨-, -, hgenuine⟩ := (eval_makes hsetup _ 0 _).of_ok hm (Nat.zero_le _) h
  rw [hobject] at hgenuine
  obtain ⟨hm₂, -, -⟩ := Moment.arguments_genuine hsetup hm hv hvs
  exact ⟨hobject, hgenuine.1, fun i hi ↦ Nat.ne_of_lt (hi.lt hlawful hbarren hm₂)⟩

/-- What is read from an object under `init`, where no field has the name, is the initializer of its class,
and each call of it yields the object. -/
theorem Happens.initializer_yields (hlawful : setup.Lawful) (hbarren : setup.Barren) {name : Token}
    {m₂ : Machine} {object : Nat} {info : ClassInfo}
    (hread : Happens setup sources ⟨.expr (room + 5) (.get e name), m⟩) (hname : name.lexeme = "init")
    (hobject : eval setup (room + 3) e m = .ok (.object object info) m₁)
    (hnone : (m₁.fields object).get? "init" = none)
    (h : eval setup (room + 5) (.get e name) m = .ok v m₂) :
    ∃ identity bound, v = .function identity bound ∧
      ∀ {n e' paren es m₃ m₄ m' j w},
        Happens setup sources ⟨.expr (n + 5) (.call e' paren es), m₃⟩ →
        eval setup (n + 3) e' m₃ = .ok (.function j bound) m₄ →
        eval setup (n + 5) (.call e' paren es) m₃ = .ok w m' → w = .object object info := by
  rw [← hname] at hnone
  unfold eval at h
  have hget := (bind_of_ok hobject).symm.trans h
  have hinit : info.initializer? = info.methods.get? name.lexeme := by
    rw [hname]
    rfl
  cases hmethod : info.methods.get? name.lexeme with
  | none =>
    rw [getProperty_undefined hnone hmethod] at hget
    cases hget
  | some c =>
    rw [getProperty_method hnone hmethod] at hget
    cases hget
    refine ⟨_, _, rfl, fun {n e' paren es m₃ m₄ m' j w} hcall hcallee hw ↦ ?_⟩
    have hm := (hread.genuine hlawful hbarren).machine
    obtain ⟨-, -, hinfo⟩ := (eval_makes (hlawful.genuine hbarren) _ 0 _).of_ok hm (Nat.zero_le _) hobject
    obtain ⟨vs, m₅, m₆, hvs, harity, hdepth, happly, -⟩ := call_ok hcallee rfl hw
    have henter := hcall.tail (.enter hcallee hvs (Int.ofNat.inj harity) hdepth)
    exact (hread.tail (.bindMethod hobject hnone hmethod)).bound_yields hlawful
      (hinfo.2 c (hinit.trans hmethod)) henter happly

/-- Whatever the classes and their initializers are. A call of a class with as many arguments as its initializer
has parameters, or with none if it has no initializer, makes an object and runs the initializer, within the limit
on calls; with another number of arguments it is an error. If it comes to a value, that is an object of the class
which is none of those that were there before the call. And if an initializer is read from an object, each call of
what was read that comes to a value, in the same run or a later one, yields the object. -/
theorem instances_fresh (hlawful : setup.Lawful) (hbarren : setup.Barren) :
    (∀ {room e paren es m m₁ m₂ identity info vs},
      Happens setup sources ⟨.expr (room + 5) (.call e paren es), m⟩ →
      eval setup (room + 3) e m = .ok (.cls identity info) m₁ →
      es.mapM (eval setup (room + 2)) m₁ = .ok vs m₂ →
      let expected := (info.initializer?.map (·.decl.params.length)).getD 0
      let call := eval setup (room + 5) (.call e paren es) m
      (vs.length ≠ expected → call = .error (.error ⟨.argumentCount expected vs.length, paren⟩) m₂) ∧
      (vs.length = expected → call =
        if setup.maxDepth ≤ m₂.depth then .error (.error ⟨.stackOverflow, paren⟩) m₂
        else active paren (instantiate (exec setup room) info vs) m₂) ∧
      ∀ v m', call = .ok v m' → ∃ object, v = .object object info ∧ object < m'.objects.size ∧
        ∀ i, Known setup sources m₂ i → i ≠ object) ∧
    (∀ {room e name m m₁ m₂ object info v},
      Happens setup sources ⟨.expr (room + 5) (.get e name), m⟩ → name.lexeme = "init" →
      eval setup (room + 3) e m = .ok (.object object info) m₁ →
      (m₁.fields object).get? "init" = none →
      eval setup (room + 5) (.get e name) m = .ok v m₂ →
      ∃ identity bound, v = .function identity bound ∧
        ∀ {n e' paren es m₃ m₄ m' j w},
          Happens setup sources ⟨.expr (n + 5) (.call e' paren es), m₃⟩ →
          eval setup (n + 3) e' m₃ = .ok (.function j bound) m₄ →
          eval setup (n + 5) (.call e' paren es) m₃ = .ok w m' → w = .object object info) := by
  refine ⟨?_, fun hread hname hobject hnone h ↦
    hread.initializer_yields hlawful hbarren hname hobject hnone h⟩
  intro room e paren es m m₁ m₂ identity info vs hcall hv hvs expected call
  have hcallee : callee? setup (.cls identity info) = some (.cls info) := rfl
  have hexpected : (Callee.cls info).arity = expected := rfl
  refine ⟨fun hlen ↦ ?_, fun hlen ↦ ?_, fun v m' h ↦ ?_⟩
  · exact call_miscounted hv hvs hcallee (hexpected ▸ fun h ↦ hlen (Int.ofNat.inj h))
  · exact call_counted hv hvs hcallee (congrArg _ hlen)
  · exact ⟨_, hcall.instantiates hlawful hbarren hv hvs h⟩

/-- The text `class A { init(x) { return; } } A(nil).init(nil);` and its words. -/
def renewing : String := "class A \x7b init(x) \x7b return; \x7d \x7d A(nil).init(nil);"

def renewingWords : List Token :=
  [⟨.classWord, "class", .nil, 1⟩, ⟨.identifier, "A", .nil, 1⟩, ⟨.leftBrace, "\x7b", .nil, 1⟩,
    ⟨.identifier, "init", .nil, 1⟩, ⟨.leftParen, "(", .nil, 1⟩, ⟨.identifier, "x", .nil, 1⟩,
    ⟨.rightParen, ")", .nil, 1⟩, ⟨.leftBrace, "\x7b", .nil, 1⟩, ⟨.returnWord, "return", .nil, 1⟩,
    ⟨.semicolon, ";", .nil, 1⟩, ⟨.rightBrace, "\x7d", .nil, 1⟩, ⟨.rightBrace, "\x7d", .nil, 1⟩,
    ⟨.identifier, "A", .nil, 1⟩, ⟨.leftParen, "(", .nil, 1⟩, ⟨.nilWord, "nil", .nil, 1⟩,
    ⟨.rightParen, ")", .nil, 1⟩, ⟨.dot, ".", .nil, 1⟩, ⟨.identifier, "init", .nil, 1⟩,
    ⟨.leftParen, "(", .nil, 1⟩, ⟨.nilWord, "nil", .nil, 1⟩, ⟨.rightParen, ")", .nil, 1⟩,
    ⟨.semicolon, ";", .nil, 1⟩]

theorem ofText_renewing : Scan.ofText renewing = ⟨renewingWords, Scan.endMarker 1, []⟩ := by
  with_unfolding_all rfl

def renewingInit : FunDecl :=
  .mk ⟨.identifier, "init", .nil, 1⟩ [⟨.identifier, "x", .nil, 1⟩]
    [.returns ⟨.returnWord, "return", .nil, 1⟩ none]

def renewingClass : Stmt := .cls ⟨.identifier, "A", .nil, 1⟩ [renewingInit]

def renewingObject : Expr := .call (.var ⟨.identifier, "A", .nil, 1⟩ {}) closing [.literal .nil]

def renewingRead : Expr := .get renewingObject ⟨.identifier, "init", .nil, 1⟩

def renewingCall : Expr := .call renewingRead closing [.literal .nil]

theorem renewing_accepted : ∃ links,
    Accepts smallSetup.limits renewing ⟨[renewingClass, .expression renewingCall], links, []⟩ := by
  have hp : programOf smallSetup.limits renewing = ⟨[renewingClass, .expression renewingCall], []⟩ := by
    rw [programOf, ofText_renewing]
    show Program.ofWords 30 renewingWords (Scan.endMarker 1) = _
    decide +kernel
  exact ⟨_, by rw [ofText_renewing], by rw [hp], by rw [hp]; rfl, rfl⟩

def renewingMachine : Machine := final (topLevel smallSetup renewingClass (start smallSetup).ready)

def renewingInfo : ClassInfo := classOf .globals ⟨.identifier, "A", .nil, 1⟩ [renewingInit]

def renewingMade : Machine := final (eval smallSetup 24 renewingObject renewingMachine)

def renewingGiven : Machine := final (eval smallSetup 26 renewingRead renewingMachine)

def renewingAgain : Machine := final (eval smallSetup 28 renewingCall renewingMachine)

theorem eval_renewingObject :
    eval smallSetup 24 renewingObject renewingMachine = .ok (.object 0 renewingInfo) renewingMade :=
  ok_of_outcome (by decide +kernel)

theorem eval_renewingRead : ∃ v, eval smallSetup 26 renewingRead renewingMachine = .ok v renewingGiven :=
  ⟨_, rfl⟩

theorem eval_renewingCall :
    eval smallSetup 28 renewingCall renewingMachine = .ok (.object 0 renewingInfo) renewingAgain :=
  ok_of_outcome (by decide +kernel)

/-- The class makes an object that was not there, and its initializer yields it when it is called again. -/
theorem renewing_instances :
    eval smallSetup 24 renewingObject renewingMachine = .ok (.object 0 renewingInfo) renewingMade ∧
      ¬ Known smallSetup [renewing] renewingMachine 0 ∧
      ∃ w, eval smallSetup 28 renewingCall renewingMachine = .ok w renewingAgain ∧
        w = .object 0 renewingInfo := by
  obtain ⟨links, ha⟩ := renewing_accepted
  have hlawful : smallSetup.Lawful := fun n hn ↦ absurd hn List.not_mem_nil
  have hbarren : smallSetup.Barren := fun n hn ↦ absurd hn List.not_mem_nil
  obtain ⟨hmakes, hyields⟩ := @instances_fresh smallSetup [renewing] hlawful hbarren
  have hclass : topLevel smallSetup renewingClass (start smallSetup).ready = .ok () renewingMachine := rfl
  have hcall : Happens smallSetup [renewing] ⟨.expr 28 renewingCall, renewingMachine⟩ :=
    Happens.tail ⟨[], renewing, [], _, [_], _, [], renewingMachine, rfl, ha, rfl,
      (bind_of_ok hclass).trans rfl, .refl⟩ .expression
  have hread := hcall.tail .callee
  have hcallee : eval smallSetup 22 (.var ⟨.identifier, "A", .nil, 1⟩ {}) renewingMachine =
      .ok (.cls 0 renewingInfo) renewingMachine := rfl
  have harguments : [Expr.literal .nil].mapM (eval smallSetup 21) renewingMachine =
      .ok [.nil] renewingMachine := rfl
  obtain ⟨-, -, hfresh⟩ := hmakes (hread.tail .object) hcallee harguments
  obtain ⟨object, heq, -, hnew⟩ := hfresh _ _ eval_renewingObject
  obtain ⟨v, hv⟩ := eval_renewingRead
  obtain ⟨identity, bound, rfl, hcalls⟩ := hyields hread rfl eval_renewingObject rfl hv
  refine ⟨eval_renewingObject, fun hknown ↦ ?_, _, eval_renewingCall, hcalls hcall hv eval_renewingCall⟩
  cases heq
  exact hnew 0 hknown rfl

end Instances

end Session

end TreeWalk
