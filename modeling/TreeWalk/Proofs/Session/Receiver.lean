import TreeWalk.Proofs.Machine.Outcome
import TreeWalk.Proofs.Scope.Receiver
import TreeWalk.Proofs.Session.Spared

namespace TreeWalk

open Exec Frames Resolving

namespace Moment

variable {setup : Setup} {μ μ' : Moment} {f : FrameId}

/-- Evaluated in the activation of what led to it, not in one of its own. -/
def Inline : Moment → Prop
  | ⟨.expr _ _, _⟩ | ⟨.stmt _ _, _⟩ => True
  | _ => False

/-- What is evaluated has its own `this` in a frame. -/
def SelfIn (f : FrameId) : Moment → Prop
  | ⟨.expr _ e, m⟩ => ∃ d, e.SelfAt (some d) ∧ m.env.chain[d]? = some f
  | ⟨.stmt _ s, m⟩ => ∃ d, s.SelfAt (some d) ∧ m.env.chain[d]? = some f
  | ⟨.enter _ c _, _⟩ => ∃ d, c.decl.SelfAt (some d) ∧ c.env.chain[d]? = some f
  | ⟨.bind _ _, _⟩ => False

theorem Leads.selfIn (hleads : Leads setup μ μ') (hμ' : μ'.Inline) (h : μ.SelfIn f) :
    μ'.SelfIn f := by
  have heval {room : Nat} {e : Expr} {m m' : Machine} {v : Value}
      (he : eval setup room e m = .ok v m') : m'.env = m.env :=
    ((eval_restores setup room e).of_ok he).1
  have hsequence {room : Nat} {ss : List Stmt} {m m' : Machine} {flow : Flow}
      (hss : sequence (exec setup room) ss m = .ok flow m') : m'.env = m.env :=
    (Restores.of_ok (restores_pervades.sequence (exec_restores setup room) ss) hss).1
  have hrounds {room n : Nat} {e : Expr} {body : Stmt} {m m' : Machine}
      (hr : Rounds (eval setup room e) (exec setup room body) n m m') : m'.env = m.env :=
    (hr.restored (eval_restores setup room e) (exec_restores setup room body)).1
  cases hleads with
  | enter | bindInitializer | enterInitializer | bindMethod => exact hμ'.elim
  | group =>
    obtain ⟨d, hd, hf⟩ := h
    cases hd with | group hd => exact ⟨d, hd, hf⟩
  | unary =>
    obtain ⟨d, hd, hf⟩ := h
    cases hd with | unary hd => exact ⟨d, hd, hf⟩
  | binaryLeft =>
    obtain ⟨d, hd, hf⟩ := h
    cases hd with | binary hd _ => exact ⟨d, hd, hf⟩
  | binaryRight hl =>
    obtain ⟨d, hd, hf⟩ := h
    cases hd with | binary _ hd => exact ⟨d, hd, (heval hl).symm ▸ hf⟩
  | logicalLeft =>
    obtain ⟨d, hd, hf⟩ := h
    cases hd with | logical hd _ => exact ⟨d, hd, hf⟩
  | logicalRight hl =>
    obtain ⟨d, hd, hf⟩ := h
    cases hd with | logical _ hd => exact ⟨d, hd, (heval hl).symm ▸ hf⟩
  | assigned =>
    obtain ⟨d, hd, hf⟩ := h
    cases hd with | assign hd => exact ⟨d, hd, hf⟩
  | callee =>
    obtain ⟨d, hd, hf⟩ := h
    cases hd with | call hd _ => exact ⟨d, hd, hf⟩
  | argument he hes =>
    obtain ⟨d, hd, hf⟩ := h
    cases hd with
    | call _ hd => exact ⟨d, hd _ (by simp), (arguments_restored he hes).1.symm ▸ hf⟩
  | object =>
    obtain ⟨d, hd, hf⟩ := h
    cases hd with | get hd => exact ⟨d, hd, hf⟩
  | owner =>
    obtain ⟨d, hd, hf⟩ := h
    cases hd with | set hd _ => exact ⟨d, hd, hf⟩
  | field ho =>
    obtain ⟨d, hd, hf⟩ := h
    cases hd with | set _ hd => exact ⟨d, hd, (heval ho).symm ▸ hf⟩
  | expression =>
    obtain ⟨d, hd, hf⟩ := h
    cases hd with | expression hd => exact ⟨d, hd, hf⟩
  | printed =>
    obtain ⟨d, hd, hf⟩ := h
    cases hd with | print hd => exact ⟨d, hd, hf⟩
  | initializer =>
    obtain ⟨d, hd, hf⟩ := h
    cases hd with | var hd => exact ⟨d, hd _ rfl, hf⟩
  | item hss =>
    obtain ⟨d, hd, hf⟩ := h
    cases hd with
    | block hd => exact ⟨d + 1, hd _ (by simp), (hsequence hss).symm ▸ hf⟩
  | condition =>
    obtain ⟨d, hd, hf⟩ := h
    cases hd with | branch hd _ _ => exact ⟨d, hd, hf⟩
  | yes hc =>
    obtain ⟨d, hd, hf⟩ := h
    cases hd with | branch _ hd _ => exact ⟨d, hd, (heval hc).symm ▸ hf⟩
  | no hc =>
    obtain ⟨d, hd, hf⟩ := h
    cases hd with | branch _ _ hd => exact ⟨d, hd _ rfl, (heval hc).symm ▸ hf⟩
  | test hr =>
    obtain ⟨d, hd, hf⟩ := h
    cases hd with | loop hd _ => exact ⟨d, hd, (hrounds hr).symm ▸ hf⟩
  | round hr _ hv =>
    obtain ⟨d, hd, hf⟩ := h
    cases hd with | loop _ hd => exact ⟨d, hd, ((heval hv).trans (hrounds hr)).symm ▸ hf⟩
  | returned =>
    obtain ⟨d, hd, hf⟩ := h
    cases hd with | returns hd => exact ⟨d, hd _ rfl, hf⟩
  | statement hbody hss =>
    obtain ⟨d, hd, hf⟩ := h
    exact ⟨d + 1, hd _ (by simp [hbody]), (hsequence hss).symm ▸ hf⟩

end Moment

namespace Session

variable {setup : Setup} {sources : List String} {μ μ' : Moment}

/-- The moments of a session that belong to the activations of a closure, or to those of functions that are
declared there. -/
inductive Belongs (setup : Setup) (sources : List String) (bound : Closure) : Moment → Prop
  | body {room : Nat} {arguments : List Value} {m : Machine} :
      Happens setup sources ⟨.enter room bound arguments, m⟩ →
      Belongs setup sources bound ⟨.enter room bound arguments, m⟩
  | part {μ μ' : Moment} :
      Belongs setup sources bound μ → μ.Leads setup μ' → μ'.Inline →
      Belongs setup sources bound μ'
  | nested {room room' : Nat} {d : FunDecl} {arguments : List Value} {m m' : Machine} :
      Belongs setup sources bound ⟨.stmt room (.function d), m⟩ →
      Happens setup sources ⟨.enter room' ⟨d, m.env, false⟩ arguments, m'⟩ →
      Belongs setup sources bound ⟨.enter room' ⟨d, m.env, false⟩ arguments, m'⟩

variable {bound : Closure}

theorem Belongs.happens (h : Belongs setup sources bound μ) : Happens setup sources μ := by
  induction h with
  | body h | nested _ h => exact h
  | part _ hleads _ ih => exact ih.tail hleads

theorem Belongs.selfIn {f : FrameId} (h : Belongs setup sources bound μ)
    (hdecl : bound.decl.SelfAt (some 0)) (hf : bound.env.frame = f) : μ.SelfIn f := by
  induction h with
  | body => exact ⟨0, hdecl, congrArg some hf⟩
  | part _ hleads hinline ih => exact hleads.selfIn hinline ih
  | nested _ _ ih =>
    obtain ⟨d, hd, hframe⟩ := ih
    cases hd with
    | function hd => exact ⟨d, hd, hframe⟩

/-- The frame that is made when a method is bound is where the method has its `this`. -/
theorem Happens.selfAt (hlawful : setup.Lawful) {c : Closure} {this : Value} {m : Machine}
    (h : Happens setup sources ⟨.bind c this, m⟩) : c.decl.SelfAt (some 0) := by
  obtain ⟨-, ⟨v, hv⟩, -⟩ := h.fits hlawful
  have hformed := hv.visited.formed
  have hregular := hv.regular
  obtain _ | _ | _ | ⟨hwalk, hmem⟩ := hv.gives
  exact methods_selfAt hregular hformed rfl (hwalk.all (method_careful _)) c.decl hmem

/-- What `this` names in the frame of a bound method it names there at the end of the session. -/
theorem Happens.this_last (hlawful : setup.Lawful) {c : Closure} {this : Value} {m : Machine}
    (h : Happens setup sources ⟨.bind c this, m⟩) :
    ((after setup sources).machine.frames.bindings m.frames.next).get? "this" = some this := by
  have hmade : ((m.inside c.env (Bindings.empty.set "this" this)).frames.bindings
      m.frames.next).get? "this" = some this := by
    rw [Machine.inside, bindings_push, if_pos rfl, Bindings.get?_set, if_pos rfl]
  rw [← hmade]
  refine (h.steady hlawful).2.get?_eq m.frames.next ?_
  show m.frames.next < (m.frames.push _).next
  simp

theorem Happens.this_eq (hlawful : setup.Lawful) {c : Closure} {this : Value} {m : Machine}
    (h : Happens setup sources ⟨.bind c this, m⟩) (hμ : Happens setup sources μ)
    (hlt : m.frames.next < μ.machine.frames.next) :
    (μ.machine.frames.bindings m.frames.next).get? "this" = some this :=
  ((hμ.steady hlawful).1.get?_eq _ hlt).symm.trans (h.this_last hlawful)

theorem Happens.this_after (hlawful : setup.Lawful) {c : Closure} {this : Value} {m : Machine}
    (h : Happens setup sources ⟨.bind c this, m⟩) (hμ : Happens setup sources μ)
    (hlt : m.frames.next < (μ.after setup).frames.next) :
    ((μ.after setup).frames.bindings m.frames.next).get? "this" = some this :=
  ((hμ.steady hlawful).2.get?_eq _ hlt).symm.trans (h.this_last hlawful)

/-- A method that is read from an object, under a name that no field has, is made into a function in a new
frame. Nothing else changes: no object, and no frame that was there. Whenever that function runs, in the same
run or a later one, each `this` that belongs to it is the object, in its body and in the functions that are
declared inside. -/
theorem Happens.this_is (hlawful : setup.Lawful) {room : Nat} {e : Expr} {name : Token}
    {m m₁ : Machine} {object : Nat} {info : ClassInfo} {c : Closure}
    (hread : Happens setup sources ⟨.expr (room + 5) (.get e name), m⟩)
    (hobject : eval setup (room + 3) e m = .ok (.object object info) m₁)
    (hnone : (m₁.fields object).get? name.lexeme = none)
    (hmethod : info.methods.get? name.lexeme = some c) :
    let bound : Closure := { c with env := c.env.inside m₁.frames.next }
    ∃ identity m₂,
      eval setup (room + 5) (.get e name) m = .ok (.function identity bound) m₂ ∧
      m₂.objects = m₁.objects ∧
      (∀ f < m₁.frames.next, m₂.frames.bindings f = m₁.frames.bindings f) ∧
      ∀ n keyword ref m', Belongs setup sources bound ⟨.expr (n + 5) (.self keyword ref), m'⟩ →
        eval setup (n + 5) (.self keyword ref) m' = .ok (.object object info) m' := by
  intro bound
  let m₂ : Machine :=
    { m₁ with
      frames := m₁.frames.push (Bindings.empty.set "this" (.object object info))
      fresh := m₁.fresh + 1 }
  have hbind := hread.tail (.bindMethod hobject hnone hmethod)
  refine ⟨m₁.fresh, m₂, ?_, rfl, fun f hf ↦ ?_, fun n keyword ref m' hself ↦ ?_⟩
  · unfold eval
    refine (bind_of_ok hobject).trans ?_
    rw [getProperty_method hnone hmethod]
    rfl
  · exact (bindings_push _ _ _).trans (if_neg (Nat.ne_of_lt hf))
  · obtain ⟨d, hd, hframe⟩ := hself.selfIn (hbind.selfAt hlawful) rfl
    obtain ⟨-, ⟨v, hv⟩, -⟩ := hself.happens.fits hlawful
    have hlt := hv.lies.lt _ (List.mem_of_getElem? hframe)
    have hthis := hbind.this_eq hlawful hself.happens hlt
    cases hd with
    | self hlexeme hhops =>
      show Exec.read keyword ref.hops m' = _
      rw [hhops, Exec.read, hlexeme]
      show ofFit (m'.frames.getAt m'.env d "this") m' = _
      rw [getAt_eq hframe hthis]
      rfl

/-- The text `class A { m() { fun g() { return this; } return g; } } A().m()();` and its words. -/
def handing : String :=
  "class A \x7b m() \x7b fun g() \x7b return this; \x7d return g; \x7d \x7d A().m()();"

def handingWords : List Token :=
  [⟨.classWord, "class", .nil, 1⟩, ⟨.identifier, "A", .nil, 1⟩, ⟨.leftBrace, "\x7b", .nil, 1⟩,
    ⟨.identifier, "m", .nil, 1⟩, ⟨.leftParen, "(", .nil, 1⟩, ⟨.rightParen, ")", .nil, 1⟩,
    ⟨.leftBrace, "\x7b", .nil, 1⟩, ⟨.funWord, "fun", .nil, 1⟩, ⟨.identifier, "g", .nil, 1⟩,
    ⟨.leftParen, "(", .nil, 1⟩, ⟨.rightParen, ")", .nil, 1⟩, ⟨.leftBrace, "\x7b", .nil, 1⟩,
    ⟨.returnWord, "return", .nil, 1⟩, ⟨.thisWord, "this", .nil, 1⟩, ⟨.semicolon, ";", .nil, 1⟩,
    ⟨.rightBrace, "\x7d", .nil, 1⟩, ⟨.returnWord, "return", .nil, 1⟩, ⟨.identifier, "g", .nil, 1⟩,
    ⟨.semicolon, ";", .nil, 1⟩, ⟨.rightBrace, "\x7d", .nil, 1⟩, ⟨.rightBrace, "\x7d", .nil, 1⟩,
    ⟨.identifier, "A", .nil, 1⟩, ⟨.leftParen, "(", .nil, 1⟩, ⟨.rightParen, ")", .nil, 1⟩,
    ⟨.dot, ".", .nil, 1⟩, ⟨.identifier, "m", .nil, 1⟩, ⟨.leftParen, "(", .nil, 1⟩,
    ⟨.rightParen, ")", .nil, 1⟩, ⟨.leftParen, "(", .nil, 1⟩, ⟨.rightParen, ")", .nil, 1⟩,
    ⟨.semicolon, ";", .nil, 1⟩]

theorem ofText_handing : Scan.ofText handing = ⟨handingWords, Scan.endMarker 1, []⟩ := by
  with_unfolding_all rfl

def handingInner (self : Option Nat) : FunDecl :=
  .mk ⟨.identifier, "g", .nil, 1⟩ []
    [.returns ⟨.returnWord, "return", .nil, 1⟩ (some (.self ⟨.thisWord, "this", .nil, 1⟩ ⟨self, none⟩))]

def handingMethod (self inner : Option Nat) : FunDecl :=
  .mk ⟨.identifier, "m", .nil, 1⟩ []
    [.function (handingInner self),
      .returns ⟨.returnWord, "return", .nil, 1⟩ (some (.var ⟨.identifier, "g", .nil, 1⟩ ⟨inner, none⟩))]

def closing : Token := ⟨.rightParen, ")", .nil, 1⟩

def handingObject : Expr := .call (.var ⟨.identifier, "A", .nil, 1⟩ {}) closing []

def handingRead : Expr := .get handingObject ⟨.identifier, "m", .nil, 1⟩

def handingStatements (self inner : Option Nat) : List Stmt :=
  [.cls ⟨.identifier, "A", .nil, 1⟩ [handingMethod self inner],
    .expression (.call (.call handingRead closing []) closing [])]

theorem ofWords_handing :
    Program.ofWords 30 handingWords (Scan.endMarker 1) = ⟨handingStatements none none, []⟩ := by
  decide +kernel

theorem handing_accepted : ∃ links,
    Accepts smallSetup.limits handing ⟨handingStatements (some 2) (some 0), links, []⟩ := by
  have hp : programOf smallSetup.limits handing = ⟨handingStatements none none, []⟩ := by
    rw [programOf, ofText_handing]
    exact ofWords_handing
  exact ⟨_, by rw [ofText_handing], by rw [hp], by rw [hp]; rfl, rfl⟩

def handingClass : Stmt :=
  .cls ⟨.identifier, "A", .nil, 1⟩ [handingMethod (some 2) (some 0)]

def handingMachine : Machine := final (topLevel smallSetup handingClass (start smallSetup).ready)

def handingMade : Machine := final (eval smallSetup 22 handingObject handingMachine)

def handingGiven : Machine := final (eval smallSetup 24 handingRead handingMachine)

def handingReturned : Machine :=
  final (eval smallSetup 26 (.call handingRead closing []) handingMachine)

def handingInfo : ClassInfo :=
  classOf .globals ⟨.identifier, "A", .nil, 1⟩ [handingMethod (some 2) (some 0)]

def handingBound : Closure :=
  ⟨handingMethod (some 2) (some 0), ⟨handingMade.frames.next, [0]⟩, false⟩

def handingClosure : Closure :=
  ⟨handingInner (some 2), handingBound.env.inside handingGiven.frames.next, false⟩

theorem eval_handingRead : eval smallSetup 24 handingRead handingMachine =
    .ok (.function 1 handingBound) handingGiven :=
  ok_of_outcome (by decide +kernel)

theorem eval_handingCall : eval smallSetup 26 (.call handingRead closing []) handingMachine =
    .ok (.function 2 handingClosure) handingReturned :=
  ok_of_outcome (by decide +kernel)

/-- The `this` of the inner function, which runs when the method has returned, is the object. -/
theorem handing_self_is : ∃ m,
    Happens smallSetup [handing] ⟨.expr 22 (.self ⟨.thisWord, "this", .nil, 1⟩ ⟨some 2, none⟩), m⟩ ∧
      eval smallSetup 22 (.self ⟨.thisWord, "this", .nil, 1⟩ ⟨some 2, none⟩) m =
        .ok (.object 0 handingInfo) m := by
  obtain ⟨links, ha⟩ := handing_accepted
  have hlawful : smallSetup.Lawful := fun n hn ↦ absurd hn List.not_mem_nil
  have hclass : topLevel smallSetup handingClass (start smallSetup).ready = .ok () handingMachine := rfl
  have houter : Happens smallSetup [handing]
      ⟨.expr 28 (.call (.call handingRead closing []) closing []), handingMachine⟩ :=
    Happens.tail ⟨[], handing, [], _, [_], _, [], handingMachine, rfl, ha, rfl,
      (bind_of_ok hclass).trans rfl, .refl⟩ .expression
  have hinner := houter.tail .callee
  have hobject : eval smallSetup 22 handingObject handingMachine =
      .ok (.object 0 handingInfo) handingMade := rfl
  obtain ⟨-, -, -, -, -, hself⟩ := (hinner.tail .callee).this_is hlawful hobject rfl rfl
  have hbody : Belongs smallSetup [handing] handingBound
      ⟨.enter 22 handingBound [], handingGiven.called⟩ :=
    .body (hinner.tail (.enter eval_handingRead rfl rfl (by decide)))
  have hdeclared : Belongs smallSetup [handing] handingBound ⟨.stmt 22 (.function (handingInner (some 2))),
      handingGiven.called.inside handingBound.env .empty⟩ :=
    hbody.part (.statement (List.nil_append _).symm rfl) trivial
  have hdepth : (handingReturned.depth : Int) < smallSetup.maxDepth := by
    rw [((eval_restores smallSetup 26 _).of_ok eval_handingCall).2]
    decide
  have hrun : Belongs smallSetup [handing] handingBound
      ⟨.enter 24 handingClosure [], handingReturned.called⟩ :=
    hdeclared.nested (houter.tail (.enter eval_handingCall rfl rfl hdepth))
  have hthis := (hrun.part (.statement (List.nil_append _).symm rfl) trivial).part .returned trivial
  exact ⟨_, hthis.happens, hself _ _ _ _ hthis⟩

end Session

end TreeWalk
