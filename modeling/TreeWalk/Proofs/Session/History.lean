import TreeWalk.Proofs.Machine.Moment
import TreeWalk.Proofs.Scope.Visit
import TreeWalk.Session

namespace TreeWalk

/-- The walk at a visit goes well and gives what is evaluated. -/
inductive Visit.Gives : Visit → Event → Prop
  | expr {room room' : Nat} {e e' : Expr} {r r' : Resolution} :
      Resolving.Runs (Resolving.expr room e) r e' r' → Gives ⟨.expr room e, r⟩ (.expr room' e')
  | stmt {room room' : Nat} {s s' : Stmt} {r r' : Resolution} :
      Resolving.Runs (Resolving.stmt room s) r s' r' → Gives ⟨.stmt room s, r⟩ (.stmt room' s')
  | function {room room' : Nat} {role : Role} {d : FunDecl} {r r' : Resolution} {c : Closure}
      {arguments : List Value} :
      Resolving.Runs (Resolving.function role (·.mapM (Resolving.stmt room)) d) r c.decl r' →
      Gives ⟨.function room role d, r⟩ (.enter room' c arguments)
  | methods {room : Nat} {ds ds' : List FunDecl} {r r' : Resolution} {c : Closure} {this : Value} :
      Resolving.Runs (ds.mapM (Resolving.method room))
        (r.within (Resolving.thisScope :: r.scopes)) ds' r' →
      c.decl ∈ ds' → Gives ⟨.methods room ds, r⟩ (.bind c this)

def Machine.rested (m : Machine) : Machine := { m with env := .globals, depth := 0 }

namespace Session

/-- The program that a source is read as. -/
def programOf (limits : Limits) (source : String) : Program :=
  let scan := Scan.ofText source
  .ofWords limits.nesting scan.words scan.last

/-- A source without a complaint, and what resolving it gives. -/
structure Accepts (limits : Limits) (source : String) (resolved : Resolved) : Prop where
  scanned : (Scan.ofText source).faults = []
  parsed : (programOf limits source).faults = []
  walked : Resolved.ofStatements limits.nesting (programOf limits source).statements = .ok resolved
  clean : resolved.faults = []

def after (setup : Setup) (sources : List String) : Session :=
  sources.foldl (fun s source ↦ (s.run source).2) (start setup)

def ready (s : Session) : Machine := { s.machine with printed := #[] }

theorem run_of_accepts {s : Session} {source : String} {resolved : Resolved}
    (h : Accepts s.setup.limits source resolved) :
    s.run source =
      (⟨Scan.ofText source, programOf s.setup.limits source, some resolved,
          (s.evaluate resolved.statements).1, (s.evaluate resolved.statements).2.1⟩,
        (s.evaluate resolved.statements).2.2) := by
  have hp := h.parsed
  have hw := h.walked
  unfold programOf at hp hw
  simp only [run, h.scanned, hp, hw, h.clean, List.isEmpty_nil]
  rfl

/-- The text `{ var a; { print a; } }` and its words. -/
def nested : String := "\x7b var a; \x7b print a; \x7d \x7d"

def nestedWords : List Token :=
  [⟨.leftBrace, "\x7b", .nil, 1⟩, ⟨.varWord, "var", .nil, 1⟩, ⟨.identifier, "a", .nil, 1⟩,
    ⟨.semicolon, ";", .nil, 1⟩, ⟨.leftBrace, "\x7b", .nil, 1⟩, ⟨.printWord, "print", .nil, 1⟩,
    ⟨.identifier, "a", .nil, 1⟩, ⟨.semicolon, ";", .nil, 1⟩, ⟨.rightBrace, "\x7d", .nil, 1⟩,
    ⟨.rightBrace, "\x7d", .nil, 1⟩]

theorem ofText_nested : Scan.ofText nested = ⟨nestedWords, Scan.endMarker 1, []⟩ := by
  with_unfolding_all rfl

def smallSetup : Setup where
  seconds := 0
  limits := ⟨30, 10⟩

def nestedVar : Stmt := .var ⟨.identifier, "a", .nil, 1⟩ none

def nestedRead : Expr := .var ⟨.identifier, "a", .nil, 1⟩ { hops := some 1 }

theorem nested_accepted : ∃ resolved, Accepts smallSetup.limits nested resolved ∧
    resolved.statements = [.block [nestedVar, .block [.print nestedRead]]] := by
  have hp : programOf smallSetup.limits nested = .ofWords 30 nestedWords (Scan.endMarker 1) := by
    rw [programOf, ofText_nested]
    rfl
  exact ⟨_, ⟨by rw [ofText_nested], by rw [hp]; rfl, by rw [hp]; rfl, rfl⟩, rfl⟩

section History

variable (setup : Setup) (sources : List String)

/-- A part of the program of one of the sources, visited when that was resolved. -/
def Visited (v : Visit) : Prop :=
  ∃ source ∈ sources, ∃ resolved, Accepts setup.limits source resolved ∧
    Visits setup.limits.nesting (programOf setup.limits source).statements v

/-- A moment of a session in which the sources are run in order. It is inside a top-level statement of
one of them, before which the others of that source have been evaluated. -/
def Happens (μ : Moment) : Prop :=
  ∃ before source rest resolved ss s ss' m,
    sources = before ++ source :: rest ∧ Accepts setup.limits source resolved ∧
    resolved.statements = ss ++ s :: ss' ∧
    ss.forM (Exec.topLevel setup) (after setup before).ready = .ok () m ∧
    Relation.ReflTransGen (Moment.Leads setup) ⟨.stmt setup.limits.nesting s, m⟩ μ

variable {setup sources}

theorem Visited.tail {v v' : Visit} (h : Visited setup sources v) (hv : v.Leads v') :
    Visited setup sources v' := by
  obtain ⟨source, hs, resolved, ha, h⟩ := h
  exact ⟨source, hs, resolved, ha, h.tail hv⟩

theorem Happens.tail {μ μ' : Moment} (h : Happens setup sources μ) (hμ : μ.Leads setup μ') :
    Happens setup sources μ' := by
  obtain ⟨before, source, rest, resolved, ss, s, ss', m, hs, ha, hr, hm, h⟩ := h
  exact ⟨before, source, rest, resolved, ss, s, ss', m, hs, ha, hr, hm, .tail h hμ⟩

end History

end Session

end TreeWalk
