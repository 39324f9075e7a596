import TreeWalk.Proofs.Tree.Regular
import TreeWalk.Scope.Resolution

namespace TreeWalk

def Resolution.Clean (r : Resolution) : Prop := r.halted = none ∧ r.faults = #[]

def markIn (name : String) (defined : Bool) : List Scope → List Scope
  | [] => []
  | scope :: outer => scope.set name defined :: outer

def declareIn (name : String) (scopes : List Scope) : List Scope :=
  markIn name true (markIn name false scopes)

namespace Resolving

variable {α β : Type}

def after (act : Resolving α) (r : Resolution) : Resolution := (act.run r).2

/-- A walk that goes well, from what it starts with to what it ends with. -/
def Runs (act : Resolving α) (r : Resolution) (a : α) (r' : Resolution) : Prop :=
  act.run r = (a, r') ∧ r'.Clean

def Keeps (P : Resolution → Prop) (act : Resolving α) : Prop := ∀ r, P r → P (after act r)

/-- Nothing that has gone wrong is made good. -/
abbrev Careful (act : Resolving α) : Prop := Keeps (fun r ↦ ¬r.Clean) act

section Keeps

variable {P : Resolution → Prop} {act : Resolving α} {f : α → Resolving β}

theorem Keeps.pure {a : α} : Keeps P (pure a : Resolving α) := fun _ h ↦ h

theorem Keeps.bind (h : Keeps P act) (hf : ∀ a, Keeps P (f a)) : Keeps P (act >>= f) :=
  fun r hr ↦ hf _ _ (h r hr)

theorem Keeps.get : Keeps P (get : Resolving Resolution) := fun _ h ↦ h

theorem Keeps.map (h : Keeps P act) (g : α → β) : Keeps P (g <$> act) := h

theorem Keeps.mapM {f : α → Resolving β} (as : List α) (hf : ∀ a ∈ as, Keeps P (f a)) :
    Keeps P (as.mapM f) := by
  induction as with
  | nil => exact .pure
  | cons a as ih =>
    rw [List.mapM_cons]
    exact (hf a (.head _)).bind fun _ ↦ (ih fun a h ↦ hf a (.tail _ h)).bind fun _ ↦ .pure

theorem Careful.mapM {f : α → Resolving β} (hf : ∀ a, Careful (f a)) (as : List α) :
    Careful (as.mapM f) :=
  Keeps.mapM as fun a _ ↦ hf a

end Keeps

section Runs

variable {act : Resolving α} {f : α → Resolving β} {r r' : Resolution} {a : α} {b : β}

theorem Careful.clean (h : Careful act) (hr : (after act r).Clean) : r.Clean :=
  Classical.not_not.mp fun hn ↦ h r hn hr

theorem Runs.after_eq (h : Runs act r a r') : after act r = r' := congrArg Prod.snd h.1

theorem Runs.of_after (h : (after act r).Clean) : ∃ a, Runs act r a (after act r) := ⟨_, rfl, h⟩

theorem Runs.clean (h : Runs act r a r') (hact : Careful act) : r.Clean :=
  hact.clean (h.after_eq ▸ h.2)

theorem runs_pure {a a' : α} : Runs (pure a) r a' r' ↔ a' = a ∧ r' = r ∧ r.Clean := by
  constructor
  · rintro ⟨h, hclean⟩
    cases h
    exact ⟨rfl, rfl, hclean⟩
  · rintro ⟨rfl, rfl, hclean⟩
    exact ⟨rfl, hclean⟩

theorem Runs.bind_inv (h : Runs (act >>= f) r b r') (hf : ∀ a, Careful (f a)) :
    ∃ a r₁, Runs act r a r₁ ∧ Runs (f a) r₁ b r' := by
  have hrun : (f (act.run r).1).run (act.run r).2 = (b, r') := h.1
  have hclean : (after (f (act.run r).1) (act.run r).2).Clean := by
    rw [after, hrun]
    exact h.2
  exact ⟨_, _, ⟨rfl, (hf _).clean hclean⟩, hrun, h.2⟩

end Runs

/-- A property of the state that does not depend on where a walk is and what it has linked, and that does
not end when something goes wrong. -/
structure Kept (P : Resolution → Prop) : Prop where
  congr {r r' : Resolution} : P r → r'.halted = r.halted → r'.faults = r.faults → P r'
  complaint {r : Resolution} (d : Diagnostic) : P r → P { r with faults := r.faults.push d }
  tooDeep {r : Resolution} : P r → P { r with halted := some .tooDeep }

theorem unclean_kept : Kept fun r ↦ ¬r.Clean where
  congr h hh hf hr := h ⟨hh.symm.trans hr.1, hf.symm.trans hr.2⟩
  complaint _ _ hr := absurd hr.2 (by simp)
  tooDeep _ hr := absurd hr.1 (by simp)

section Kept

variable {P : Resolution → Prop} {act : Resolving α}

theorem mark_run (name : String) (defined : Bool) (r : Resolution) :
    (mark name defined).run r = ((), { r with scopes := markIn name defined r.scopes }) := by
  unfold mark
  obtain ⟨scopes, role, inClass, links, faults, halted⟩ := r
  cases scopes <;> rfl

theorem unlessHalted_keeps {act : Resolving Unit} (h : Keeps P act) :
    Keeps P (unlessHalted act) := by
  refine Keeps.get.bind fun r ↦ ?_
  split
  · exact h
  · exact .pure

def parameters : List Token → Resolving Unit
  | [] => pure ()
  | t :: ts => do
    declare t
    define t
    parameters ts

theorem function_eq (role : Role) (body : List Stmt → Resolving (List Stmt)) (d : FunDecl) :
    function role body d = inFunction role (inScope .empty do
      parameters d.params
      return .mk d.name d.params (← body d.body)) := by
  have h (ts : List Token) :
      (forIn ts PUnit.unit fun t _ ↦ do
        declare t
        define t
        pure (ForInStep.yield PUnit.unit) : Resolving PUnit) = parameters ts := by
    induction ts with
    | nil => rfl
    | cons t ts ih => simp only [List.forIn_cons, bind_assoc, pure_bind, ih, parameters]
  unfold function
  simp only [h]

namespace Kept

variable (hP : Kept P)
include hP

theorem halt_tooDeep : Keeps P (unlessHalted (halt .tooDeep)) :=
  unlessHalted_keeps fun _ ↦ hP.tooDeep

theorem complain (t : Token) (c : Complaint) : Keeps P (complain t c) :=
  unlessHalted_keeps fun _ ↦ hP.complaint _

theorem link (kind : RefKind) (name : Token) (ref : Ref) : Keeps P (link kind name ref) := by
  intro r hr
  unfold Resolving.link after
  simp only [StateT.run_bind, StateT.run_get, pure_bind]
  split
  · exact hr
  · split
    · exact hr
    · exact hP.congr hr rfl rfl

theorem mark (name : String) (defined : Bool) : Keeps P (mark name defined) := by
  intro r hr
  rw [after, mark_run]
  exact hP.congr hr rfl rfl

theorem declare (name : Token) : Keeps P (declare name) := by
  refine Keeps.get.bind fun r ↦ ?_
  split
  · exact .pure
  · dsimp only
    split
    · exact (hP.complain _ _).bind fun _ ↦ hP.mark _ _
    · exact hP.mark _ _

theorem define (name : Token) : Keeps P (define name) := hP.mark _ _

theorem inScope (scope : Scope) (h : Keeps P act) : Keeps P (inScope scope act) :=
  Keeps.bind (fun _ hr ↦ hP.congr hr rfl rfl) fun _ ↦ h.bind fun _ ↦
    Keeps.bind (fun _ hr ↦ hP.congr hr rfl rfl) fun _ ↦ .pure

theorem inFunction (role : Role) (h : Keeps P act) : Keeps P (inFunction role act) :=
  Keeps.get.bind fun _ ↦ Keeps.bind (fun _ hr ↦ hP.congr hr rfl rfl) fun _ ↦ h.bind fun _ ↦
    Keeps.bind (fun _ hr ↦ hP.congr hr rfl rfl) fun _ ↦ .pure

theorem inClass (h : Keeps P act) : Keeps P (inClass act) :=
  Keeps.get.bind fun _ ↦ Keeps.bind (fun _ hr ↦ hP.congr hr rfl rfl) fun _ ↦ h.bind fun _ ↦
    Keeps.bind (fun _ hr ↦ hP.congr hr rfl rfl) fun _ ↦ .pure

theorem parameters (ts : List Token) : Keeps P (parameters ts) := by
  induction ts with
  | nil => exact .pure
  | cons t ts ih => exact (hP.declare t).bind fun _ ↦ (hP.define t).bind fun _ ↦ ih

theorem function (role : Role) {body : List Stmt → Resolving (List Stmt)} (d : FunDecl)
    (h : Keeps P (body d.body)) : Keeps P (function role body d) := by
  rw [function_eq]
  exact hP.inFunction _ (hP.inScope _ ((hP.parameters _).bind fun _ ↦ h.bind fun _ ↦ .pure))

theorem checkInitialized (name : Token) : Keeps P (checkInitialized name) := by
  refine Keeps.get.bind fun r ↦ ?_
  split
  · exact hP.complain _ _
  · exact .pure

theorem checkReturn (keyword : Token) (hasValue : Bool) :
    Keeps P (checkReturn keyword hasValue) := by
  refine Keeps.get.bind fun r ↦ ?_
  split
  · exact hP.complain _ _
  · split
    · exact hP.complain _ _
    · exact .pure
  · exact .pure
  · exact .pure

end Kept

end Kept

section Trees

variable {P : Resolution → Prop}

def Unaffected (P : Resolution → Prop) (regular : Prop) : Prop :=
  regular ∨ ∀ kind, Keeps P (halt (.unknown kind))

mutual

theorem expr_keeps (hP : Kept P) : ∀ room (e : Expr), Unaffected P e.Regular → Keeps P (expr room e)
  | 0, _ | 1, _ => fun _ ↦ by
    unfold expr
    exact hP.halt_tooDeep.bind fun _ ↦ .pure
  | room + 2, e => fun h ↦ by
    unfold expr
    refine Keeps.get.bind fun r ↦ ?_
    split
    · exact .pure
    · cases e with
      | literal value => exact .pure
      | group inner =>
        have hinner := expr_keeps hP room inner (h.imp_left fun | .group he => he)
        exact hinner.bind fun _ ↦ .pure
      | unary operator right =>
        have hright := expr_keeps hP room right (h.imp_left fun | .unary he => he)
        exact hright.bind fun _ ↦ .pure
      | binary left operator right =>
        have hleft := expr_keeps hP room left (h.imp_left fun | .binary he _ => he)
        have hright := expr_keeps hP room right (h.imp_left fun | .binary _ he => he)
        exact hleft.bind fun _ ↦ hright.bind fun _ ↦ .pure
      | logical left operator right =>
        have hleft := expr_keeps hP room left (h.imp_left fun | .logical he _ => he)
        have hright := expr_keeps hP room right (h.imp_left fun | .logical _ he => he)
        exact hleft.bind fun _ ↦ hright.bind fun _ ↦ .pure
      | var name ref =>
        exact (hP.checkInitialized name).bind fun _ ↦ (hP.link _ _ _).bind fun _ ↦ .pure
      | assign name value ref =>
        have hvalue := expr_keeps hP room value (h.imp_left fun | .assign he => he)
        exact hvalue.bind fun _ ↦ (hP.link _ _ _).bind fun _ ↦ .pure
      | call callee paren arguments =>
        have hcallee := expr_keeps hP room callee (h.imp_left fun | .call he _ => he)
        have harguments : Keeps P (arguments.mapM (expr room)) := Keeps.mapM arguments fun e he ↦
          expr_keeps hP room e (h.imp_left fun | .call _ hes => hes e he)
        exact hcallee.bind fun _ ↦ harguments.bind fun _ ↦ .pure
      | get object name =>
        have hobject := expr_keeps hP room object (h.imp_left fun | .get he => he)
        exact hobject.bind fun _ ↦ .pure
      | set object name value =>
        have hobject := expr_keeps hP room object (h.imp_left fun | .set he _ => he)
        have hvalue := expr_keeps hP room value (h.imp_left fun | .set _ he => he)
        exact hvalue.bind fun _ ↦ hobject.bind fun _ ↦ .pure
      | self keyword ref =>
        refine Keeps.get.bind fun r ↦ ?_
        split
        · exact (hP.link _ _ _).bind fun _ ↦ .pure
        · exact (hP.complain _ _).bind fun _ ↦ .pure
      | ofStmt s =>
        have hs := stmt_keeps hP (room + 1) s (h.imp_left nofun)
        exact hs.bind fun _ ↦ .pure

theorem stmt_keeps (hP : Kept P) : ∀ room (s : Stmt), Unaffected P s.Regular → Keeps P (stmt room s)
  | 0, _ | 1, _ | 2, _ | 3, _ => fun _ ↦ by
    unfold stmt
    exact hP.halt_tooDeep.bind fun _ ↦ .pure
  | room + 4, s => fun h ↦ by
    unfold stmt
    refine Keeps.get.bind fun r ↦ ?_
    split
    · exact .pure
    · cases s with
      | empty => exact .pure
      | expression e =>
        have he := expr_keeps hP (room + 2) e (h.imp_left fun | .expression he => he)
        exact he.bind fun _ ↦ .pure
      | print e =>
        have he := expr_keeps hP (room + 2) e (h.imp_left fun | .print he => he)
        exact he.bind fun _ ↦ .pure
      | var name initializer =>
        refine (hP.declare name).bind fun _ ↦ ?_
        cases initializer with
        | none => exact Keeps.pure.bind fun _ ↦ (hP.define name).bind fun _ ↦ .pure
        | some e =>
          have he := expr_keeps hP (room + 2) e (h.imp_left fun | .var _ he => he e rfl)
          exact (he.map some).bind fun _ ↦ (hP.define name).bind fun _ ↦ .pure
      | block body =>
        have hbody : Keeps P (body.mapM (stmt (room + 1))) := Keeps.mapM body fun s hs ↦
          stmt_keeps hP (room + 1) s (h.imp_left fun | .block hss => hss s hs)
        exact (hP.inScope _ hbody).bind fun _ ↦ .pure
      | branch condition yes no =>
        have hc := expr_keeps hP (room + 2) condition (h.imp_left fun | .branch he _ _ _ _ => he)
        have hyes := stmt_keeps hP (room + 2) yes (h.imp_left fun | .branch _ hs _ _ _ => hs)
        refine hc.bind fun _ ↦ hyes.bind fun _ ↦ ?_
        cases no with
        | none => exact .pure
        | some no =>
          have hno := stmt_keeps hP (room + 2) no
            (h.imp_left fun | .branch _ _ _ hs _ => hs no rfl)
          exact hno.bind fun _ ↦ .pure
      | loop condition body =>
        have hc := expr_keeps hP (room + 2) condition (h.imp_left fun | .loop he _ _ => he)
        have hbody := stmt_keeps hP (room + 2) body (h.imp_left fun | .loop _ hs _ => hs)
        exact hc.bind fun _ ↦ hbody.bind fun _ ↦ .pure
      | function d =>
        have hbody : Keeps P (d.body.mapM (stmt room)) := Keeps.mapM d.body fun s hs ↦
          stmt_keeps hP room s (h.imp_left fun | .function hss => hss s hs)
        exact (hP.declare _).bind fun _ ↦ (hP.define _).bind fun _ ↦
          (hP.function _ d hbody).bind fun _ ↦ .pure
      | returns keyword value =>
        refine (hP.checkReturn _ _).bind fun _ ↦ ?_
        cases value with
        | none => exact .pure
        | some e =>
          have he := expr_keeps hP (room + 2) e (h.imp_left fun | .returns he => he e rfl)
          exact he.bind fun _ ↦ .pure
      | cls name methods =>
        refine hP.inClass ((hP.declare _).bind fun _ ↦ (hP.define _).bind fun _ ↦
          (hP.inScope _ (Keeps.mapM methods fun d hd ↦ ?_)).bind fun _ ↦ .pure)
        have hbody : Keeps P (d.body.mapM (stmt room)) := Keeps.mapM d.body fun s hs ↦
          stmt_keeps hP room s (h.imp_left fun | .cls hss => hss d hd s hs)
        exact hP.function _ d hbody
      | ofExpr e =>
        have he := expr_keeps hP (room + 3) e (h.imp_left nofun)
        exact he.bind fun _ ↦ .pure
      | unknown kind =>
        have hkind : Keeps P (halt (.unknown kind)) := (h.resolve_left nofun) kind
        exact hkind.bind fun _ ↦ .pure

end

theorem unclean_unaffected (regular : Prop) : Unaffected (fun r ↦ ¬r.Clean) regular :=
  .inr fun _ _ _ hr ↦ absurd (show some _ = none from hr.1) (by simp)

theorem expr_careful (room : Nat) (e : Expr) : Careful (expr room e) :=
  expr_keeps unclean_kept room e (unclean_unaffected _)

theorem stmt_careful (room : Nat) (s : Stmt) : Careful (stmt room s) :=
  stmt_keeps unclean_kept room s (unclean_unaffected _)

end Trees

end Resolving

end TreeWalk
