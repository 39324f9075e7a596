import Mathlib.Algebra.Order.Group.Multiset
import TreeWalk.Proofs.Machine.Lies
import TreeWalk.Proofs.Scope.Nesting
import TreeWalk.Proofs.Scope.Program
import TreeWalk.Proofs.Scope.Violation
import TreeWalk.Proofs.Tree.Equality
import TreeWalk.Proofs.Tree.Formed

namespace TreeWalk

theorem Expr.Formed.two_le_nesting {N : Token → Prop} {e : Expr} (h : e.Formed N) :
    2 ≤ e.nesting := by
  cases h <;> simp [Expr.nesting]

theorem Stmt.Formed.four_le_nesting {N : Token → Prop} {s : Stmt} (h : s.Formed N) :
    4 ≤ s.nesting := by
  have two_le {e : Expr} (he : e.Formed N) : 4 ≤ e.nesting + 2 :=
    Nat.add_le_add_right he.two_le_nesting 2
  cases h with
  | empty | block | function | cls => simp [nesting]
  | expression he | print he => exact two_le he
  | @var name i _ he | @returns _ i he =>
    cases i with
    | none => exact Nat.le_refl 4
    | some e => exact two_le (he e rfl)
  | @branch c yes no hc =>
    have := two_le hc
    cases no <;> (rw [nesting]; omega)
  | loop hc =>
    have := two_le hc
    rw [nesting]
    omega

theorem Around.inside_var (a : Around) (name : Token) (initializer : Option Expr) :
    (a.inside (.stmt (.var name initializer))).role = a.role ∧
      (a.inside (.stmt (.var name initializer))).inMethod = a.inMethod := by
  rw [Around.inside]
  split <;> exact ⟨rfl, rfl⟩

theorem Node.children_function : ∀ d : FunDecl,
    (Node.stmt (.function d)).children = d.body.map Node.stmt
  | .mk _ _ _ => rfl

section Below

variable {a : Around} {n m m' : Node}

theorem Node.violations_leaf (hn : n.children = []) :
    (Site.violations ⟨a, n⟩ : Multiset Diagnostic) = n.violations a := by
  rw [n.violations_eq, hn, List.flatMap_nil, List.append_nil]

/-- A node that breaks no rule itself and has the same around it as the nodes below. -/
theorem Node.violations_below (hn : Site.violations ⟨a, n⟩ = []) (ha : a.inside n = a) :
    n.violations a = n.children.flatMap (violations a) := by
  rw [n.violations_eq, hn, ha, List.nil_append]

theorem Node.violations_one (hn : Site.violations ⟨a, n⟩ = []) (ha : a.inside n = a)
    (hm : n.children = [m]) : (m.violations a : Multiset Diagnostic) = n.violations a := by
  rw [violations_below hn ha, hm]
  simp

theorem Node.violations_two (hn : Site.violations ⟨a, n⟩ = []) (ha : a.inside n = a)
    (hm : n.children = [m, m']) :
    (m.violations a : Multiset Diagnostic) + m'.violations a = n.violations a := by
  rw [violations_below hn ha, hm]
  simp

end Below

namespace Resolving

/-- The walk is under way between these scopes, with this around it. -/
structure Stands (a : Around) (scopes : List Scope) (r : Resolution) : Prop where
  halted : r.halted = none
  scopes : r.scopes = scopes
  role : r.role = a.role
  inClass : r.inClass = a.inMethod

variable {α β : Type} {a a' : Around} {scopes scopes₁ scopes' : List Scope}
  {found found₁ found' : Multiset Diagnostic}

/-- From there a walk goes to its end, with other scopes there, and complains of just these. -/
def Finds (a : Around) (scopes : List Scope) (act : Resolving α) (scopes' : List Scope)
    (found : Multiset Diagnostic) : Prop :=
  ∀ r, Stands a scopes r → Stands a scopes' (after act r) ∧
    ((after act r).faults.toList : Multiset Diagnostic) = r.faults.toList + found

namespace Finds

variable {act : Resolving α} {f : α → Resolving β}

theorem congr (h : Finds a scopes act scopes' found) (he : found = found') :
    Finds a scopes act scopes' found' := he ▸ h

theorem pure {x : α} : Finds a scopes (pure x) scopes 0 := fun _ hr ↦ ⟨hr, (add_zero _).symm⟩

theorem bind (h : Finds a scopes act scopes₁ found)
    (hf : ∀ x, Finds a scopes₁ (f x) scopes' found') :
    Finds a scopes (act >>= f) scopes' (found + found') := by
  intro r hr
  obtain ⟨hr₁, hfound⟩ := h r hr
  obtain ⟨hr', hfound'⟩ := hf _ _ hr₁
  refine ⟨hr', ?_⟩
  rw [← add_assoc, ← hfound]
  exact hfound'

theorem map (h : Finds a scopes act scopes' found) (g : α → β) :
    Finds a scopes (g <$> act) scopes' found := h

theorem returns (h : Finds a scopes act scopes' found) (g : α → β) :
    Finds a scopes (act >>= fun x ↦ Pure.pure (g x)) scopes' found := h

theorem get {f : Resolution → Resolving α}
    (h : ∀ r, Stands a scopes r → Finds a scopes (f r) scopes' found) :
    Finds a scopes (MonadState.get >>= f) scopes' found :=
  fun r hr ↦ h r hr r hr

theorem around (h : Finds a' scopes act scopes' found) (hrole : a'.role = a.role)
    (hmethod : a'.inMethod = a.inMethod) : Finds a scopes act scopes' found := by
  intro r hr
  obtain ⟨hr', hfound⟩ := h r ⟨hr.halted, hr.scopes, hr.role.trans hrole.symm,
    hr.inClass.trans hmethod.symm⟩
  exact ⟨⟨hr'.halted, hr'.scopes, hr'.role.trans hrole, hr'.inClass.trans hmethod⟩, hfound⟩

theorem mapM {f : α → Resolving β} {found : α → List Diagnostic} :
    ∀ {xs : List α}, (∀ x ∈ xs, Finds a scopes (f x) scopes (found x)) →
      Finds a scopes (xs.mapM f) scopes (xs.flatMap found)
  | [], _ => pure
  | x :: xs, h => by
    rw [List.mapM_cons]
    have hxs := mapM fun x hx ↦ h x (.tail _ hx)
    exact ((h x (.head _)).bind fun _ ↦ hxs.bind fun _ ↦ pure).congr (by simp)

end Finds

section Steps

theorem complain_finds (t : Token) (c : Complaint) :
    Finds a scopes (complain t c) scopes {Diagnostic.atToken t c} := by
  refine .get fun r hr ↦ ?_
  rw [if_pos (by simp [hr.halted])]
  intro r hr
  refine ⟨⟨hr.halted, hr.scopes, hr.role, hr.inClass⟩, ?_⟩
  rw [← Multiset.coe_singleton, Multiset.coe_add, ← Array.toList_push]
  rfl

theorem link_finds (kind : RefKind) (name : Token) (ref : Ref) :
    Finds a scopes (link kind name ref) scopes 0 := by
  intro r hr
  unfold link after
  simp only [StateT.run_bind, StateT.run_get, pure_bind]
  rw [if_neg (by simp [hr.halted])]
  split
  · exact ⟨hr, (add_zero _).symm⟩
  · exact ⟨⟨hr.halted, hr.scopes, hr.role, hr.inClass⟩, (add_zero _).symm⟩

theorem mark_finds (name : String) (defined : Bool) :
    Finds a scopes (mark name defined) (markIn name defined scopes) 0 := by
  intro r hr
  rw [after, mark_run]
  exact ⟨⟨hr.halted, congrArg (markIn name defined) hr.scopes, hr.role, hr.inClass⟩,
    (add_zero _).symm⟩

def clash (scopes : List Scope) (name : Token) : List Diagnostic :=
  if scopes.head?.any (·.contains name.lexeme) then [.atToken name .redeclared] else []

theorem declare_finds (name : Token) :
    Finds a scopes (declare name) (markIn name.lexeme false scopes) (clash scopes name) := by
  refine .get fun r hr ↦ ?_
  rw [hr.scopes]
  cases scopes with
  | nil => exact .pure
  | cons scope outer =>
    dsimp only
    by_cases h : scope.contains name.lexeme = true
    · rw [if_pos h]
      exact ((complain_finds _ _).bind fun _ ↦ mark_finds _ _).congr (by simp [clash, h])
    · rw [if_neg h]
      exact (mark_finds _ _).congr (by simp [clash, h])

theorem inScope_finds (scope : Scope) {act : Resolving α}
    (h : Finds a (scope :: scopes) act scopes' found) :
    Finds a scopes (inScope scope act) scopes'.tail found := by
  intro r hr
  obtain ⟨hr', hfound⟩ := h { r with scopes := scope :: r.scopes }
    ⟨hr.halted, congrArg _ hr.scopes, hr.role, hr.inClass⟩
  exact ⟨⟨hr'.halted, congrArg List.tail hr'.scopes, hr'.role, hr'.inClass⟩, hfound⟩

theorem inFunction_finds (role : Role) {act : Resolving α}
    (h : Finds { a with role } scopes act scopes' found) :
    Finds a scopes (inFunction role act) scopes' found := by
  intro r hr
  obtain ⟨hr', hfound⟩ := h { r with role } ⟨hr.halted, hr.scopes, rfl, hr.inClass⟩
  exact ⟨⟨hr'.halted, hr'.scopes, hr.role, hr'.inClass⟩, hfound⟩

theorem inClass_finds {act : Resolving α}
    (h : Finds { a with inMethod := true } scopes act scopes' found) :
    Finds a scopes (inClass act) scopes' found := by
  intro r hr
  obtain ⟨hr', hfound⟩ := h { r with inClass := true } ⟨hr.halted, hr.scopes, hr.role, rfl⟩
  exact ⟨⟨hr'.halted, hr'.scopes, hr'.role, hr.inClass⟩, hfound⟩

theorem checkReturn_finds (keyword : Token) (value : Option Expr) :
    Finds a scopes (checkReturn keyword value.isSome) scopes
      (Site.violations ⟨a, .stmt (.returns keyword value)⟩) := by
  refine .get fun r hr ↦ ?_
  rw [hr.role, Site.violations]
  cases a.role with
  | none => exact complain_finds _ _
  | function | method => exact .pure
  | initializer =>
    by_cases h : value.isSome = true
    · simpa [h] using complain_finds _ _
    · simpa [h] using .pure

def Pending (a : Around) (scopes : List Scope) : Prop :=
  ∀ name, scopes.head?.any (·.get? name == some false) ↔ a.initializing = some name

theorem checkInitialized_finds (name : Token) (ref : Ref) (h : Pending a scopes) :
    Finds a scopes (checkInitialized name) scopes (Site.violations ⟨a, .expr (.var name ref)⟩) := by
  refine .get fun r hr ↦ ?_
  rw [hr.scopes, Site.violations]
  by_cases hname : a.initializing = some name.lexeme
  · rw [if_pos ((h _).mpr hname), if_pos hname]
    exact complain_finds _ _
  · rw [if_neg (mt (h _).mp hname), if_neg hname]
    exact .pure

end Steps

section Names

def clashes (scopes : List Scope) : List Token → List Diagnostic
  | [] => []
  | t :: ts => clash scopes t ++ clashes (declareIn t.lexeme scopes) ts

abbrev declareAllIn (ts : List Token) (scopes : List Scope) : List Scope :=
  ts.foldl (fun scopes t ↦ declareIn t.lexeme scopes) scopes

theorem clashes_append (ts us : List Token) (scopes : List Scope) :
    clashes scopes (ts ++ us) = clashes scopes ts ++ clashes (declareAllIn ts scopes) us := by
  induction ts generalizing scopes with
  | nil => rfl
  | cons t ts ih =>
    rw [List.cons_append, clashes, clashes, ih, List.append_assoc]
    rfl

theorem clashes_nil (ts : List Token) : clashes [] ts = [] := by
  induction ts with
  | nil => rfl
  | cons t ts ih => exact ih

theorem clashes_cons {scope : Scope} {earlier : List String}
    (h : ∀ name, scope.contains name = true ↔ name ∈ earlier) (outer : List Scope)
    (ts : List Token) :
    clashes (scope :: outer) ts = (repeatedAfter earlier ts).map (.atToken · .redeclared) := by
  induction ts generalizing scope earlier with
  | nil => rfl
  | cons t ts ih =>
    have hset : ∀ name, ((scope.set t.lexeme false).set t.lexeme true).contains name = true ↔
        name ∈ t.lexeme :: earlier := by
      intro name
      rw [Bindings.contains_set, Bindings.contains_set, h, List.mem_cons]
      tauto
    rw [clashes, clash, repeatedAfter]
    by_cases ht : t.lexeme ∈ earlier
    · have hsame : ∀ name, ((scope.set t.lexeme false).set t.lexeme true).contains name = true ↔
          name ∈ earlier := by
        intro name
        rw [hset, List.mem_cons]
        exact or_iff_right_of_imp fun hname ↦ hname ▸ ht
      rw [if_pos ht, List.map_cons, ← ih hsame]
      simp [(h _).mpr ht, declareIn, markIn]
    · rw [if_neg ht, ← ih hset]
      simp [mt (h _).mp ht, declareIn, markIn]

theorem clashes_inside (scopes : List Scope) (ts : List Token) :
    clashes (.empty :: scopes) ts = redeclarations ts :=
  clashes_cons (fun name ↦ by simp [Bindings.contains, Bindings.get?, Bindings.empty]) scopes ts

theorem declareAllIn_declared (s : Stmt) (scopes : List Scope) :
    declareAllIn s.declared?.toList scopes = s.declaredIn scopes := by
  rw [Stmt.declaredIn]
  cases s.declared? <;> rfl

theorem declaredBy_cons (s : Stmt) (ss : List Stmt) :
    Stmt.declaredBy (s :: ss) = s.declared?.toList ++ Stmt.declaredBy ss := by
  rw [Stmt.declaredBy, List.filterMap_cons]
  cases s.declared? <;> rfl

end Names

section Walks

variable {N : Token → Prop}

theorem expr_finds (room : Nat) {e : Expr} (he : e.Formed N) (hroom : e.nesting ≤ room)
    (hp : Pending a scopes) :
    Finds a scopes (expr room e) scopes ((Node.expr e).violations a) := by
  obtain ⟨room, rfl⟩ := Nat.exists_eq_add_of_le' (he.two_le_nesting.trans hroom)
  unfold expr
  refine .get fun r hr ↦ ?_
  rw [if_neg (by simp [hr.halted])]
  cases he with
  | literal =>
    rw [← Node.violations_leaf rfl]
    exact .pure
  | group he =>
    rw [Expr.nesting] at hroom
    have h := expr_finds room he (by omega) hp
    exact (h.returns _).congr (Node.violations_one rfl rfl rfl)
  | unary he =>
    rw [Expr.nesting] at hroom
    have h := expr_finds room he (by omega) hp
    exact (h.returns _).congr (Node.violations_one rfl rfl rfl)
  | binary he he' =>
    rw [Expr.nesting] at hroom
    have h := expr_finds room he (by omega) hp
    have h' := expr_finds room he' (by omega) hp
    exact (h.bind fun _ ↦ h'.returns _).congr (Node.violations_two rfl rfl rfl)
  | logical he he' =>
    rw [Expr.nesting] at hroom
    have h := expr_finds room he (by omega) hp
    have h' := expr_finds room he' (by omega) hp
    exact (h.bind fun _ ↦ h'.returns _).congr (Node.violations_two rfl rfl rfl)
  | @var name ref =>
    have h := checkInitialized_finds name ref hp
    exact (h.bind fun _ ↦ (link_finds _ _ _).returns _).congr
      ((add_zero _).trans (Node.violations_leaf rfl))
  | assign _ he =>
    rw [Expr.nesting] at hroom
    have h := expr_finds room he (by omega) hp
    exact (h.bind fun _ ↦ (link_finds _ _ _).returns _).congr
      ((add_zero _).trans (Node.violations_one rfl rfl rfl))
  | call he hes =>
    rw [Expr.nesting] at hroom
    have h := expr_finds room he (by omega) hp
    have hes := Finds.mapM fun e hmem ↦
      expr_finds room (hes e hmem) (Expr.nestings_le.mp (by omega) e hmem) hp
    refine (h.bind fun _ ↦ hes.returns _).congr ?_
    rw [Node.violations_below (n := .expr (.call _ _ _)) rfl rfl]
    simp [Node.children, Node.exprChildren, List.flatMap_map]
  | get he =>
    rw [Expr.nesting] at hroom
    have h := expr_finds room he (by omega) hp
    exact (h.returns _).congr (Node.violations_one rfl rfl rfl)
  | set he he' =>
    rw [Expr.nesting] at hroom
    have h := expr_finds room he (by omega) hp
    have h' := expr_finds room he' (by omega) hp
    exact (h'.bind fun _ ↦ h.returns _).congr
      ((add_comm _ _).trans (Node.violations_two rfl rfl rfl))
  | @self keyword ref =>
    rw [← Node.violations_leaf rfl, Site.violations]
    refine .get fun r hr ↦ ?_
    rw [hr.inClass]
    by_cases h : a.inMethod = true
    · rw [if_pos h, if_pos h]
      exact (link_finds _ _ _).returns _
    · rw [if_neg h, if_neg h]
      exact (complain_finds _ _).returns _
termination_by room

structure Fitting (a : Around) (scopes : List Scope) : Prop where
  settled : Settled scopes
  initializing : a.initializing = none
  isLocal : a.isLocal = !scopes.isEmpty

theorem declareIn_isEmpty (name : String) (scopes : List Scope) :
    (declareIn name scopes).isEmpty = scopes.isEmpty := by
  cases scopes <;> rfl

theorem Fitting.pending (h : Fitting a scopes) : Pending a scopes := by
  intro name
  rw [h.initializing]
  cases scopes with
  | nil => simp
  | cons scope outer => simpa using h.settled scope (.head _) name

theorem Fitting.initializer (h : Fitting a scopes) (name : Token) (value : Option Expr) :
    Pending (a.inside (.stmt (.var name value))) (markIn name.lexeme false scopes) := by
  intro k
  rw [Around.inside, h.isLocal]
  cases scopes with
  | nil => simp [markIn, h.initializing]
  | cons scope outer =>
    by_cases hk : k = name.lexeme
    · simp [markIn, hk, Bindings.get?_set]
    · have := h.settled scope (.head _) k
      simp [markIn, Bindings.get?_set, hk, this, Ne.symm hk]

theorem Fitting.declaredIn (h : Fitting a scopes) (s : Stmt) : Fitting a (s.declaredIn scopes) := by
  refine ⟨h.settled.declaredIn s, h.initializing, ?_⟩
  unfold Stmt.declaredIn
  split
  · exact h.isLocal
  · rw [declareIn_isEmpty, h.isLocal]

theorem Fitting.block (h : Fitting a scopes) :
    Fitting { a with isLocal := true } (.empty :: scopes) :=
  ⟨h.settled.inside, h.initializing, rfl⟩

theorem Fitting.function (h : Fitting a scopes) (role : Role) (params : List Token) :
    Fitting { a with role, isLocal := true } (declareAllIn params (.empty :: scopes)) := by
  refine ⟨h.settled.inside.parameters params, h.initializing, ?_⟩
  have hempty (scopes : List Scope) : (declareAllIn params scopes).isEmpty = scopes.isEmpty := by
    induction params generalizing scopes with
    | nil => rfl
    | cons t ts ih => exact (ih _).trans (declareIn_isEmpty _ _)
  rw [hempty]
  rfl

/-- The walk over a statement adds the name that it declares to the innermost scope, and complains of that
name and of what is wrong in the statement. -/
def Finding (f : Stmt → Resolving Stmt) (s : Stmt) : Prop :=
  ∀ {a scopes}, Fitting a scopes → Finds a scopes (f s) (s.declaredIn scopes)
    (clashes scopes s.declared?.toList + (Node.stmt s).violations a)

theorem parameters_finds (ts : List Token) :
    Finds a scopes (parameters ts) (declareAllIn ts scopes) (clashes scopes ts) := by
  induction ts generalizing scopes with
  | nil => exact .pure
  | cons t ts ih =>
    refine ((declare_finds t).bind fun _ ↦ (mark_finds _ _).bind fun _ ↦ ih).congr ?_
    rw [zero_add, Multiset.coe_add]
    rfl

theorem statements_find {f : Stmt → Resolving Stmt} : ∀ {ss : List Stmt} {scopes : List Scope},
    Fitting a scopes → (∀ s ∈ ss, Finding f s) →
    Finds a scopes (ss.mapM f) (declaredAll ss scopes)
      (clashes scopes (Stmt.declaredBy ss) + (ss.map Node.stmt).flatMap (Node.violations a))
  | [], _, _, _ => .pure
  | s :: ss, scopes, ha, hss => by
    rw [List.mapM_cons]
    have hs := hss s (.head _) ha
    have hrest := statements_find (ha.declaredIn s) fun s hs ↦ hss s (.tail _ hs)
    refine (hs.bind fun _ ↦ hrest.returns _).congr ?_
    rw [declaredBy_cons, clashes_append, declareAllIn_declared, List.map_cons, List.flatMap_cons,
      ← Multiset.coe_add, ← Multiset.coe_add]
    exact add_add_add_comm _ _ _ _

theorem function_finds {room : Nat} (role : Role) {d : FunDecl} (ha : Fitting a scopes)
    (hbody : ∀ s ∈ d.body, Finding (stmt room) s) :
    Finds a scopes (function role (·.mapM (stmt room)) d) scopes
      (redeclarations d.names +
        (d.body.map Node.stmt).flatMap (Node.violations { a with role, isLocal := true })) := by
  rw [function_eq]
  have hfunction := ha.function role d.params
  have hss : Finds { a with role } _ _ _ _ := (statements_find hfunction hbody).around rfl rfl
  have hd := (parameters_finds d.params).bind fun _ ↦ hss.returns (FunDecl.mk d.name d.params)
  have htail : (declaredAll d.body (declareAllIn d.params (.empty :: scopes))).tail = scopes := by
    rw [declaredAll_tail, foldl_declareIn_tail]
    rfl
  have h := inFunction_finds role (inScope_finds .empty hd)
  rw [htail] at h
  refine h.congr ?_
  rw [← add_assoc, Multiset.coe_add, ← clashes_append, clashes_inside]
  rfl

theorem method_finds {room : Nat} {d : FunDecl} (ha : Fitting a scopes)
    (hbody : ∀ s ∈ d.body, Finding (stmt room) s) :
    Finds { a with inMethod := true } (thisScope :: scopes)
      (function (methodRole d) (·.mapM (stmt room)) d) (thisScope :: scopes)
      ((Node.function d).violations a) := by
  have hsettled : Settled (thisScope :: scopes) := by
    refine ha.settled.cons fun name ↦ ?_
    rw [thisScope, Bindings.get?_set]
    split <;> simp [Bindings.get?, Bindings.empty]
  have ha' : Fitting { a with inMethod := true, isLocal := true } (thisScope :: scopes) :=
    ⟨hsettled, ha.initializing, rfl⟩
  have h : Finds { a with inMethod := true } _ _ _ _ :=
    (function_finds (methodRole d) ha' hbody).around rfl rfl
  refine h.congr ?_
  rw [Node.violations_eq, ← Multiset.coe_add]
  rfl

theorem Finds.plain {act : Resolving α} {s : Stmt} (hs : s.declared? = none)
    (h : Finds a scopes act scopes ((Node.stmt s).violations a)) :
    Finds a scopes act (s.declaredIn scopes)
      (clashes scopes s.declared?.toList + (Node.stmt s).violations a) := by
  rw [Stmt.declaredIn_of_none hs, hs]
  exact h.congr (zero_add _).symm

theorem Finding.undeclared {f : Stmt → Resolving Stmt} {s : Stmt} (h : Finding f s)
    (hs : s.declared? = none) (ha : Fitting a scopes) :
    Finds a scopes (f s) scopes ((Node.stmt s).violations a) := by
  have h := h ha
  rw [Stmt.declaredIn_of_none hs, hs] at h
  exact h.congr (zero_add _)

theorem Finds.declaring {act : Resolving α} {s : Stmt} {name : Token} (hs : s.declared? = some name)
    (h : Finds a scopes act (declareIn name.lexeme scopes)
      (clash scopes name + (Node.stmt s).violations a)) :
    Finds a scopes act (s.declaredIn scopes)
      (clashes scopes s.declared?.toList + (Node.stmt s).violations a) := by
  have hone : clashes scopes [name] = clash scopes name := List.append_nil _
  rw [Stmt.declaredIn, hs, Option.toList_some, hone]
  exact h

theorem stmt_finds (room : Nat) {s : Stmt} (hs : s.Formed N) (hroom : s.nesting ≤ room) :
    Finding (stmt room) s := by
  intro a scopes ha
  obtain ⟨room, rfl⟩ := Nat.exists_eq_add_of_le' (hs.four_le_nesting.trans hroom)
  unfold stmt
  refine .get fun r hr ↦ ?_
  rw [if_neg (by simp [hr.halted])]
  cases hs with
  | empty =>
    refine .plain rfl ?_
    rw [← Node.violations_leaf rfl]
    exact .pure
  | expression he =>
    rw [Stmt.nesting] at hroom
    have h := expr_finds (room + 2) he (by omega) ha.pending
    exact ((h.returns _).congr (Node.violations_one rfl rfl rfl)).plain rfl
  | print he =>
    rw [Stmt.nesting] at hroom
    have h := expr_finds (room + 2) he (by omega) ha.pending
    exact ((h.returns _).congr (Node.violations_one rfl rfl rfl)).plain rfl
  | @var name initializer _ he =>
    refine .declaring rfl ((declare_finds name).bind fun _ ↦ ?_)
    cases initializer with
    | none =>
      rw [← Node.violations_leaf rfl]
      exact Finds.pure.bind fun _ ↦ (mark_finds _ _).returns _
    | some e =>
      rw [Stmt.nesting] at hroom
      have hp := ha.initializer name (some e)
      have h := expr_finds (room + 2) (he e rfl) (by omega) hp
      have h : Finds a _ _ _ _ := h.around (a.inside_var _ _).1 (a.inside_var _ _).2
      refine ((h.map some).bind fun _ ↦ (mark_finds _ _).returns _).congr ?_
      rw [add_zero, Node.violations_eq a (.stmt _)]
      simp [Site.violations, Node.children, Node.stmtChildren]
  | @block body hss =>
    rw [Stmt.nesting] at hroom
    have hbody := statements_find ha.block fun s hmem ↦
      stmt_finds (room + 1) (hss s hmem) (Stmt.nestings_le.mp (by omega) s hmem)
    have h : Finds a _ _ _ _ := inScope_finds .empty (hbody.around rfl rfl)
    rw [declaredAll_tail] at h
    refine ((h.returns _).congr ?_).plain rfl
    rw [Node.violations_eq, clashes_inside]
    rfl
  | @branch c yes no hc hyes hplain hno hplain' =>
    refine .plain rfl ?_
    cases no with
    | none =>
      rw [Stmt.nesting] at hroom
      have h := expr_finds (room + 2) hc (by omega) ha.pending
      have h' := Finding.undeclared (stmt_finds (room + 2) hyes (by omega)) hplain ha
      exact (h.bind fun _ ↦ h'.returns _).congr (Node.violations_two rfl rfl rfl)
    | some no =>
      rw [Stmt.nesting] at hroom
      have h := expr_finds (room + 2) hc (by omega) ha.pending
      have h' := Finding.undeclared (stmt_finds (room + 2) hyes (by omega)) hplain ha
      have h'' := Finding.undeclared (stmt_finds (room + 2) (hno no rfl) (by omega))
        (hplain' no rfl) ha
      refine (h.bind fun _ ↦ h'.bind fun _ ↦ h''.returns _).congr ?_
      rw [Node.violations_below (n := .stmt (.branch _ _ _)) rfl rfl]
      simp [Node.children, Node.stmtChildren]
  | loop hc hbody hplain =>
    rw [Stmt.nesting] at hroom
    have h := expr_finds (room + 2) hc (by omega) ha.pending
    have h' := Finding.undeclared (stmt_finds (room + 2) hbody (by omega)) hplain ha
    exact ((h.bind fun _ ↦ h'.returns _).congr (Node.violations_two rfl rfl rfl)).plain rfl
  | @function d _ _ hss =>
    rw [Stmt.nesting] at hroom
    have h := function_finds .function (ha.declaredIn (.function d)) fun s hmem ↦
      stmt_finds room (hss s hmem) (d.nesting_le.mp (by omega) s hmem)
    refine .declaring rfl ((declare_finds d.name).bind fun _ ↦ ?_)
    refine ((mark_finds _ _).bind fun _ ↦ h.returns _).congr ?_
    rw [zero_add, Node.violations_eq, Node.children_function, ← Multiset.coe_add]
    rfl
  | @returns keyword value he =>
    refine .plain rfl ?_
    rw [Node.violations_eq, ← Multiset.coe_add]
    refine (checkReturn_finds keyword value).bind fun _ ↦ ?_
    cases value with
    | none => exact .pure
    | some e =>
      rw [Stmt.nesting] at hroom
      have h := expr_finds (room + 2) (he e rfl) (by omega) ha.pending
      refine (h.returns _).congr ?_
      simp [Node.children, Node.stmtChildren, Around.inside]
  | @cls name methods _ _ hss =>
    rw [Stmt.nesting] at hroom
    have hmethods := Finds.mapM fun d hd ↦ method_finds (ha.declaredIn (.cls name methods))
      fun s hmem ↦ stmt_finds room (hss d hd s hmem)
        (d.nesting_le.mp (FunDecl.nestings_le.mp (by omega) d hd) s hmem)
    have h := inScope_finds thisScope hmethods
    refine .declaring rfl (inClass_finds ((declare_finds name).bind fun _ ↦ ?_))
    refine ((mark_finds _ _).bind fun _ ↦ h.returns _).congr ?_
    rw [zero_add, Node.violations_below (n := .stmt (.cls _ _)) rfl rfl]
    simp [Node.children, Node.stmtChildren, List.flatMap_map]
termination_by room

/-- The walk comes to its end if and only if it has the room that it takes. -/
theorem stmt_halted_iff {room : Nat} {s : Stmt} {r : Resolution} (hs : s.Formed N)
    (ha : Fitting a scopes) (hr : Stands a scopes r) :
    (after (stmt room s) r).halted = none ↔ s.nesting ≤ room := by
  constructor
  · intro hhalted
    by_contra hroom
    exact stmt_stops (Nat.lt_of_not_le hroom) r hhalted
  · intro hroom
    exact (stmt_finds room hs hroom ha r hr).1.halted

theorem topLevel_finds {room : Nat} {s : Stmt} (h : Finding (stmt room) s) :
    Finding (topLevel room) s := by
  intro a scopes ha r hr
  obtain ⟨hr', hfound⟩ := h ha r hr
  have hafter : after (topLevel room s) r = after (stmt room s) r := by
    have hhalted := hr'.halted
    unfold after at hhalted ⊢
    rw [topLevel_run, Resolution.resumed, if_neg (by simp [hhalted])]
  rw [hafter]
  exact ⟨hr', hfound⟩

end Walks

end Resolving

open Resolving

/-- Resolving statements that are not nested too deep comes to an end, and what it complains of are the
rules that they break. -/
theorem Resolved.ofStatements_violations {room : Nat} {ss : List Stmt} {N : Token → Prop}
    (hss : ∀ s ∈ ss, s.Formed N) (hroom : ∀ s ∈ ss, s.nesting ≤ room) :
    ∃ resolved, ofStatements room ss = .ok resolved ∧
      (resolved.faults : Multiset Diagnostic) = violations ss := by
  have ha : Fitting {} [] := ⟨by simp [Settled], rfl, rfl⟩
  have hfinding : ∀ s ∈ ss, Finding (topLevel room) s := fun s hs ↦
    topLevel_finds (stmt_finds room (hss s hs) (hroom s hs))
  obtain ⟨hstands, hfound⟩ := statements_find ha hfinding {} ⟨rfl, rfl, rfl, rfl⟩
  rw [clashes_nil, List.flatMap_map] at hfound
  have hhalted := hstands.halted
  cases hrun : (ss.mapM (topLevel room)).run {} with
  | mk ss' r =>
    rw [after, hrun] at hhalted hfound
    refine ⟨⟨ss', r.links.toList, r.faults.toList⟩, ?_, ?_⟩
    · rw [ofStatements, hrun]
      dsimp only at hhalted ⊢
      rw [hhalted]
    · simpa [violations] using hfound

/-- The diagnostics about a program that was read without a mistake are, each as often as it occurs, the
violations of the scope rules in it. -/
theorem Program.diagnosed {room room' : Nat} {words : List Token} {last : Token}
    (hread : (ofWords room words last).faults = [])
    (hroom : ∀ s ∈ (ofWords room words last).statements, s.nesting ≤ room') :
    ∃ resolved, Resolved.ofStatements room' (ofWords room words last).statements = .ok resolved ∧
      (resolved.faults : Multiset Diagnostic) = violations (ofWords room words last).statements :=
  Resolved.ofStatements_violations (ofWords_formed (N := fun _ ↦ True) (by simp) hread) hroom

/-- The text `return this; fun f(a, a) { var a = a; }`. -/
def straying : List Token :=
  [⟨.returnWord, "return", .nil, 1⟩, ⟨.thisWord, "this", .nil, 1⟩, ⟨.semicolon, ";", .nil, 1⟩,
    ⟨.funWord, "fun", .nil, 1⟩, ⟨.identifier, "f", .nil, 1⟩, ⟨.leftParen, "(", .nil, 1⟩,
    ⟨.identifier, "a", .nil, 1⟩, ⟨.comma, ",", .nil, 1⟩, ⟨.identifier, "a", .nil, 2⟩,
    ⟨.rightParen, ")", .nil, 2⟩, ⟨.leftBrace, "\x7b", .nil, 2⟩, ⟨.varWord, "var", .nil, 3⟩,
    ⟨.identifier, "a", .nil, 3⟩, ⟨.equal, "=", .nil, 3⟩, ⟨.identifier, "a", .nil, 4⟩,
    ⟨.semicolon, ";", .nil, 4⟩, ⟨.rightBrace, "\x7d", .nil, 4⟩]

def strayingStatements : List Stmt :=
  [.returns ⟨.returnWord, "return", .nil, 1⟩ (some (.self ⟨.thisWord, "this", .nil, 1⟩ {})),
    .function (.mk ⟨.identifier, "f", .nil, 1⟩
      [⟨.identifier, "a", .nil, 1⟩, ⟨.identifier, "a", .nil, 2⟩]
      [.var ⟨.identifier, "a", .nil, 3⟩ (some (.var ⟨.identifier, "a", .nil, 4⟩ {}))])]

theorem ofWords_straying :
    Program.ofWords 30 straying (Scan.endMarker 4) = ⟨strayingStatements, []⟩ := by
  decide +kernel

theorem straying_diagnosed :
    (Program.ofWords 30 straying (Scan.endMarker 4)).faults = [] ∧
      (∀ s ∈ (Program.ofWords 30 straying (Scan.endMarker 4)).statements, s.nesting ≤ 8) ∧
        ∃ resolved, Resolved.ofStatements 8
            (Program.ofWords 30 straying (Scan.endMarker 4)).statements = .ok resolved ∧
          (resolved.faults : Multiset Diagnostic) =
            violations (Program.ofWords 30 straying (Scan.endMarker 4)).statements := by
  have hread : (Program.ofWords 30 straying (Scan.endMarker 4)).faults = [] := by
    rw [ofWords_straying]
  have hroom : ∀ s ∈ (Program.ofWords 30 straying (Scan.endMarker 4)).statements,
      s.nesting ≤ 8 := by
    rw [ofWords_straying]
    decide
  exact ⟨hread, hroom, Program.diagnosed hread hroom⟩

example : violations strayingStatements =
    [⟨1, .atLexeme "return", .returnOutside⟩, ⟨1, .atLexeme "this", .thisOutside⟩,
      ⟨2, .atLexeme "a", .redeclared⟩, ⟨3, .atLexeme "a", .redeclared⟩,
      ⟨4, .atLexeme "a", .ownInitializer⟩] := by
  decide +kernel

end TreeWalk
