import TreeWalk.Proofs.Scope.Walk
import TreeWalk.Proofs.Tree.Regular

namespace TreeWalk

namespace Resolution

def within (r : Resolution) (scopes : List Scope) : Resolution := { r with scopes }

@[simp] theorem within_scopes (r : Resolution) (scopes : List Scope) :
    (r.within scopes).scopes = scopes := rfl

end Resolution

namespace Resolving

variable {α β : Type} {r r' : Resolution} {u : Unit}

section Parts

variable {act : Resolving α} {a : α}

theorem Runs.of_get {f : Resolution → Resolving α} (h : Runs (get >>= f) r a r') :
    Runs (f r) r a r' := h

theorem Runs.map_inv {g : α → β} {b : β} (h : Runs (act >>= fun a ↦ pure (g a)) r b r') :
    ∃ a, Runs act r a r' ∧ b = g a := by
  obtain ⟨a, r₁, h, h'⟩ := h.bind_inv fun _ ↦ .pure
  obtain ⟨rfl, rfl, -⟩ := runs_pure.mp h'
  exact ⟨a, h, rfl⟩

theorem Runs.fmap_inv {g : α → β} {b : β} (h : Runs (g <$> act) r b r') :
    ∃ a, Runs act r a r' ∧ b = g a :=
  Runs.map_inv (show Runs (act >>= fun a ↦ pure (g a)) r b r' from h)

theorem not_runs_complain {t : Token} {c : Complaint} : ¬Runs (complain t c) r u r' := by
  intro h
  have hr := h.clean (unclean_kept.complain t c)
  have he : r' = { r with faults := r.faults.push (.atToken t c) } := by
    rw [← h.after_eq]
    simp [after, complain, unlessHalted, hr.1]
    rfl
  have hfaults := h.2.2
  rw [he] at hfaults
  simp at hfaults

theorem mark_runs {name : String} {defined : Bool} (h : Runs (mark name defined) r u r') :
    r' = r.within (markIn name defined r.scopes) := by
  rw [← h.after_eq, after, mark_run]
  rfl

theorem declare_runs {name : Token} (h : Runs (declare name) r u r') :
    r' = r.within (markIn name.lexeme false r.scopes) := by
  have h := h.of_get
  dsimp only at h
  split at h
  · next hs =>
    rw [(runs_pure.mp h).2.1, hs, markIn, ← hs]
    rfl
  · split at h
    · obtain ⟨_, _, h, -⟩ := h.bind_inv fun _ ↦ unclean_kept.mark _ _
      exact absurd h not_runs_complain
    · exact mark_runs h

theorem define_runs {name : Token} (h : Runs (define name) r u r') :
    r' = r.within (markIn name.lexeme true r.scopes) := mark_runs h

theorem checkInitialized_runs {name : Token} (h : Runs (checkInitialized name) r u r') :
    r' = r ∧ ∀ scope ∈ r.scopes.head?, scope.get? name.lexeme ≠ some false := by
  have h := h.of_get
  split at h
  · exact absurd h not_runs_complain
  · next hnone =>
    obtain ⟨-, rfl, -⟩ := runs_pure.mp h
    refine ⟨rfl, fun scope hscope hfalse ↦ hnone ?_⟩
    rw [Option.mem_def.mp hscope]
    simp [hfalse]

theorem link_runs {kind : RefKind} {name : Token} {ref ref' : Ref}
    (h : Runs (link kind name ref) r ref' r') :
    ref' = { ref with hops := hops? r.scopes name.lexeme } ∧ r'.scopes = r.scopes := by
  have hr := h.clean (unclean_kept.link kind name ref)
  have h := h.of_get
  rw [if_neg (by simp [hr.1])] at h
  split at h
  · next hnone =>
    obtain ⟨rfl, rfl, -⟩ := runs_pure.mp h
    simp [hnone]
  · next hops hsome =>
    obtain ⟨he, -⟩ := h
    cases he
    simp [hsome]

theorem checkReturn_runs {keyword : Token} {hasValue : Bool}
    (h : Runs (checkReturn keyword hasValue) r u r') : r' = r := by
  have h := h.of_get
  split at h
  · exact absurd h not_runs_complain
  · split at h
    · exact absurd h not_runs_complain
    · exact (runs_pure.mp h).2.1
  · exact (runs_pure.mp h).2.1
  · exact (runs_pure.mp h).2.1

theorem inScope_runs {scope : Scope} (h : Runs (inScope scope act) r a r') :
    ∃ r₁, Runs act (r.within (scope :: r.scopes)) a r₁ ∧ r' = r₁.within r₁.scopes.tail := by
  obtain ⟨he, hclean⟩ := h
  cases he
  exact ⟨_, ⟨rfl, hclean⟩, rfl⟩

theorem inClass_runs (h : Runs (inClass act) r a r') :
    ∃ r₁, Runs act { r with inClass := true } a r₁ ∧ r' = { r₁ with inClass := r.inClass } := by
  obtain ⟨he, hclean⟩ := h
  cases he
  exact ⟨_, ⟨rfl, hclean⟩, rfl⟩

theorem inFunction_runs {role : Role} (h : Runs (inFunction role act) r a r') :
    ∃ r₁, Runs act { r with role } a r₁ ∧ r' = { r₁ with role := r.role } := by
  obtain ⟨he, hclean⟩ := h
  cases he
  exact ⟨_, ⟨rfl, hclean⟩, rfl⟩

end Parts
section Forms

variable {room : Nat}

def thisScope : Scope := Bindings.empty.set "this" true

/-- A walk over an expression, in terms of the walks over its parts. -/
inductive OfExpr (room : Nat) (r : Resolution) : Expr → Expr → Resolution → Prop
  | literal {value : Scalar} : OfExpr room r (.literal value) (.literal value) r
  | group {e e' : Expr} {r' : Resolution} :
      Runs (expr room e) r e' r' → OfExpr room r (.group e) (.group e') r'
  | unary {operator : Token} {e e' : Expr} {r' : Resolution} :
      Runs (expr room e) r e' r' → OfExpr room r (.unary operator e) (.unary operator e') r'
  | binary {operator : Token} {e e' i i' : Expr} {r₁ r' : Resolution} :
      Runs (expr room e) r e' r₁ → Runs (expr room i) r₁ i' r' →
      OfExpr room r (.binary e operator i) (.binary e' operator i') r'
  | logical {operator : Token} {e e' i i' : Expr} {r₁ r' : Resolution} :
      Runs (expr room e) r e' r₁ → Runs (expr room i) r₁ i' r' →
      OfExpr room r (.logical e operator i) (.logical e' operator i') r'
  | var {name : Token} {ref : Ref} {r' : Resolution} :
      (∀ scope ∈ r.scopes.head?, scope.get? name.lexeme ≠ some false) → r'.scopes = r.scopes →
      OfExpr room r (.var name ref)
        (.var name { ref with hops := hops? r.scopes name.lexeme }) r'
  | assign {name : Token} {ref : Ref} {e e' : Expr} {r₁ r' : Resolution} :
      Runs (expr room e) r e' r₁ → r'.scopes = r₁.scopes →
      OfExpr room r (.assign name e ref)
        (.assign name e' { ref with hops := hops? r₁.scopes name.lexeme }) r'
  | call {paren : Token} {e e' : Expr} {es es' : List Expr} {r₁ r' : Resolution} :
      Runs (expr room e) r e' r₁ → Runs (es.mapM (expr room)) r₁ es' r' →
      OfExpr room r (.call e paren es) (.call e' paren es') r'
  | get {name : Token} {e e' : Expr} {r' : Resolution} :
      Runs (expr room e) r e' r' → OfExpr room r (.get e name) (.get e' name) r'
  | set {name : Token} {e e' i i' : Expr} {r₁ r' : Resolution} :
      Runs (expr room i) r i' r₁ → Runs (expr room e) r₁ e' r' →
      OfExpr room r (.set e name i) (.set e' name i') r'
  | self {keyword : Token} {ref : Ref} {r' : Resolution} :
      r.inClass = true → r'.scopes = r.scopes →
      OfExpr room r (.self keyword ref)
        (.self keyword { ref with hops := hops? r.scopes keyword.lexeme }) r'
  | ofStmt {s s' : Stmt} {r' : Resolution} :
      Runs (stmt (room + 1) s) r s' r' → OfExpr room r (.ofStmt s) (.ofStmt s') r'

/-- A walk over a function, in terms of the walk over its body. -/
inductive OfFunction (room : Nat) (role : Role) (r : Resolution) :
    FunDecl → FunDecl → Resolution → Prop
  | mk {name : Token} {params : List Token} {body body' : List Stmt} {u : Unit}
      {r₁ r₂ r' : Resolution} :
      Runs (parameters params) { r with role, scopes := .empty :: r.scopes } u r₁ →
      Runs (body.mapM (stmt room)) r₁ body' r₂ → r'.scopes = r₂.scopes.tail →
      OfFunction room role r (.mk name params body) (.mk name params body') r'

def method (room : Nat) (d : FunDecl) : Resolving FunDecl :=
  function (methodRole d) (·.mapM (stmt room)) d

theorem method_careful (room : Nat) (d : FunDecl) : Careful (method room d) :=
  unclean_kept.function _ d (Careful.mapM (stmt_careful room) d.body)

inductive OfStmt (room : Nat) (r : Resolution) : Stmt → Stmt → Resolution → Prop
  | empty : OfStmt room r .empty .empty r
  | expression {e e' : Expr} {r' : Resolution} :
      Runs (expr (room + 2) e) r e' r' → OfStmt room r (.expression e) (.expression e') r'
  | print {e e' : Expr} {r' : Resolution} :
      Runs (expr (room + 2) e) r e' r' → OfStmt room r (.print e) (.print e') r'
  | var {name : Token} {u u' : Unit} {r₁ r' : Resolution} :
      Runs (declare name) r u r₁ → Runs (define name) r₁ u' r' →
      OfStmt room r (.var name none) (.var name none) r'
  | initialized {name : Token} {e e' : Expr} {u u' : Unit} {r₁ r₂ r' : Resolution} :
      Runs (declare name) r u r₁ → Runs (expr (room + 2) e) r₁ e' r₂ →
      Runs (define name) r₂ u' r' →
      OfStmt room r (.var name (some e)) (.var name (some e')) r'
  | block {body body' : List Stmt} {r₁ r' : Resolution} :
      Runs (body.mapM (stmt (room + 1))) (r.within (.empty :: r.scopes)) body' r₁ →
      r'.scopes = r₁.scopes.tail → OfStmt room r (.block body) (.block body') r'
  | branch {e e' : Expr} {yes yes' : Stmt} {r₁ r' : Resolution} :
      Runs (expr (room + 2) e) r e' r₁ → Runs (stmt (room + 2) yes) r₁ yes' r' →
      OfStmt room r (.branch e yes none) (.branch e' yes' none) r'
  | branches {e e' : Expr} {yes yes' no no' : Stmt} {r₁ r₂ r' : Resolution} :
      Runs (expr (room + 2) e) r e' r₁ → Runs (stmt (room + 2) yes) r₁ yes' r₂ →
      Runs (stmt (room + 2) no) r₂ no' r' →
      OfStmt room r (.branch e yes (some no)) (.branch e' yes' (some no')) r'
  | loop {e e' : Expr} {body body' : Stmt} {r₁ r' : Resolution} :
      Runs (expr (room + 2) e) r e' r₁ → Runs (stmt (room + 2) body) r₁ body' r' →
      OfStmt room r (.loop e body) (.loop e' body') r'
  | function {d d' : FunDecl} {u u' : Unit} {r₁ r₂ r' : Resolution} :
      Runs (declare d.name) r u r₁ → Runs (define d.name) r₁ u' r₂ →
      Runs (function .function (·.mapM (stmt room)) d) r₂ d' r' →
      OfStmt room r (.function d) (.function d') r'
  | returns {keyword : Token} : OfStmt room r (.returns keyword none) (.returns keyword none) r
  | returnsValue {keyword : Token} {e e' : Expr} {u : Unit} {r₁ r' : Resolution} :
      Runs (checkReturn keyword true) r u r₁ → Runs (expr (room + 2) e) r₁ e' r' →
      OfStmt room r (.returns keyword (some e)) (.returns keyword (some e')) r'
  | cls {name : Token} {ds ds' : List FunDecl} {u u' : Unit} {r₁ r₂ r₃ r' : Resolution} :
      Runs (declare name) { r with inClass := true } u r₁ → Runs (define name) r₁ u' r₂ →
      Runs (ds.mapM (method room)) (r₂.within (thisScope :: r₂.scopes)) ds' r₃ →
      r'.scopes = r₃.scopes.tail → OfStmt room r (.cls name ds) (.cls name ds') r'
  | ofExpr {e e' : Expr} {r' : Resolution} :
      Runs (expr (room + 3) e) r e' r' → OfStmt room r (.ofExpr e) (.ofExpr e') r'

theorem not_runs_halt {h : Halt} : ¬Runs (halt h) r u r' := by
  intro hruns
  have he : { r with halted := some h } = r' := hruns.after_eq
  have hclean := hruns.2.1
  rw [← he] at hclean
  cases hclean

theorem not_runs_tooDeep {a a' : α} :
    ¬Runs (do unlessHalted (halt .tooDeep); return a) r a' r' := by
  intro h
  obtain ⟨_, h, -⟩ := h.map_inv
  have hr := h.clean (unclean_kept.halt_tooDeep)
  have h := Runs.of_get h
  rw [if_pos (by simp [hr.1])] at h
  exact not_runs_halt h

theorem expr_runs : ∀ {room : Nat} {e e' : Expr}, Runs (expr room e) r e' r' →
    ∃ room', room = room' + 2 ∧ OfExpr room' r e e' r'
  | 0, _, _, h | 1, _, _, h => by
    unfold expr at h
    exact absurd h not_runs_tooDeep
  | room + 2, e, e', h => by
    refine ⟨room, rfl, ?_⟩
    have hr := h.clean (expr_careful _ _)
    unfold expr at h
    have h := h.of_get
    rw [if_neg (by simp [hr.1])] at h
    cases e with
    | literal value =>
      obtain ⟨rfl, rfl, -⟩ := runs_pure.mp h
      exact .literal
    | group inner =>
      obtain ⟨_, hlast, rfl⟩ := h.map_inv
      exact .group hlast
    | unary operator right =>
      obtain ⟨_, hlast, rfl⟩ := h.map_inv
      exact .unary hlast
    | binary left operator right =>
      obtain ⟨_, r₁, hl, h⟩ := h.bind_inv fun _ ↦ (expr_careful _ _).bind fun _ ↦ .pure
      obtain ⟨_, hlast, rfl⟩ := h.map_inv
      exact .binary hl hlast
    | logical left operator right =>
      obtain ⟨_, r₁, hl, h⟩ := h.bind_inv fun _ ↦ (expr_careful _ _).bind fun _ ↦ .pure
      obtain ⟨_, hlast, rfl⟩ := h.map_inv
      exact .logical hl hlast
    | var name ref =>
      obtain ⟨_, r₁, hc, h⟩ := h.bind_inv fun _ ↦ (unclean_kept.link _ _ _).bind fun _ ↦ .pure
      obtain ⟨_, hlast, rfl⟩ := h.map_inv
      obtain ⟨rfl, hinit⟩ := checkInitialized_runs hc
      obtain ⟨rfl, hs⟩ := link_runs hlast
      exact .var hinit hs
    | assign name value ref =>
      obtain ⟨_, r₁, hv, h⟩ := h.bind_inv fun _ ↦ (unclean_kept.link _ _ _).bind fun _ ↦ .pure
      obtain ⟨_, hlast, rfl⟩ := h.map_inv
      obtain ⟨rfl, hs⟩ := link_runs hlast
      exact .assign hv hs
    | call callee paren arguments =>
      obtain ⟨_, r₁, hf, h⟩ := h.bind_inv fun _ ↦
        (Careful.mapM (expr_careful room) arguments).bind fun _ ↦ .pure
      obtain ⟨_, hlast, rfl⟩ := h.map_inv
      exact .call hf hlast
    | get object name =>
      obtain ⟨_, hlast, rfl⟩ := h.map_inv
      exact .get hlast
    | set object name value =>
      obtain ⟨_, r₁, hv, h⟩ := h.bind_inv fun _ ↦ (expr_careful _ _).bind fun _ ↦ .pure
      obtain ⟨_, hlast, rfl⟩ := h.map_inv
      exact .set hv hlast
    | self keyword ref =>
      have h := h.of_get
      split at h
      · next hclass =>
        obtain ⟨_, hlast, rfl⟩ := h.map_inv
        obtain ⟨rfl, hs⟩ := link_runs hlast
        exact .self hclass hs
      · obtain ⟨_, _, hcomplain, -⟩ := h.bind_inv fun _ ↦ .pure
        exact absurd hcomplain not_runs_complain
    | ofStmt s =>
      obtain ⟨_, hlast, rfl⟩ := h.map_inv
      exact .ofStmt hlast

theorem function_runs {room : Nat} {role : Role} {d d' : FunDecl}
    (h : Runs (function role (·.mapM (stmt room)) d) r d' r') : OfFunction room role r d d' r' := by
  rw [function_eq] at h
  obtain ⟨r₁, hinside, he⟩ := inFunction_runs h
  obtain ⟨r₂, hparts, he₁⟩ := inScope_runs hinside
  obtain ⟨_, r₃, hp, hbody⟩ := hparts.bind_inv fun _ ↦
    (Careful.mapM (stmt_careful room) d.body).bind fun _ ↦ .pure
  obtain ⟨_, hlast, rfl⟩ := hbody.map_inv
  cases d with
  | mk name params body => exact .mk hp hlast (by rw [he, he₁]; rfl)

theorem stmt_runs : ∀ {room : Nat} {s s' : Stmt}, Runs (stmt room s) r s' r' →
    ∃ room', room = room' + 4 ∧ OfStmt room' r s s' r'
  | 0, _, _, h | 1, _, _, h | 2, _, _, h | 3, _, _, h => by
    unfold stmt at h
    exact absurd h not_runs_tooDeep
  | room + 4, s, s', h => by
    refine ⟨room, rfl, ?_⟩
    have hr := h.clean (stmt_careful _ _)
    unfold stmt at h
    have h := h.of_get
    rw [if_neg (by simp [hr.1])] at h
    cases s with
    | empty =>
      obtain ⟨rfl, rfl, -⟩ := runs_pure.mp h
      exact .empty
    | expression e =>
      obtain ⟨_, hlast, rfl⟩ := h.map_inv
      exact .expression hlast
    | print e =>
      obtain ⟨_, hlast, rfl⟩ := h.map_inv
      exact .print hlast
    | var name initializer =>
      cases initializer with
      | none =>
        obtain ⟨_, r₁, hd, hrest⟩ := h.bind_inv fun _ ↦
          Keeps.pure.bind fun _ ↦ (unclean_kept.define name).bind fun _ ↦ .pure
        have hrest : Runs (define name >>= fun _ ↦ pure (.var name none)) r₁ s' r' := hrest
        obtain ⟨_, hlast, rfl⟩ := hrest.map_inv
        exact .var hd hlast
      | some e =>
        obtain ⟨_, r₁, hd, hrest⟩ := h.bind_inv fun _ ↦
          ((expr_careful _ e).map some).bind fun _ ↦ (unclean_kept.define name).bind fun _ ↦ .pure
        obtain ⟨_, r₂, he, hrest⟩ := hrest.bind_inv fun _ ↦ (unclean_kept.define name).bind fun _ ↦ .pure
        obtain ⟨_, hlast, rfl⟩ := hrest.map_inv
        obtain ⟨_, he', rfl⟩ := Runs.fmap_inv he
        exact .initialized hd he' hlast
    | block body =>
      obtain ⟨_, hlast, rfl⟩ := h.map_inv
      obtain ⟨r₁, hbody, he⟩ := inScope_runs hlast
      exact .block hbody (by rw [he]; rfl)
    | branch condition yes no =>
      cases no with
      | none =>
        obtain ⟨_, r₁, hc, h⟩ := h.bind_inv fun _ ↦ (stmt_careful _ _).bind fun _ ↦ .pure
        obtain ⟨_, hlast, rfl⟩ := h.map_inv
        exact .branch hc hlast
      | some no =>
        obtain ⟨_, r₁, hc, h⟩ := h.bind_inv fun _ ↦
          (stmt_careful _ _).bind fun _ ↦ (stmt_careful _ _).bind fun _ ↦ .pure
        obtain ⟨_, r₂, hy, h⟩ := h.bind_inv fun _ ↦ (stmt_careful _ _).bind fun _ ↦ .pure
        obtain ⟨_, hlast, rfl⟩ := h.map_inv
        exact .branches hc hy hlast
    | loop condition body =>
      obtain ⟨_, r₁, hc, h⟩ := h.bind_inv fun _ ↦ (stmt_careful _ _).bind fun _ ↦ .pure
      obtain ⟨_, hlast, rfl⟩ := h.map_inv
      exact .loop hc hlast
    | function d =>
      have hf := unclean_kept.function .function d (Careful.mapM (stmt_careful room) d.body)
      obtain ⟨_, r₁, hd, h⟩ := h.bind_inv fun _ ↦
        (unclean_kept.define _).bind fun _ ↦ hf.bind fun _ ↦ .pure
      obtain ⟨_, r₂, hd', h⟩ := h.bind_inv fun _ ↦ hf.bind fun _ ↦ .pure
      obtain ⟨_, hlast, rfl⟩ := h.map_inv
      exact .function hd hd' hlast
    | returns keyword value =>
      cases value with
      | none =>
        obtain ⟨_, hlast, rfl⟩ := h.map_inv
        obtain rfl := checkReturn_runs hlast
        exact .returns
      | some e =>
        obtain ⟨_, r₁, hr, h⟩ := h.bind_inv fun _ ↦ (expr_careful _ _).bind fun _ ↦ .pure
        obtain ⟨_, hlast, rfl⟩ := h.map_inv
        exact .returnsValue hr hlast
    | cls name methods =>
      have hm : Careful (methods.mapM (method room)) := .mapM (method_careful room) methods
      obtain ⟨r₀, hinside, he₀⟩ := inClass_runs h
      obtain ⟨_, r₁, hd, hrest⟩ := hinside.bind_inv fun _ ↦
        (unclean_kept.define _).bind fun _ ↦ (unclean_kept.inScope _ hm).bind fun _ ↦ .pure
      obtain ⟨_, r₂, hd', hrest⟩ := hrest.bind_inv fun _ ↦ (unclean_kept.inScope _ hm).bind fun _ ↦ .pure
      obtain ⟨_, hlast, rfl⟩ := hrest.map_inv
      obtain ⟨r₃, hmethods, he₁⟩ := inScope_runs hlast
      exact .cls hd hd' hmethods (by rw [he₀, he₁]; rfl)
    | ofExpr e =>
      obtain ⟨_, hlast, rfl⟩ := h.map_inv
      exact .ofExpr hlast
    | unknown kind =>
      obtain ⟨_, h, -⟩ := h.map_inv
      exact absurd h not_runs_halt

end Forms
end Resolving
end TreeWalk
