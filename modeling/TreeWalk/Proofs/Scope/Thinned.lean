import TreeWalk.Proofs.Scope.Respelled
import TreeWalk.Proofs.Tree.Thinned

namespace TreeWalk

open Resolving

section Scopes

/-- Scopes with the spare ones, which are empty, and without them. No definition is pending right behind a
spare one. -/
inductive ScopesThinned : List Bool → List Scope → List Scope → Prop
  | nil : ScopesThinned [] [] []
  | scope {marks : List Bool} {scope : Scope} {scopes scopes' : List Scope} :
      ScopesThinned marks scopes scopes' →
      ScopesThinned (false :: marks) (scope :: scopes) (scope :: scopes')
  | spare {marks : List Bool} {scopes scopes' : List Scope} :
      (∀ scope ∈ scopes'.head?, ∀ name, scope.get? name ≠ some false) →
      ScopesThinned marks scopes scopes' → ScopesThinned (true :: marks) (.empty :: scopes) scopes'

namespace ScopesThinned

variable {marks : List Bool} {scopes scopes' : List Scope} {name : String}

theorem refl : ∀ scopes : List Scope,
    ScopesThinned (List.replicate scopes.length false) scopes scopes
  | [] => .nil
  | _ :: scopes => .scope (refl scopes)

/-- A name is bound to the same scope: none is bound to a spare one. -/
theorem hops? (h : ScopesThinned marks scopes scopes') (name : String) :
    Option.Rel (Bypass marks) (hops? scopes name) (hops? scopes' name) := by
  induction h with
  | nil => exact .none
  | @scope marks scope scopes scopes' _ ih =>
    unfold Resolving.hops? at ih ⊢
    rw [List.findIdx?_cons, List.findIdx?_cons]
    cases scope.contains name with
    | true => exact .some .here
    | false =>
      generalize scopes.findIdx? _ = d at ih
      generalize scopes'.findIdx? _ = d' at ih
      cases ih with
      | none => exact .none
      | some hd => exact .some (.scope hd)
  | @spare marks scopes scopes' _ _ ih =>
    have hempty : Bindings.contains (.empty : Scope) name = false := rfl
    unfold Resolving.hops? at ih ⊢
    rw [List.findIdx?_cons, hempty, if_neg Bool.false_ne_true]
    generalize scopes.findIdx? _ = d at ih
    generalize scopes'.findIdx? _ = d' at ih
    cases ih with
    | none => exact .none
    | some hd => exact .some (.spare hd)

theorem head (h : ScopesThinned marks scopes scopes')
    (hhead : ∀ scope ∈ scopes.head?, scope.get? name ≠ some false) :
    ∀ scope ∈ scopes'.head?, scope.get? name ≠ some false := by
  cases h with
  | nil => exact hhead
  | scope => exact hhead
  | spare hsettled => exact fun scope hscope ↦ hsettled scope hscope name

theorem has_iff (h : ScopesThinned marks scopes scopes') (hmarks : Declares marks) :
    Has scopes' name ↔ Has scopes name := by
  cases h with
  | nil | scope => exact Iff.rfl
  | spare => exact absurd rfl hmarks

theorem markIn (h : ScopesThinned marks scopes scopes') (hmarks : Declares marks) (defined : Bool) :
    ScopesThinned marks (markIn name defined scopes) (markIn name defined scopes') := by
  cases h with
  | nil => exact .nil
  | scope h => exact .scope h
  | spare => exact absurd rfl hmarks

theorem tail (h : ScopesThinned (false :: marks) scopes scopes') :
    ScopesThinned marks scopes.tail scopes'.tail := by
  cases h with
  | scope h => exact h

end ScopesThinned

end Scopes

/-- Two states of the walk in scopes that are thinned. At the second nothing has gone wrong. -/
structure Resolution.Thinned (marks : List Bool) (r r' : Resolution) : Prop where
  scopes : ScopesThinned marks r.scopes r'.scopes
  role_eq : r'.role = r.role
  inClass_eq : r'.inClass = r.inClass
  clean : r'.Clean

namespace Resolution.Thinned

variable {marks : List Bool} {r r' : Resolution}

theorem refl (hr : r.Clean) : r.Thinned (List.replicate r.scopes.length false) r :=
  ⟨.refl r.scopes, rfl, rfl, hr⟩

theorem linked {name : Token} (h : r.Thinned marks r') (kind : RefKind) (mark : Option Nat) :
    (r.linked kind name mark).Thinned marks (r'.linked kind name mark) := by
  have hhops := h.scopes.hops? name.lexeme
  unfold Resolution.linked
  generalize Resolving.hops? r.scopes name.lexeme = d at hhops ⊢
  generalize Resolving.hops? r'.scopes name.lexeme = d' at hhops ⊢
  cases hhops with
  | none => exact h
  | some => exact ⟨h.scopes, h.role_eq, h.inClass_eq, h.clean⟩

theorem markIn {name : String} (h : r.Thinned marks r') (hmarks : Declares marks) (defined : Bool) :
    (r.within (markIn name defined r.scopes)).Thinned marks
      (r'.within (markIn name defined r'.scopes)) :=
  ⟨h.scopes.markIn hmarks defined, h.role_eq, h.inClass_eq, h.clean⟩

theorem inside (h : r.Thinned marks r') (scope : Scope) :
    (r.within (scope :: r.scopes)).Thinned (false :: marks) (r'.within (scope :: r'.scopes)) :=
  ⟨.scope h.scopes, h.role_eq, h.inClass_eq, h.clean⟩

theorem outside (h : r.Thinned (false :: marks) r') :
    (r.within r.scopes.tail).Thinned marks (r'.within r'.scopes.tail) :=
  ⟨h.scopes.tail, h.role_eq, h.inClass_eq, h.clean⟩

theorem spare (h : r.Thinned marks r')
    (hsettled : ∀ scope ∈ r'.scopes.head?, ∀ name, scope.get? name ≠ some false) :
    (r.within (.empty :: r.scopes)).Thinned (true :: marks) r' :=
  ⟨.spare hsettled h.scopes, h.role_eq, h.inClass_eq, h.clean⟩

theorem withRole (h : r.Thinned marks r') (role : Role) :
    Resolution.Thinned marks { r with role } { r' with role } :=
  ⟨h.scopes, rfl, h.inClass_eq, h.clean⟩

theorem withClass (h : r.Thinned marks r') (inClass : Bool) :
    Resolution.Thinned marks { r with inClass } { r' with inClass } :=
  ⟨h.scopes, h.role_eq, rfl, h.clean⟩

end Resolution.Thinned

namespace Resolving

variable {α β : Type} {marks : List Bool} {r r₁ : Resolution}

/-- Where a walk goes well with the spare scopes, another does so without them, and the results are related. -/
def Thins (marks : List Bool) (S : α → α → Prop) (act act' : Resolving α) : Prop :=
  ∀ ⦃r a r₁ r'⦄, Runs act r a r₁ → r.Thinned marks r' →
    ∃ a' r₁', Runs act' r' a' r₁' ∧ S a a' ∧ r₁.Thinned marks r₁'

namespace Thins

variable {S : α → α → Prop} {T : β → β → Prop} {act act' : Resolving α} {f f' : α → Resolving β}
  {a a' : α}

theorem pure (h : S a a') : Thins marks S (pure a) (pure a') := by
  intro r b r₁ r' hwalk hr
  obtain ⟨rfl, rfl, -⟩ := runs_pure.mp hwalk
  exact ⟨a', r', .pure hr.clean, h, hr⟩

theorem bind (h : Thins marks S act act') (hf : ∀ a, Careful (f a))
    (hrest : ∀ a a', S a a' → Thins marks T (f a) (f' a')) :
    Thins marks T (act >>= f) (act' >>= f') := by
  intro r b r₁ r' hwalk hr
  obtain ⟨a, r₂, hact, hwalk⟩ := hwalk.bind_inv hf
  obtain ⟨a', r₂', hact', ha, hr₂⟩ := h hact hr
  obtain ⟨b', r₁', hwalk', hb, hr₁⟩ := hrest a a' ha hwalk hr₂
  exact ⟨b', r₁', hact'.bind hwalk', hb, hr₁⟩

theorem map {g g' : α → β} (h : Thins marks S act act') (hg : ∀ a a', S a a' → T (g a) (g' a')) :
    Thins marks T (act >>= fun a ↦ Pure.pure (g a)) (act' >>= fun a ↦ Pure.pure (g' a)) :=
  h.bind (fun _ ↦ .pure) fun a a' ha ↦ .pure (hg a a' ha)

theorem of_not_runs (h : ∀ {r a r₁}, ¬ Runs act r a r₁) : Thins marks S act act' :=
  fun _ _ _ _ hwalk ↦ absurd hwalk h

theorem unhalted (h : Thins marks S act act') :
    Thins marks S (get >>= fun r ↦ if r.halted.isSome = true then Pure.pure a else act)
      (get >>= fun r ↦ if r.halted.isSome = true then Pure.pure a' else act') := by
  intro r b r₁ r' hwalk hr
  have hwalk := hwalk.of_get
  split at hwalk
  · next hhalted =>
    obtain ⟨-, -, hclean⟩ := runs_pure.mp hwalk
    rw [hclean.1] at hhalted
    cases hhalted
  · obtain ⟨b', r₁', hwalk', hb, hr₁⟩ := h hwalk hr
    exact ⟨b', r₁', .unhalted hr.clean hwalk', hb, hr₁⟩

theorem inScope (scope : Scope) (h : Thins (false :: marks) S act act') :
    Thins marks S (inScope scope act) (inScope scope act') := by
  intro r a r₁ r' hwalk hr
  obtain ⟨r₂, hact, rfl⟩ := inScope_runs hwalk
  obtain ⟨a', r₂', hact', ha, hr₂⟩ := h hact (hr.inside scope)
  exact ⟨a', _, hact'.inScope, ha, hr₂.outside⟩

theorem inFunction (role : Role) (h : Thins marks S act act') :
    Thins marks S (inFunction role act) (inFunction role act') := by
  intro r a r₁ r' hwalk hr
  obtain ⟨r₂, hact, rfl⟩ := inFunction_runs hwalk
  obtain ⟨a', r₂', hact', ha, hr₂⟩ := h hact (hr.withRole role)
  exact ⟨a', _, hact'.inFunction, ha, hr.role_eq ▸ hr₂.withRole r.role⟩

theorem inClass (h : Thins marks S act act') : Thins marks S (inClass act) (inClass act') := by
  intro r a r₁ r' hwalk hr
  obtain ⟨r₂, hact, rfl⟩ := inClass_runs hwalk
  obtain ⟨a', r₂', hact', ha, hr₂⟩ := h hact (hr.withClass true)
  exact ⟨a', _, hact'.inClass, ha, hr.inClass_eq ▸ hr₂.withClass r.inClass⟩

theorem mapM {g : α → Resolving β} (as : List α) (hcareful : ∀ a, Careful (g a))
    (hg : ∀ a ∈ as, Thins marks T (g a) (g a)) :
    Thins marks (List.Forall₂ T) (as.mapM g) (as.mapM g) := by
  induction as with
  | nil => exact pure .nil
  | cons a as ih =>
    rw [List.mapM_cons]
    exact (hg a (.head _)).bind (fun _ ↦ (Careful.mapM hcareful as).bind fun _ ↦ .pure)
      fun b b' hb ↦ (ih fun a ha ↦ hg a (.tail _ ha)).map fun bs bs' hbs ↦ .cons hb hbs

theorem refl (h : Thins (List.replicate r.scopes.length false) S act act) (hwalk : Runs act r a r₁)
    (hr : r.Clean) : S a a := by
  obtain ⟨a', r₁', hwalk', ha, -⟩ := h hwalk (.refl hr)
  obtain ⟨rfl, -⟩ := hwalk.unique hwalk'
  exact ha

end Thins

section Steps

variable {name : Token}

theorem link_thins (kind : RefKind) (name : Token) (ref : Ref) :
    Thins marks (Ref.Thinned marks) (link kind name ref) (link kind name ref) := by
  intro r ref₁ r₁ r' hwalk hr
  have hclean := hwalk.clean (unclean_kept.link kind name ref)
  obtain ⟨rfl, rfl⟩ := hwalk.unique (link_goes hclean kind name ref)
  exact ⟨_, _, link_goes hr.clean kind name ref, ⟨hr.scopes.hops? name.lexeme, rfl⟩,
    hr.linked kind ref.mark⟩

theorem checkInitialized_thins (name : Token) :
    Thins marks (fun _ _ ↦ True) (checkInitialized name) (checkInitialized name) := by
  intro r u r₁ r' hwalk hr
  obtain ⟨rfl, hinit⟩ := checkInitialized_runs hwalk
  exact ⟨(), r', checkInitialized_goes hr.clean (hr.scopes.head hinit), trivial, hr⟩

theorem declare_thins (hmarks : Declares marks) (name : Token) :
    Thins marks (fun _ _ ↦ True) (declare name) (declare name) := by
  intro r u r₁ r' hwalk hr
  have hfresh := (hr.scopes.has_iff hmarks).not.mpr (declare_fresh hwalk)
  exact ⟨(), _, declare_goes hr.clean hfresh, trivial, declare_runs hwalk ▸ hr.markIn hmarks false⟩

theorem define_thins (hmarks : Declares marks) (name : Token) :
    Thins marks (fun _ _ ↦ True) (define name) (define name) := by
  intro r u r₁ r' hwalk hr
  exact ⟨(), _, mark_goes hr.clean _ _, trivial, define_runs hwalk ▸ hr.markIn hmarks true⟩

theorem parameters_thin (ts : List Token) :
    Thins (false :: marks) (fun _ _ ↦ True) (parameters ts) (parameters ts) := by
  induction ts with
  | nil => exact .pure trivial
  | cons t ts ih =>
    exact (declare_thins declares_scope t).bind
      (fun _ ↦ (unclean_kept.define t).bind fun _ ↦ unclean_kept.parameters ts) fun _ _ _ ↦
      (define_thins declares_scope t).bind (fun _ ↦ unclean_kept.parameters ts) fun _ _ _ ↦ ih

theorem checkReturn_thins (keyword : Token) (hasValue : Bool) :
    Thins marks (fun _ _ ↦ True) (checkReturn keyword hasValue) (checkReturn keyword hasValue) := by
  intro r u r₁ r' hwalk hr
  obtain rfl := checkReturn_runs hwalk
  refine ⟨(), r', ?_, trivial, hr⟩
  have hwalk := hwalk.of_get
  refine Runs.bind (⟨rfl, hr.clean⟩ : Runs get r' r' r') ?_
  rw [hr.role_eq]
  revert hwalk
  cases r₁.role with
  | none => exact fun hwalk ↦ absurd hwalk not_runs_complain
  | initializer =>
    cases hasValue with
    | false => exact fun _ ↦ .pure hr.clean
    | true => exact fun hwalk ↦ absurd hwalk not_runs_complain
  | function | method => exact fun _ ↦ .pure hr.clean

end Steps

section Trees

/-- What an expression gives without the spare scopes is thinned. -/
theorem expr_thins {e : Expr} (he : e.Regular) : ∀ room,
    Thins marks (Expr.Thinned marks) (expr room e) (expr room e)
  | 0 | 1 => by
    unfold expr
    exact .of_not_runs not_runs_tooDeep
  | room + 2 => by
    unfold expr
    refine .unhalted ?_
    cases he with
    | literal => exact .pure .literal
    | group he => exact (expr_thins he room).map fun _ _ ↦ .group
    | unary he => exact (expr_thins he room).map fun _ _ ↦ .unary
    | binary hl hr =>
      exact (expr_thins hl room).bind (fun _ ↦ (expr_careful _ _).bind fun _ ↦ .pure) fun _ _ ha ↦
        (expr_thins hr room).map fun _ _ ↦ .binary ha
    | logical hl hr =>
      exact (expr_thins hl room).bind (fun _ ↦ (expr_careful _ _).bind fun _ ↦ .pure) fun _ _ ha ↦
        (expr_thins hr room).map fun _ _ ↦ .logical ha
    | @var name ref =>
      exact (checkInitialized_thins name).bind
        (fun _ ↦ (unclean_kept.link _ _ _).bind fun _ ↦ .pure) fun _ _ _ ↦
        (link_thins .read name ref).map fun _ _ ↦ .var
    | @assign name _ ref he =>
      exact (expr_thins he room).bind (fun _ ↦ (unclean_kept.link _ _ _).bind fun _ ↦ .pure)
        fun _ _ ha ↦ (link_thins .write name ref).map fun _ _ href ↦ .assign href ha
    | @call _ _ es he hes =>
      exact (expr_thins he room).bind
        (fun _ ↦ (Careful.mapM (expr_careful room) es).bind fun _ ↦ .pure) fun _ _ ha ↦
        (Thins.mapM es (expr_careful room) fun e hmem ↦ expr_thins (hes e hmem) room).map
          fun _ _ ↦ .call ha
    | get he => exact (expr_thins he room).map fun _ _ ↦ .get
    | set ho hv =>
      exact (expr_thins hv room).bind (fun _ ↦ (expr_careful _ _).bind fun _ ↦ .pure) fun _ _ hb ↦
        (expr_thins ho room).map fun _ _ ha ↦ .set ha hb
    | @self keyword ref =>
      intro r a r₁ r' hwalk hr
      have hwalk := hwalk.of_get
      split at hwalk
      · next hclass =>
        obtain ⟨a', r₁', hwalk', ha, hr₁⟩ :=
          (link_thins .self keyword ref).map (fun _ _ ↦ Expr.Thinned.self) hwalk hr
        refine ⟨a', r₁', Runs.bind (⟨rfl, hr.clean⟩ : Runs get r' r' r') ?_, ha, hr₁⟩
        rw [hr.inClass_eq, if_pos hclass]
        exact hwalk'
      · obtain ⟨_, _, hcomplain, -⟩ := hwalk.bind_inv fun _ ↦ .pure
        exact absurd hcomplain not_runs_complain

mutual

theorem function_thins (role : Role) : ∀ (room : Nat) {marks : List Bool} (d : FunDecl),
    (∀ s ∈ d.body, s.Regular) →
    Thins marks (FunDecl.Thinned marks) (function role (·.mapM (stmt room)) d)
      (function role (·.mapM (stmt room)) d)
  | room, marks, .mk name params body => fun hd ↦ by
    rw [function_eq]
    have hbody := Thins.mapM body (stmt_careful room) fun s hs ↦
      @stmt_thins room (false :: marks) s (hd s hs) (.inl declares_scope)
    refine .inFunction role (.inScope .empty ((parameters_thin params).bind
      (fun _ ↦ (Careful.mapM (stmt_careful room) body).bind fun _ ↦ .pure) fun _ _ _ ↦
      hbody.map fun _ _ hss ↦ .mk (Stmt.allThinned_iff.mpr hss)))
termination_by room => room + 1

/-- So is what a statement gives, if it declares nothing right inside a spare scope. -/
theorem stmt_thins : ∀ (room : Nat) {marks : List Bool} {s : Stmt}, s.Regular →
    Declares marks ∨ s.declared? = none →
    Thins marks (Stmt.Thinned marks) (stmt room s) (stmt room s)
  | 0, _, _ | 1, _, _ | 2, _, _ | 3, _, _ => fun _ _ ↦ by
    unfold stmt
    exact .of_not_runs not_runs_tooDeep
  | room + 4, marks, s => fun hs hplain ↦ by
    unfold stmt
    refine .unhalted ?_
    cases hs with
    | empty => exact .pure .empty
    | expression he => exact (expr_thins he _).map fun _ _ ↦ .expression
    | print he => exact (expr_thins he _).map fun _ _ ↦ .print
    | @var name initializer _ hi =>
      have hmarks : Declares marks := hplain.resolve_right (by simp [Stmt.declared?])
      cases initializer with
      | none =>
        have hvalue : Thins marks (Option.Rel (Expr.Thinned marks)) (pure none) (pure none) :=
          .pure .none
        exact (declare_thins hmarks name).bind
          (fun _ ↦ Keeps.pure.bind fun _ ↦ (unclean_kept.define name).bind fun _ ↦ .pure)
          fun _ _ _ ↦ hvalue.bind (fun _ ↦ (unclean_kept.define name).bind fun _ ↦ .pure) fun _ _ hi ↦
            (define_thins hmarks name).map fun _ _ _ ↦ .var hmarks hi
      | some e =>
        have hvalue : Thins marks (Option.Rel (Expr.Thinned marks)) (some <$> expr (room + 2) e)
            (some <$> expr (room + 2) e) :=
          (expr_thins (hi e rfl) (room + 2)).map fun _ _ ↦ .some
        exact (declare_thins hmarks name).bind
          (fun _ ↦ ((expr_careful _ e).map some).bind fun _ ↦
            (unclean_kept.define name).bind fun _ ↦ .pure) fun _ _ _ ↦
          hvalue.bind (fun _ ↦ (unclean_kept.define name).bind fun _ ↦ .pure) fun _ _ hi ↦
            (define_thins hmarks name).map fun _ _ _ ↦ .var hmarks hi
    | @block body hbody =>
      exact (Thins.inScope .empty (.mapM body (stmt_careful _) fun s hs ↦
        stmt_thins (room + 1) (hbody s hs) (.inl declares_scope))).map
          fun _ _ hss ↦ .block (Stmt.allThinned_iff.mpr hss)
    | @branch condition yes no hc hyes hyes' hno hno' =>
      have hyes : Thins marks (Stmt.Thinned marks) (stmt (room + 2) yes) (stmt (room + 2) yes) :=
        stmt_thins (room + 2) hyes (.inr hyes')
      cases no with
      | none =>
        exact (expr_thins hc _).bind (fun _ ↦ (stmt_careful _ _).bind fun _ ↦ .pure) fun _ _ hc ↦
          hyes.map fun _ _ ↦ .branch hc
      | some no =>
        have hno : Thins marks (Stmt.Thinned marks) (stmt (room + 2) no) (stmt (room + 2) no) :=
          stmt_thins (room + 2) (hno no rfl) (.inr (hno' no rfl))
        exact (expr_thins hc _).bind
          (fun _ ↦ (stmt_careful _ _).bind fun _ ↦ (stmt_careful _ _).bind fun _ ↦ .pure)
          fun _ _ hc ↦ hyes.bind (fun _ ↦ (stmt_careful _ _).bind fun _ ↦ .pure) fun _ _ hyes ↦
          hno.map fun _ _ ↦ .branches hc hyes
    | loop hc hbody hbody' =>
      have hbody := @stmt_thins (room + 2) marks _ hbody (.inr hbody')
      exact (expr_thins hc _).bind (fun _ ↦ (stmt_careful _ _).bind fun _ ↦ .pure) fun _ _ hc ↦
        hbody.map fun _ _ ↦ .loop hc
    | @function d hd =>
      have hmarks : Declares marks := hplain.resolve_right (by simp [Stmt.declared?])
      have hcareful := unclean_kept.function .function d (Careful.mapM (stmt_careful room) d.body)
      exact (declare_thins hmarks d.name).bind
        (fun _ ↦ (unclean_kept.define _).bind fun _ ↦ hcareful.bind fun _ ↦ .pure) fun _ _ _ ↦
        (define_thins hmarks d.name).bind (fun _ ↦ hcareful.bind fun _ ↦ .pure) fun _ _ _ ↦
        (function_thins .function room d hd).map fun _ _ ↦ .function hmarks
    | @returns keyword value hvalue =>
      cases value with
      | none => exact (checkReturn_thins keyword false).map fun _ _ _ ↦ .returns .none
      | some e =>
        exact (checkReturn_thins keyword true).bind
          (fun _ ↦ (expr_careful _ _).bind fun _ ↦ .pure) fun _ _ _ ↦
          (expr_thins (hvalue e rfl) _).map fun _ _ he ↦ .returns (.some he)
    | @cls name ds hds =>
      have hmarks : Declares marks := hplain.resolve_right (by simp [Stmt.declared?])
      have hcareful : Careful (ds.mapM (method room)) := .mapM (method_careful room) ds
      have hmethods := Thins.mapM ds (method_careful room) fun d hd ↦
        @function_thins (methodRole d) room (false :: marks) d (hds d hd)
      exact .inClass <| (declare_thins hmarks name).bind
        (fun _ ↦ (unclean_kept.define _).bind fun _ ↦
          (unclean_kept.inScope _ hcareful).bind fun _ ↦ .pure) fun _ _ _ ↦
        (define_thins hmarks name).bind
          (fun _ ↦ (unclean_kept.inScope _ hcareful).bind fun _ ↦ .pure) fun _ _ _ ↦
        (hmethods.inScope thisScope).map fun _ _ hds ↦ .cls hmarks (FunDecl.allThinned_iff.mpr hds)
termination_by room => room

end

end Trees

end Resolving

end TreeWalk
