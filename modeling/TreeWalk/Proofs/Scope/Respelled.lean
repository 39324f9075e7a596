import TreeWalk.Proofs.Scope.Program
import TreeWalk.Proofs.Scope.Renamed
import TreeWalk.Proofs.Scope.Spelling

namespace TreeWalk

/-- Two links of the same distance, whose names may be spelled differently. -/
structure Link.Renamed (x y : String) (l l' : Link) : Prop where
  kind_eq : l'.kind = l.kind
  name : l.name.Renamed x y l'.name
  hops_eq : l'.hops = l.hops
  mark_eq : l'.mark = l.mark

/-- Two states of the walk at which nothing has gone wrong, in scopes that are respelled. -/
structure Resolution.Respelled (x y : String) (marks : List Bool) (r r' : Resolution) : Prop where
  scopes : ScopesRespelled x y marks r.scopes r'.scopes
  role_eq : r'.role = r.role
  inClass_eq : r'.inClass = r.inClass
  links : List.Forall₂ (Link.Renamed x y) r.links.toList r'.links.toList
  clean : r'.Clean

namespace Resolution

def linked (r : Resolution) (kind : RefKind) (name : Token) (mark : Option Nat) : Resolution :=
  match Resolving.hops? r.scopes name.lexeme with
  | none => r
  | some hops => { r with links := r.links.push ⟨kind, name, hops, mark⟩ }

theorem linked_clean {r : Resolution} (hr : r.Clean) (kind : RefKind) (name : Token)
    (mark : Option Nat) : (r.linked kind name mark).Clean := by
  unfold linked
  split
  · exact hr
  · exact hr

variable {x y : String} {marks : List Bool} {r r' : Resolution}

theorem Respelled.linked {name name' : Token} (h : r.Respelled x y marks r')
    (hname : name.Respelled x y (markAt marks (Resolving.hops? r.scopes name.lexeme)) name')
    (kind : RefKind) (mark : Option Nat) :
    (r.linked kind name mark).Respelled x y marks (r'.linked kind name' mark) := by
  have hhops := h.scopes.hops?_eq hname.known
  rw [← hname.lexeme_eq] at hhops
  unfold Resolution.linked
  rw [hhops]
  cases Resolving.hops? r.scopes name.lexeme with
  | none => exact h
  | some hops =>
    refine { h with links := ?_, clean := h.clean }
    rw [Array.toList_push, Array.toList_push]
    exact List.rel_append h.links (.cons ⟨rfl, hname.renamed, rfl, rfl⟩ .nil)

theorem Respelled.markIn {name name' : Token} (h : r.Respelled x y marks r')
    (hname : name.Respelled x y (markAt marks (some 0)) name') (defined : Bool) :
    (r.within (markIn name.lexeme defined r.scopes)).Respelled x y marks
      (r'.within (markIn name'.lexeme defined r'.scopes)) :=
  { h with scopes := hname.lexeme_eq ▸ h.scopes.markIn hname.known defined, clean := h.clean }

theorem Respelled.inside {anew : Bool} {scope scope' : Scope} (h : r.Respelled x y marks r')
    (hs : scope.Respelled x y anew Eq scope') :
    (r.within (scope :: r.scopes)).Respelled x y (anew :: marks)
      (r'.within (scope' :: r'.scopes)) :=
  { h with scopes := .cons hs h.scopes, clean := h.clean }

theorem Respelled.outside {anew : Bool} (h : r.Respelled x y (anew :: marks) r') :
    (r.within r.scopes.tail).Respelled x y marks (r'.within r'.scopes.tail) :=
  { h with scopes := h.scopes.tail, clean := h.clean }

theorem Respelled.withRole (h : r.Respelled x y marks r') (role : Role) :
    Resolution.Respelled x y marks { r with role } { r' with role } :=
  { h with role_eq := rfl, clean := h.clean }

theorem Respelled.withClass (h : r.Respelled x y marks r') (inClass : Bool) :
    Resolution.Respelled x y marks { r with inClass } { r' with inClass } :=
  { h with inClass_eq := rfl, clean := h.clean }

end Resolution

namespace Resolving

variable {α β : Type} {r r₁ r₂ r' : Resolution} {room : Nat}

section Rules

variable {act : Resolving α} {f : α → Resolving β} {a : α} {b : β}

theorem Runs.unique {a' : α} (h : Runs act r a r₁) (h' : Runs act r a' r₂) : a = a' ∧ r₁ = r₂ :=
  Prod.mk.inj (h.1.symm.trans h'.1)

theorem Runs.pure (hr : r.Clean) : Runs (pure a) r a r := ⟨rfl, hr⟩

theorem Runs.bind (h : Runs act r a r₁) (h' : Runs (f a) r₁ b r₂) : Runs (act >>= f) r b r₂ := by
  refine ⟨?_, h'.2⟩
  rw [StateT.run_bind, h.1]
  exact h'.1

theorem Runs.map {g : α → β} (h : Runs act r a r₁) :
    Runs (act >>= fun a ↦ Pure.pure (g a)) r (g a) r₁ := h.bind (.pure h.2)

theorem Runs.unhalted {a' : α} (hr : r.Clean) (h : Runs act r a r₁) :
    Runs (get >>= fun r ↦ if r.halted.isSome = true then Pure.pure a' else act) r a r₁ := by
  refine Runs.bind (⟨rfl, hr⟩ : Runs get r r r) ?_
  rw [if_neg (by simp [hr.1])]
  exact h

theorem Runs.inScope {scope : Scope} (h : Runs act (r.within (scope :: r.scopes)) a r₁) :
    Runs (inScope scope act) r a (r₁.within r₁.scopes.tail) := by
  refine ⟨?_, h.2⟩
  have hrun : (Resolving.inScope scope act).run r =
      ((act.run (r.within (scope :: r.scopes))).1,
        (act.run (r.within (scope :: r.scopes))).2.within
          (act.run (r.within (scope :: r.scopes))).2.scopes.tail) := rfl
  rw [hrun, h.1]

theorem Runs.inFunction {role : Role} (h : Runs act { r with role } a r₁) :
    Runs (inFunction role act) r a { r₁ with role := r.role } := by
  refine ⟨?_, h.2⟩
  have hrun : (Resolving.inFunction role act).run r =
      ((act.run { r with role }).1, { (act.run { r with role }).2 with role := r.role }) := rfl
  rw [hrun, h.1]

theorem Runs.inClass (h : Runs act { r with inClass := true } a r₁) :
    Runs (inClass act) r a { r₁ with inClass := r.inClass } := by
  refine ⟨?_, h.2⟩
  have hrun : (Resolving.inClass act).run r =
      ((act.run { r with inClass := true }).1,
        { (act.run { r with inClass := true }).2 with inClass := r.inClass }) := rfl
  rw [hrun, h.1]

theorem RunsAll.runs {f : α → Resolving β} {as : List α} {bs : List β} (h : RunsAll f r as bs r₁)
    (hr : r.Clean) : Runs (as.mapM f) r bs r₁ := ⟨h.run_eq, h.clean hr⟩

theorem link_goes (hr : r.Clean) (kind : RefKind) (name : Token) (ref : Ref) :
    Runs (link kind name ref) r { ref with hops := hops? r.scopes name.lexeme }
      (r.linked kind name ref.mark) := by
  refine .unhalted hr ⟨?_, Resolution.linked_clean hr _ _ _⟩
  unfold Resolution.linked
  cases hops? r.scopes name.lexeme <;> rfl

theorem mark_goes (hr : r.Clean) (name : String) (defined : Bool) :
    Runs (mark name defined) r () (r.within (markIn name defined r.scopes)) :=
  ⟨mark_run name defined r, hr⟩

theorem declare_goes {name : Token} (hr : r.Clean) (hname : ¬ Has r.scopes name.lexeme) :
    Runs (declare name) r () (r.within (markIn name.lexeme false r.scopes)) := by
  refine Runs.bind (⟨rfl, hr⟩ : Runs get r r r) ?_
  split
  · next hnil =>
    have hsame : r.within (markIn name.lexeme false r.scopes) = r := by
      rw [hnil, markIn, ← hnil]
      rfl
    rw [hsame]
    exact .pure hr
  · next scope outer hcons =>
    have hnot : ¬ scope.contains name.lexeme = true := fun h ↦
      hname ⟨scope, by rw [hcons]; rfl, h⟩
    dsimp only
    rw [if_neg hnot]
    exact mark_goes hr _ _

theorem checkInitialized_goes {name : Token} (hr : r.Clean)
    (h : ∀ scope ∈ r.scopes.head?, scope.get? name.lexeme ≠ some false) :
    Runs (checkInitialized name) r () r := by
  refine Runs.bind (⟨rfl, hr⟩ : Runs get r r r) ?_
  rw [if_neg]
  · exact .pure hr
  · cases hhead : r.scopes.head? with
    | none => simp
    | some scope => simpa using h scope hhead

end Rules

section Forms

variable {name : Token} {ref : Ref}

theorem var_goes (hr : r.Clean) (h : ∀ scope ∈ r.scopes.head?, scope.get? name.lexeme ≠ some false) :
    Runs (expr (room + 2) (.var name ref)) r
      (.var name { ref with hops := hops? r.scopes name.lexeme }) (r.linked .read name ref.mark) := by
  unfold expr
  exact .unhalted hr ((checkInitialized_goes hr h).bind (link_goes hr .read name ref).map)

theorem assign_goes {e e' : Expr} (hr : r.Clean) (h : Runs (expr room e) r e' r₁) :
    Runs (expr (room + 2) (.assign name e ref)) r
      (.assign name e' { ref with hops := hops? r₁.scopes name.lexeme })
      (r₁.linked .write name ref.mark) := by
  unfold expr
  exact .unhalted hr (h.bind (link_goes h.2 .write name ref).map)

theorem self_goes (hr : r.Clean) (hclass : r.inClass = true) :
    Runs (expr (room + 2) (.self name ref)) r
      (.self name { ref with hops := hops? r.scopes name.lexeme }) (r.linked .self name ref.mark) := by
  unfold expr
  refine .unhalted hr (Runs.bind (⟨rfl, hr⟩ : Runs get r r r) ?_)
  rw [if_pos hclass]
  exact (link_goes hr .self name ref).map

theorem block_goes {ss ss' : List Stmt} (hr : r.Clean)
    (h : Runs (ss.mapM (stmt (room + 1))) (r.within (.empty :: r.scopes)) ss' r₁) :
    Runs (stmt (room + 4) (.block ss)) r (.block ss') (r₁.within r₁.scopes.tail) := by
  unfold stmt
  exact .unhalted hr h.inScope.map

theorem function_goes {role : Role} {params : List Token} {body body' : List Stmt} {u : Unit}
    (hp : Runs (parameters params) (Resolution.within { r with role } (.empty :: r.scopes)) u r₁)
    (hb : Runs (body.mapM (stmt room)) r₁ body' r₂) :
    Runs (function role (·.mapM (stmt room)) (.mk name params body)) r (.mk name params body')
      { r₂.within r₂.scopes.tail with role := r.role } := by
  rw [function_eq]
  exact (Runs.inScope (r := { r with role }) (hp.bind hb.map)).inFunction

theorem cls_goes {ds ds' : List FunDecl} {u u' : Unit} {r₃ : Resolution} (hr : r.Clean)
    (hd : Runs (declare name) { r with inClass := true } u r₁) (hd' : Runs (define name) r₁ u' r₂)
    (h : Runs (ds.mapM (method room)) (r₂.within (thisScope :: r₂.scopes)) ds' r₃) :
    Runs (stmt (room + 4) (.cls name ds)) r (.cls name ds')
      { r₃.within r₃.scopes.tail with inClass := r.inClass } := by
  unfold stmt
  exact .unhalted hr (hd.bind (hd'.bind h.inScope.map)).inClass

end Forms

section Follows

variable {x y : String} {marks : List Bool} {name name' : Token}

theorem has_respelled {scopes scopes' : List Scope} (h : ScopesRespelled x y marks scopes scopes')
    (hname : name.Respelled x y (markAt marks (some 0)) name') :
    Has scopes' name'.lexeme ↔ Has scopes name.lexeme := by
  cases h with
  | nil => simp [Has]
  | @cons anew marks scope scope' scopes scopes' hs _ =>
    have hcontains : scope'.contains name'.lexeme = scope.contains name.lexeme := by
      rw [hname.lexeme_eq]
      exact hs.contains_eq hname.known
    simp [Has, hcontains]

theorem declare_follows {u : Unit} (h : Runs (declare name) r u r₁)
    (hname : name.Respelled x y (markAt marks (some 0)) name') (hr : r.Respelled x y marks r') :
    ∃ r₁', Runs (declare name') r' () r₁' ∧ r₁.Respelled x y marks r₁' := by
  have hfresh := (has_respelled hr.scopes hname).not.mpr (declare_fresh h)
  exact ⟨_, declare_goes hr.clean hfresh, declare_runs h ▸ hr.markIn hname false⟩

theorem define_follows {u : Unit} (h : Runs (define name) r u r₁)
    (hname : name.Respelled x y (markAt marks (some 0)) name') (hr : r.Respelled x y marks r') :
    ∃ r₁', Runs (define name') r' () r₁' ∧ r₁.Respelled x y marks r₁' :=
  ⟨_, mark_goes hr.clean _ _, define_runs h ▸ hr.markIn hname true⟩

theorem parameters_follow {anew : Bool} {ts ts' : List Token} {u : Unit}
    (h : Runs (parameters ts) r u r₁) (hts : List.Forall₂ (Token.Respelled x y anew) ts ts')
    (hr : r.Respelled x y (anew :: marks) r') :
    ∃ r₁', Runs (parameters ts') r' () r₁' ∧ r₁.Respelled x y (anew :: marks) r₁' := by
  induction hts generalizing r r' with
  | nil =>
    obtain ⟨-, rfl, -⟩ := runs_pure.mp h
    exact ⟨r', .pure hr.clean, hr⟩
  | @cons t t' ts ts' ht _ ih =>
    obtain ⟨_, r₂, hd, hrest⟩ := h.bind_inv fun _ ↦
      (unclean_kept.define t).bind fun _ ↦ unclean_kept.parameters ts
    obtain ⟨_, r₃, hd', hrest⟩ := hrest.bind_inv fun _ ↦ unclean_kept.parameters ts
    have hhere : t.Respelled x y (markAt (anew :: marks) (some 0)) t' := ht
    obtain ⟨r₂', hwalk, hr₂⟩ := declare_follows hd hhere hr
    obtain ⟨r₃', hwalk', hr₃⟩ := define_follows hd' hhere hr₂
    obtain ⟨r₁', hrest', hr₁⟩ := ih hrest hr₃
    exact ⟨r₁', hwalk.bind (hwalk'.bind hrest'), hr₁⟩

theorem checkReturn_follows {keyword : Token} {hasValue : Bool} {u : Unit}
    (h : Runs (checkReturn keyword hasValue) r u r₁) (hr : r.Respelled x y marks r') :
    Runs (checkReturn keyword hasValue) r' () r' := by
  have h := h.of_get
  refine Runs.bind (⟨rfl, hr.clean⟩ : Runs get r' r' r') ?_
  rw [hr.role_eq]
  cases hrole : r.role with
  | none =>
    rw [hrole] at h
    exact absurd h not_runs_complain
  | initializer =>
    rw [hrole] at h
    dsimp only at h ⊢
    split at h
    · exact absurd h not_runs_complain
    · next hvalue =>
      rw [if_neg hvalue]
      exact .pure hr.clean
  | function => exact .pure hr.clean
  | method => exact .pure hr.clean

theorem RunsAll.follow {f : α → Resolving β} {A : α → α → Prop} {S : β → β → Prop} {as : List α}
    {bs bs' : List β} (h : RunsAll f r as bs r₁) (hbs : List.Forall₂ S bs bs')
    (hr : r.Respelled x y marks r')
    (hf : ∀ a ∈ as, ∀ {r b r₁ b' r'}, Runs (f a) r b r₁ → S b b' → r.Respelled x y marks r' →
      ∃ a' r₁', A a a' ∧ Runs (f a') r' b' r₁' ∧ r₁.Respelled x y marks r₁') :
    ∃ as' r₁', List.Forall₂ A as as' ∧ RunsAll f r' as' bs' r₁' ∧ r₁.Respelled x y marks r₁' := by
  induction h generalizing bs' r' with
  | nil =>
    cases hbs
    exact ⟨[], r', .nil, .nil, hr⟩
  | cons ha _ ih =>
    cases hbs with
    | cons hb hbs =>
      obtain ⟨a', r₂', hA, hwalk, hr₂⟩ := hf _ (.head _) ha hb hr
      obtain ⟨as', r₁', hAs, hwalks, hr₁⟩ := ih hbs hr₂ fun a h ↦ hf a (.tail _ h)
      exact ⟨a' :: as', r₁', .cons hA hAs, .cons hwalk hwalks, hr₁⟩

theorem expr_follows {room : Nat} {e a a' : Expr} {r r₁ r' : Resolution}
    (hwalk : Runs (expr room e) r a r₁) (ha : a.Respelled x y marks a')
    (hr : r.Respelled x y marks r') :
    ∃ e' r₁', e.Alike (Token.Renamed x y) e' ∧ Runs (expr room e') r' a' r₁' ∧
      r₁.Respelled x y marks r₁' := by
  have hclean := hwalk.clean (expr_careful _ _)
  obtain ⟨room, rfl, hform⟩ := expr_runs hwalk
  cases hform with
  | literal =>
    cases ha
    exact ⟨_, r', .literal, by unfold expr; exact .unhalted hr.clean (.pure hr.clean), hr⟩
  | group h =>
    cases ha with
    | group ha =>
      obtain ⟨e', r₁', he, hwalk', hr₁⟩ := expr_follows h ha hr
      exact ⟨_, r₁', .group he, by unfold expr; exact .unhalted hr.clean hwalk'.map, hr₁⟩
  | unary h =>
    cases ha with
    | unary ha =>
      obtain ⟨e', r₁', he, hwalk', hr₁⟩ := expr_follows h ha hr
      exact ⟨_, r₁', .unary (.refl _) he, by unfold expr; exact .unhalted hr.clean hwalk'.map, hr₁⟩
  | binary h h' =>
    cases ha with
    | binary ha hb =>
      obtain ⟨l', r₂', hl, hwalkl, hr₂⟩ := expr_follows h ha hr
      obtain ⟨e', r₁', he, hwalk', hr₁⟩ := expr_follows h' hb hr₂
      exact ⟨_, r₁', .binary hl (.refl _) he,
        by unfold expr; exact .unhalted hr.clean (hwalkl.bind hwalk'.map), hr₁⟩
  | logical h h' =>
    cases ha with
    | logical ha hb =>
      obtain ⟨l', r₂', hl, hwalkl, hr₂⟩ := expr_follows h ha hr
      obtain ⟨e', r₁', he, hwalk', hr₁⟩ := expr_follows h' hb hr₂
      exact ⟨_, r₁', .logical hl (.refl _) he,
        by unfold expr; exact .unhalted hr.clean (hwalkl.bind hwalk'.map), hr₁⟩
  | @var _ ref _ hinit =>
    obtain ⟨-, rfl⟩ := hwalk.unique (var_goes hclean hinit)
    cases ha with
    | @var _ name' _ hname =>
      have hinit' := hr.scopes.head hname.known hinit
      have hhops := hr.scopes.hops?_eq hname.known
      rw [← hname.lexeme_eq] at hinit' hhops
      have hgoes := @var_goes r' room name' ref hr.clean hinit'
      rw [hhops] at hgoes
      exact ⟨_, _, .var hname.renamed, hgoes, hr.linked hname .read _⟩
  | @assign _ ref _ _ r₂ _ h =>
    obtain ⟨-, rfl⟩ := hwalk.unique (assign_goes hclean h)
    cases ha with
    | @assign _ name' _ _ _ hname ha =>
      obtain ⟨e', r₂', he, hwalk', hr₂⟩ := expr_follows h ha hr
      have hhops := hr₂.scopes.hops?_eq hname.known
      rw [← hname.lexeme_eq] at hhops
      have hgoes := @assign_goes r' r₂' room name' ref _ _ hr.clean hwalk'
      rw [hhops] at hgoes
      exact ⟨_, _, .assign hname.renamed he, hgoes, hr₂.linked hname .write _⟩
  | call h h' =>
    cases ha with
    | call ha has =>
      obtain ⟨e', r₂', he, hwalk', hr₂⟩ := expr_follows h ha hr
      obtain ⟨es', r₁', hes, hwalks, hr₁⟩ :=
        (h'.all (expr_careful room)).follow has hr₂ fun _ _ ↦ expr_follows
      exact ⟨_, r₁', .call he (.refl _) hes,
        by unfold expr; exact .unhalted hr.clean (hwalk'.bind (hwalks.runs hr₂.clean).map), hr₁⟩
  | get h =>
    cases ha with
    | get ha =>
      obtain ⟨e', r₁', he, hwalk', hr₁⟩ := expr_follows h ha hr
      exact ⟨_, r₁', .get he (.refl _), by unfold expr; exact .unhalted hr.clean hwalk'.map, hr₁⟩
  | set h h' =>
    cases ha with
    | set ha hb =>
      obtain ⟨i', r₂', hi, hwalki, hr₂⟩ := expr_follows h hb hr
      obtain ⟨e', r₁', he, hwalk', hr₁⟩ := expr_follows h' ha hr₂
      exact ⟨_, r₁', .set he (.refl _) hi,
        by unfold expr; exact .unhalted hr.clean (hwalki.bind hwalk'.map), hr₁⟩
  | @self keyword ref _ hclass =>
    obtain ⟨-, rfl⟩ := hwalk.unique (self_goes hclean hclass)
    cases ha with
    | self hname =>
      have hhops := hr.scopes.hops?_eq hname.known
      rw [← hname.lexeme_eq] at hhops
      have hgoes := @self_goes r' room keyword ref hr.clean (hr.inClass_eq.trans hclass)
      rw [hhops] at hgoes
      exact ⟨_, _, .self hname.renamed, hgoes, hr.linked hname .self _⟩
  | ofStmt => cases ha
termination_by room

theorem OfFunction.name_eq {role : Role} {d d' : FunDecl} (h : OfFunction room role r d d' r₁) :
    d'.name = d.name := by
  cases h
  rfl

theorem this_respelled (hy : y ≠ "this") : thisScope.Respelled x y false Eq thisScope :=
  .cons ⟨hy.symm, (spelling_false _).symm, rfl⟩ .nil

mutual

theorem function_follows (hy : y ≠ "this") {room : Nat} {role : Role} {d a a' : FunDecl}
    {r r₁ r' : Resolution} {marks : List Bool}
    (hwalk : Runs (function role (·.mapM (stmt room)) d) r a r₁) (ha : a.Respelled x y marks a')
    (hr : r.Respelled x y marks r') :
    ∃ d' r₁', d.Alike (Token.Renamed x y) d' ∧ d'.name = d.name ∧
      Runs (function role (·.mapM (stmt room)) d') r' a' r₁' ∧ r₁.Respelled x y marks r₁' := by
  cases function_runs hwalk with
  | mk hp hb =>
    obtain ⟨-, rfl⟩ := hwalk.unique (function_goes hp hb)
    cases ha with
    | mk hparams hbody =>
      obtain ⟨r₂', hp', hr₂⟩ := parameters_follow hp hparams ((hr.withRole role).inside .empty)
      obtain ⟨body', r₃', hA, hb', hr₃⟩ := (hb.all (stmt_careful room)).follow
        (Stmt.allRespelled_iff.mp hbody) hr₂ fun _ _ ↦ stmt_follows hy
      refine ⟨_, _, .mk (.refl _) (hparams.imp fun _ _ h ↦ h.renamed) hA, rfl,
        function_goes hp' (hb'.runs hr₂.clean), ?_⟩
      rw [hr.role_eq]
      exact hr₃.outside.withRole r.role
termination_by room + 1

theorem stmt_follows (hy : y ≠ "this") {room : Nat} {s a a' : Stmt} {r r₁ r' : Resolution}
    {marks : List Bool} (hwalk : Runs (stmt room s) r a r₁) (ha : a.Respelled x y marks a')
    (hr : r.Respelled x y marks r') :
    ∃ s' r₁', s.Alike (Token.Renamed x y) s' ∧ Runs (stmt room s') r' a' r₁' ∧
      r₁.Respelled x y marks r₁' := by
  have hclean := hwalk.clean (stmt_careful _ _)
  obtain ⟨room, rfl, hform⟩ := stmt_runs hwalk
  cases hform with
  | empty =>
    cases ha
    exact ⟨_, r', .empty, by unfold stmt; exact .unhalted hr.clean (.pure hr.clean), hr⟩
  | expression h =>
    cases ha with
    | expression ha =>
      obtain ⟨e', r₁', he, hwalk', hr₁⟩ := expr_follows h ha hr
      exact ⟨_, r₁', .expression he, by unfold stmt; exact .unhalted hr.clean hwalk'.map, hr₁⟩
  | print h =>
    cases ha with
    | print ha =>
      obtain ⟨e', r₁', he, hwalk', hr₁⟩ := expr_follows h ha hr
      exact ⟨_, r₁', .print he, by unfold stmt; exact .unhalted hr.clean hwalk'.map, hr₁⟩
  | var hd hd' =>
    cases ha with
    | var hname hi =>
      cases hi
      obtain ⟨r₂', hwalk', hr₂⟩ := declare_follows hd hname hr
      obtain ⟨r₁', hwalk'', hr₁⟩ := define_follows hd' hname hr₂
      refine ⟨_, r₁', .var hname.renamed .none, ?_, hr₁⟩
      unfold stmt
      exact .unhalted hr.clean (hwalk'.bind ((Runs.pure hr₂.clean).bind hwalk''.map))
  | initialized hd h hd' =>
    cases ha with
    | var hname hi =>
      cases hi with
      | some ha =>
        obtain ⟨r₂', hwalk', hr₂⟩ := declare_follows hd hname hr
        obtain ⟨e', r₃', he, hwalke, hr₃⟩ := expr_follows h ha hr₂
        obtain ⟨r₁', hwalk'', hr₁⟩ := define_follows hd' hname hr₃
        refine ⟨_, r₁', .var hname.renamed (.some he), ?_, hr₁⟩
        unfold stmt
        exact .unhalted hr.clean (hwalk'.bind (hwalke.map.bind hwalk''.map))
  | block h =>
    obtain ⟨-, rfl⟩ := hwalk.unique (block_goes hclean h)
    cases ha with
    | @block _ anew _ _ ha =>
      have hin := hr.inside (@Bindings.Respelled.empty Bool x y anew Eq)
      obtain ⟨ss', r₁', hA, hwalk', hr₁⟩ := (h.all (stmt_careful _)).follow
        (Stmt.allRespelled_iff.mp ha) hin fun _ _ ↦ stmt_follows hy
      exact ⟨_, _, .block hA, block_goes hr.clean (hwalk'.runs hin.clean), hr₁.outside⟩
  | branch h h' =>
    cases ha with
    | branch ha hyes =>
      obtain ⟨c', r₂', hc, hwalk', hr₂⟩ := expr_follows h ha hr
      obtain ⟨yes', r₁', hA, hwalk'', hr₁⟩ := stmt_follows hy h' hyes hr₂
      refine ⟨_, r₁', .branch hc hA .none, ?_, hr₁⟩
      unfold stmt
      exact .unhalted hr.clean (hwalk'.bind hwalk''.map)
  | branches h h' h'' =>
    cases ha with
    | branches ha hyes hno =>
      obtain ⟨c', r₂', hc, hwalkc, hr₂⟩ := expr_follows h ha hr
      obtain ⟨yes', r₃', hA, hwalk', hr₃⟩ := stmt_follows hy h' hyes hr₂
      obtain ⟨no', r₁', hA', hwalk'', hr₁⟩ := stmt_follows hy h'' hno hr₃
      refine ⟨_, r₁', .branch hc hA (.some hA'), ?_, hr₁⟩
      unfold stmt
      exact .unhalted hr.clean (hwalkc.bind (hwalk'.bind hwalk''.map))
  | loop h h' =>
    cases ha with
    | loop ha hbody =>
      obtain ⟨c', r₂', hc, hwalk', hr₂⟩ := expr_follows h ha hr
      obtain ⟨body', r₁', hA, hwalk'', hr₁⟩ := stmt_follows hy h' hbody hr₂
      refine ⟨_, r₁', .loop hc hA, ?_, hr₁⟩
      unfold stmt
      exact .unhalted hr.clean (hwalk'.bind hwalk''.map)
  | function hd hd' h =>
    cases ha with
    | function hname ha =>
      rw [(function_runs h).name_eq] at hname
      obtain ⟨r₂', hwalk', hr₂⟩ := declare_follows hd hname hr
      obtain ⟨r₃', hwalk'', hr₃⟩ := define_follows hd' hname hr₂
      obtain ⟨d', r₁', hA, hname', hwalkd, hr₁⟩ := function_follows hy h ha hr₃
      rw [← hname'] at hwalk' hwalk''
      refine ⟨_, r₁', .function hA, ?_, hr₁⟩
      unfold stmt
      exact .unhalted hr.clean (hwalk'.bind (hwalk''.bind hwalkd.map))
  | returns =>
    cases ha with
    | returns he =>
      cases he
      unfold stmt at hwalk
      have hwalk := hwalk.of_get
      rw [if_neg (by simp [hclean.1])] at hwalk
      obtain ⟨_, hreturn, -⟩ := hwalk.map_inv
      refine ⟨_, r', .returns (.refl _) .none, ?_, hr⟩
      unfold stmt
      exact .unhalted hr.clean (checkReturn_follows hreturn hr).map
  | returnsValue hreturn h =>
    cases ha with
    | returns he =>
      cases he with
      | some ha =>
        obtain rfl := checkReturn_runs hreturn
        obtain ⟨e', r₁', he, hwalk', hr₁⟩ := expr_follows h ha hr
        refine ⟨_, r₁', .returns (.refl _) (.some he), ?_, hr₁⟩
        unfold stmt
        exact .unhalted hr.clean ((checkReturn_follows hreturn hr).bind hwalk'.map)
  | cls hd hd' h =>
    obtain ⟨-, rfl⟩ := hwalk.unique (cls_goes hclean hd hd' h)
    cases ha with
    | cls hname ha =>
      obtain ⟨r₂', hwalk', hr₂⟩ := declare_follows hd hname (hr.withClass true)
      obtain ⟨r₃', hwalk'', hr₃⟩ := define_follows hd' hname hr₂
      have hin := hr₃.inside (this_respelled hy)
      obtain ⟨ds', r₁', hA, hwalks, hr₁⟩ := (h.all (method_careful room)).follow
        (FunDecl.allRespelled_iff.mp ha) hin (A := FunDecl.Alike (Token.Renamed x y))
        fun _ _ _ _ _ _ _ hwalk hb hr ↦ by
          obtain ⟨d', r₁', hA, hname, hwalk', hr₁⟩ := function_follows hy hwalk hb hr
          refine ⟨d', r₁', hA, ?_, hr₁⟩
          rw [method, methodRole, hname]
          exact hwalk'
      refine ⟨_, _, .cls (.refl _) hA, cls_goes hr.clean hwalk' hwalk'' (hwalks.runs hin.clean), ?_⟩
      rw [hr.inClass_eq]
      exact hr₁.outside.withClass r.inClass
  | ofExpr => cases ha
termination_by room

end

/-- What resolving a program gives, respelled, is what resolving a program like it gives. -/
theorem RunsAll.topLevel_follow (hy : y ≠ "this") {ss as as' : List Stmt} {r₁ : Resolution}
    (h : RunsAll (topLevel room) {} ss as r₁) (has : Stmt.AllRespelled x y [] as as') :
    ∃ ss' r₁', List.Forall₂ (Stmt.Alike (Token.Renamed x y)) ss ss' ∧
      RunsAll (topLevel room) {} ss' as' r₁' ∧ r₁.Respelled x y [] r₁' := by
  have hstart : Resolution.Respelled x y [] {} {} := ⟨.nil, rfl, rfl, .nil, rfl, rfl⟩
  refine h.follow (Stmt.allRespelled_iff.mp has) hstart fun s _ r a r₁ a' r' hwalk ha hr ↦ ?_
  obtain ⟨s', r₁', hA, hwalk', hr₁⟩ := stmt_follows hy (topLevel_runs hwalk) ha hr
  exact ⟨s', r₁', hA, hwalk'.topLevel, hr₁⟩

end Follows

end Resolving

end TreeWalk
