import TreeWalk.Proofs.Scope.Program
import TreeWalk.Proofs.Tree.Alike

namespace TreeWalk

/-- Two states of the walk in the same place. What was linked may differ, and where complaints are. -/
structure Resolution.Alike (r r' : Resolution) : Prop where
  scopes_eq : r'.scopes = r.scopes
  role_eq : r'.role = r.role
  inClass_eq : r'.inClass = r.inClass
  halted_eq : r'.halted = r.halted
  faults : r.faults = #[] → r'.faults = #[]

structure Resolution.Inside (r r' : Resolution) : Prop where
  role_eq : r'.role = r.role
  inClass_eq : r'.inClass = r.inClass

namespace Resolution

variable {r r' r'' : Resolution}

theorem Inside.refl (r : Resolution) : r.Inside r := ⟨rfl, rfl⟩

theorem Inside.trans (h : r.Inside r') (h' : r'.Inside r'') : r.Inside r'' :=
  ⟨h'.role_eq.trans h.role_eq, h'.inClass_eq.trans h.inClass_eq⟩

theorem Alike.refl (r : Resolution) : r.Alike r := ⟨rfl, rfl, rfl, rfl, id⟩

theorem Alike.symm_trans (h : r.Alike r') (h' : r.Alike r'') (hr : r.Clean) : r'.Alike r'' :=
  ⟨h'.scopes_eq.trans h.scopes_eq.symm, h'.role_eq.trans h.role_eq.symm,
    h'.inClass_eq.trans h.inClass_eq.symm, h'.halted_eq.trans h.halted_eq.symm,
    fun _ ↦ h'.faults hr.2⟩

theorem Alike.trans (h : r.Alike r') (h' : r'.Alike r'') : r.Alike r'' :=
  ⟨h'.scopes_eq.trans h.scopes_eq, h'.role_eq.trans h.role_eq, h'.inClass_eq.trans h.inClass_eq,
    h'.halted_eq.trans h.halted_eq, fun hr ↦ h'.faults (h.faults hr)⟩

theorem Alike.clean (h : r.Alike r') (hr : r.Clean) : r'.Clean :=
  ⟨h.halted_eq.trans hr.1, h.faults hr.2⟩

end Resolution

namespace Resolving

variable {α β : Type}

/-- From states that are alike two walks give related values and come to states that are alike, inside the
function and class where they started. -/
def Alike (S : α → α → Prop) (act act' : Resolving α) : Prop :=
  ∀ ⦃r r'⦄, r.Alike r' → S (act.run r).1 (act'.run r').1 ∧
    (after act r).Alike (after act' r') ∧ r.Inside (after act r)

section Alike

variable {S : α → α → Prop} {T : β → β → Prop} {act act' : Resolving α}
  {f f' : α → Resolving β} {a a' : α}

theorem Alike.pure (h : S a a') : Alike S (pure a) (pure a') :=
  fun r _ hr ↦ ⟨h, hr, .refl r⟩

theorem Alike.bind (h : Alike S act act') (hf : ∀ a a', S a a' → Alike T (f a) (f' a')) :
    Alike T (act >>= f) (act' >>= f') := by
  intro r r' hr
  obtain ⟨ha, hafter, hinside⟩ := h hr
  obtain ⟨hb, hafter', hinside'⟩ := hf _ _ ha hafter
  exact ⟨hb, hafter', hinside.trans hinside'⟩

theorem Alike.map {g g' : α → β} (h : Alike S act act') (hg : ∀ a a', S a a' → T (g a) (g' a')) :
    Alike T (g <$> act) (g' <$> act') := by
  intro r r' hr
  obtain ⟨ha, hafter, hinside⟩ := h hr
  exact ⟨hg _ _ ha, hafter, hinside⟩

theorem Alike.get : Alike Resolution.Alike (get : Resolving Resolution) get :=
  fun r _ hr ↦ ⟨hr, hr, .refl r⟩

theorem Alike.mapM {P : α → α → Prop} {as as' : List α} (has : List.Forall₂ P as as')
    (hf : ∀ a a', P a a' → Alike T (f a) (f' a')) :
    Alike (List.Forall₂ T) (as.mapM f) (as'.mapM f') := by
  induction has with
  | nil => exact .pure .nil
  | cons ha _ ih =>
    rw [List.mapM_cons, List.mapM_cons]
    exact (hf _ _ ha).bind fun _ _ hb ↦ ih.bind fun _ _ hbs ↦ .pure (.cons hb hbs)

theorem Alike.unlessHalted {act act' : Resolving Unit} (h : Alike Eq act act') :
    Alike Eq (unlessHalted act) (unlessHalted act') := by
  refine Alike.get.bind fun r r' hr ↦ ?_
  rw [hr.halted_eq]
  split
  · exact h
  · exact .pure rfl

theorem halt_alike (h : Halt) : Alike Eq (halt h) (halt h) :=
  fun _ _ hr ↦ ⟨rfl, { hr with halted_eq := rfl }, rfl, rfl⟩

theorem complain_alike (t t' : Token) (c : Complaint) : Alike Eq (complain t c) (complain t' c) :=
  Alike.unlessHalted fun _ _ hr ↦
    ⟨rfl, { hr with faults := fun h ↦ absurd h Array.push_ne_empty }, rfl, rfl⟩

theorem inScope_alike (scope : Scope) (h : Alike S act act') :
    Alike S (inScope scope act) (inScope scope act') := by
  intro r r' hr
  have hscopes : Resolution.Alike { r with scopes := scope :: r.scopes }
      { r' with scopes := scope :: r'.scopes } :=
    { hr with scopes_eq := congrArg (scope :: ·) hr.scopes_eq }
  obtain ⟨ha, hafter, hinside⟩ := h hscopes
  exact ⟨ha, { hafter with scopes_eq := congrArg List.tail hafter.scopes_eq }, hinside.role_eq,
    hinside.inClass_eq⟩

theorem inFunction_alike (role : Role) (h : Alike S act act') :
    Alike S (inFunction role act) (inFunction role act') := by
  intro r r' hr
  have hrole : Resolution.Alike { r with role } { r' with role } := { hr with role_eq := rfl }
  obtain ⟨ha, hafter, hinside⟩ := h hrole
  exact ⟨ha, { hafter with role_eq := hr.role_eq }, rfl, hinside.inClass_eq⟩

theorem inClass_alike (h : Alike S act act') : Alike S (inClass act) (inClass act') := by
  intro r r' hr
  have hclass : Resolution.Alike { r with inClass := true } { r' with inClass := true } :=
    { hr with inClass_eq := rfl }
  obtain ⟨ha, hafter, hinside⟩ := h hclass
  exact ⟨ha, { hafter with inClass_eq := hr.inClass_eq }, hinside.role_eq, rfl⟩

theorem mark_alike (name : String) (defined : Bool) :
    Alike Eq (mark name defined) (mark name defined) := by
  intro r r' hr
  rw [after, after, mark_run, mark_run, hr.scopes_eq]
  exact ⟨rfl, { hr with scopes_eq := rfl }, rfl, rfl⟩

theorem checkReturn_alike (t t' : Token) (hasValue : Bool) :
    Alike Eq (checkReturn t hasValue) (checkReturn t' hasValue) := by
  refine Alike.get.bind fun r r' hr ↦ ?_
  rw [hr.role_eq]
  split
  · exact complain_alike _ _ _
  · split
    · exact complain_alike _ _ _
    · exact .pure rfl
  · exact .pure rfl
  · exact .pure rfl

section Tokens

variable {t t' : Token} (ht : t.Like t')
include ht

theorem declare_alike : Alike Eq (declare t) (declare t') := by
  refine Alike.get.bind fun r r' hr ↦ ?_
  rw [hr.scopes_eq, ht.lexeme_eq]
  split
  · exact .pure rfl
  · dsimp only
    split
    · exact (complain_alike _ _ _).bind fun _ _ _ ↦ mark_alike _ _
    · exact mark_alike _ _

theorem define_alike : Alike Eq (define t) (define t') := by
  unfold define
  rw [ht.lexeme_eq]
  exact mark_alike _ _

theorem checkInitialized_alike : Alike Eq (checkInitialized t) (checkInitialized t') := by
  refine Alike.get.bind fun r r' hr ↦ ?_
  rw [hr.scopes_eq, ht.lexeme_eq]
  split
  · exact complain_alike _ _ _
  · exact .pure rfl

theorem link_alike (kind : RefKind) (ref : Ref) : Alike Eq (link kind t ref) (link kind t' ref) := by
  intro r r' hr
  unfold link after
  simp only [StateT.run_bind, StateT.run_get, pure_bind, hr.halted_eq, hr.scopes_eq, ht.lexeme_eq]
  split
  · exact ⟨rfl, hr, .refl r⟩
  · split
    · exact ⟨rfl, hr, .refl r⟩
    · exact ⟨rfl, { hr with scopes_eq := rfl, halted_eq := rfl }, rfl, rfl⟩

end Tokens

theorem parameters_alike {R : Token → Token → Prop} (hR : ∀ t t', R t t' → t.Like t')
    {ts ts' : List Token} (hts : List.Forall₂ R ts ts') :
    Alike Eq (parameters ts) (parameters ts') := by
  induction hts with
  | nil => exact .pure rfl
  | cons ht _ ih =>
    have hlike := hR _ _ ht
    exact (declare_alike hlike).bind fun _ _ _ ↦ (define_alike hlike).bind fun _ _ _ ↦ ih

theorem function_alike {R : Token → Token → Prop} (hR : ∀ t t', R t t' → t.Like t') (role : Role)
    {body body' : List Stmt → Resolving (List Stmt)} {d d' : FunDecl} (hd : d.Alike R d')
    (h : Alike (List.Forall₂ (Stmt.Alike R)) (body d.body) (body' d'.body)) :
    Alike (FunDecl.Alike R) (function role body d) (function role body' d') := by
  rw [function_eq, function_eq]
  refine inFunction_alike _ (inScope_alike _ ?_)
  exact (parameters_alike hR hd.params).bind fun _ _ _ ↦ h.bind fun _ _ hss ↦
    .pure (.mk hd.name hd.params hss)

theorem methodRole_alike {R : Token → Token → Prop} (hR : ∀ t t', R t t' → t.Like t')
    {d d' : FunDecl} (hd : d.Alike R d') : methodRole d' = methodRole d := by
  rw [methodRole, methodRole, (hR _ _ hd.name).lexeme_eq]

end Alike

section Trees

variable {R : Token → Token → Prop} (hR : ∀ t t', R t t' → t.Like t')
include hR

theorem expr_alike : ∀ room e e', Expr.Alike R e e' →
    Alike (Expr.Alike R) (expr room e) (expr room e')
  | 0, _, _ | 1, _, _ => fun he ↦ by
    unfold expr
    exact (halt_alike _).unlessHalted.bind fun _ _ _ ↦ .pure he
  | room + 2, e, e' => fun he ↦ by
    unfold expr
    refine Alike.get.bind fun r r' hr ↦ ?_
    rw [hr.halted_eq]
    split
    · exact .pure he
    · cases he with
      | literal => exact .pure .literal
      | group he => exact (expr_alike room _ _ he).bind fun _ _ he ↦ .pure (.group he)
      | unary ht he => exact (expr_alike room _ _ he).bind fun _ _ he ↦ .pure (.unary ht he)
      | binary hl ht hr =>
        exact (expr_alike room _ _ hl).bind fun _ _ hl ↦ (expr_alike room _ _ hr).bind fun _ _ hr ↦
          .pure (.binary hl ht hr)
      | logical hl ht hr =>
        exact (expr_alike room _ _ hl).bind fun _ _ hl ↦ (expr_alike room _ _ hr).bind fun _ _ hr ↦
          .pure (.logical hl ht hr)
      | @var _ _ ref ht =>
        have hlike := hR _ _ ht
        exact (checkInitialized_alike hlike).bind fun _ _ _ ↦
          (link_alike hlike _ ref).bind fun _ _ href ↦ .pure (href ▸ .var ht)
      | @assign _ _ ref _ _ ht he =>
        exact (expr_alike room _ _ he).bind fun _ _ he ↦
          (link_alike (hR _ _ ht) _ ref).bind fun _ _ href ↦ .pure (href ▸ .assign ht he)
      | call he ht hes =>
        exact (expr_alike room _ _ he).bind fun _ _ he ↦
          (Alike.mapM hes (expr_alike room)).bind fun _ _ hes ↦ .pure (.call he ht hes)
      | get he ht => exact (expr_alike room _ _ he).bind fun _ _ he ↦ .pure (.get he ht)
      | set he ht hi =>
        exact (expr_alike room _ _ hi).bind fun _ _ hi ↦ (expr_alike room _ _ he).bind fun _ _ he ↦
          .pure (.set he ht hi)
      | @self _ _ ref ht =>
        refine Alike.get.bind fun r r' hr ↦ ?_
        rw [hr.inClass_eq]
        split
        · exact (link_alike (hR _ _ ht) _ ref).bind fun _ _ href ↦ .pure (href ▸ .self ht)
        · exact (complain_alike _ _ _).bind fun _ _ _ ↦ .pure (.self ht)

theorem stmt_alike : ∀ room s s', Stmt.Alike R s s' →
    Alike (Stmt.Alike R) (stmt room s) (stmt room s')
  | 0, _, _ | 1, _, _ | 2, _, _ | 3, _, _ => fun hs ↦ by
    unfold stmt
    exact (halt_alike _).unlessHalted.bind fun _ _ _ ↦ .pure hs
  | room + 4, s, s' => fun hs ↦ by
    have hexpr := expr_alike hR (room + 2)
    unfold stmt
    refine Alike.get.bind fun r r' hr ↦ ?_
    rw [hr.halted_eq]
    split
    · exact .pure hs
    · cases hs with
      | empty => exact .pure .empty
      | expression he => exact (hexpr _ _ he).bind fun _ _ he ↦ .pure (.expression he)
      | print he => exact (hexpr _ _ he).bind fun _ _ he ↦ .pure (.print he)
      | var ht he =>
        have hlike := hR _ _ ht
        refine (declare_alike hlike).bind fun _ _ _ ↦ ?_
        cases he with
        | none =>
          exact (Alike.pure .none).bind fun _ _ he ↦ (define_alike hlike).bind fun _ _ _ ↦
            .pure (.var ht he)
        | some he =>
          exact ((hexpr _ _ he).map fun _ _ ↦ .some).bind fun _ _ he ↦
            (define_alike hlike).bind fun _ _ _ ↦ .pure (.var ht he)
      | block hss =>
        exact (inScope_alike _ (Alike.mapM hss (stmt_alike (room + 1)))).bind fun _ _ hss ↦
          .pure (.block hss)
      | branch hc hyes hno =>
        refine (hexpr _ _ hc).bind fun _ _ hc ↦
          (stmt_alike (room + 2) _ _ hyes).bind fun _ _ hyes ↦ ?_
        cases hno with
        | none => exact .pure (.branch hc hyes .none)
        | some hno =>
          exact (stmt_alike (room + 2) _ _ hno).bind fun _ _ hno ↦
            .pure (.branch hc hyes (.some hno))
      | loop hc hbody =>
        exact (hexpr _ _ hc).bind fun _ _ hc ↦
          (stmt_alike (room + 2) _ _ hbody).bind fun _ _ hbody ↦ .pure (.loop hc hbody)
      | function hd =>
        have hlike := hR _ _ hd.name
        exact (declare_alike hlike).bind fun _ _ _ ↦ (define_alike hlike).bind fun _ _ _ ↦
          (function_alike hR _ hd (Alike.mapM hd.body (stmt_alike room))).bind fun _ _ hd ↦
            .pure (.function hd)
      | returns ht he =>
        cases he with
        | none =>
          exact (checkReturn_alike _ _ _).bind fun _ _ _ ↦ .pure (.returns ht .none)
        | some he =>
          exact (checkReturn_alike _ _ _).bind fun _ _ _ ↦ (hexpr _ _ he).bind fun _ _ he ↦
            .pure (.returns ht (.some he))
      | cls ht hds =>
        have hlike := hR _ _ ht
        refine inClass_alike ((declare_alike hlike).bind fun _ _ _ ↦
          (define_alike hlike).bind fun _ _ _ ↦
            (inScope_alike _ (Alike.mapM hds fun d d' hd ↦ ?_)).bind fun _ _ hds ↦
              .pure (.cls ht hds))
        rw [methodRole_alike hR hd]
        exact function_alike hR _ hd (Alike.mapM hd.body (stmt_alike room))

variable {room : Nat} {r r' r₁ : Resolution}

theorem topLevel_alike {s s' a : Stmt} (hs : s.Alike R s') (hr : r.Alike r')
    (h : Runs (topLevel room s) r a r₁) :
    ∃ a' r₁', Runs (topLevel room s') r' a' r₁' ∧ a.Alike R a' ∧ r₁.Alike r₁' ∧ r.Inside r₁ := by
  have hrun := topLevel_runs h
  obtain ⟨ha, hafter, hinside⟩ := stmt_alike hR room s s' hs hr
  rw [hrun.after_eq] at hafter hinside
  rw [hrun.1] at ha
  have hrun' : Runs (stmt room s') r' ((stmt room s').run r').1 (after (stmt room s') r') :=
    ⟨rfl, hafter.clean h.2⟩
  exact ⟨_, _, hrun'.topLevel, ha, hafter, hinside⟩

theorem RunsAll.alike {ss as ss' : List Stmt} (h : RunsAll (topLevel room) r ss as r₁)
    (hss : List.Forall₂ (Stmt.Alike R) ss ss') (hr : r.Alike r') :
    ∃ as' r₁', RunsAll (topLevel room) r' ss' as' r₁' ∧ List.Forall₂ (Stmt.Alike R) as as' ∧
      r₁.Alike r₁' ∧ r.Inside r₁ := by
  induction h generalizing ss' r' with
  | nil =>
    cases hss
    exact ⟨[], r', .nil, .nil, hr, .refl _⟩
  | cons ha _ ih =>
    cases hss with
    | cons hs hss =>
      obtain ⟨a', r₁', ha', hA, hr₁, hinside⟩ := topLevel_alike hR hs hr ha
      obtain ⟨as', r₂', has', hAs, hr₂, hinside'⟩ := ih hss hr₁
      exact ⟨a' :: as', r₂', .cons ha' has', .cons hA hAs, hr₂, hinside.trans hinside'⟩

/-- A program that goes well by itself goes well behind others, with the same distances, and others go
well behind it. -/
theorem RunsAll.behind {ss as ss' : List Stmt} (h : RunsAll (topLevel room) {} ss as r₁)
    (hregular : ∀ s ∈ ss, s.Regular) (hss : List.Forall₂ (Stmt.Alike R) ss ss')
    (hr : Resolution.Alike {} r) :
    ∃ as' r', RunsAll (topLevel room) r ss' as' r' ∧ List.Forall₂ (Stmt.Alike R) as as' ∧
      Resolution.Alike {} r' := by
  obtain ⟨as', r', has', hAs, hr', hinside⟩ := RunsAll.alike hR h hss hr
  obtain ⟨hhalted, hfaults⟩ := h.clean ⟨rfl, rfl⟩
  have hscopes := h.topLevel_scopes hregular rfl
  exact ⟨as', r', has', hAs, ⟨hr'.scopes_eq.trans hscopes, hr'.role_eq.trans hinside.role_eq,
    hr'.inClass_eq.trans hinside.inClass_eq, hr'.halted_eq.trans hhalted,
    fun _ ↦ hr'.faults hfaults⟩⟩

/-- At top level, wherever that is in a program, the statement is resolved to another. -/
def Resolves (room : Nat) (s a : Stmt) : Prop :=
  ∃ r r', Resolution.Alike {} r ∧ Runs (topLevel room s) r a r' ∧ Resolution.Alike {} r'

theorem RunsAll.resolves {ss as : List Stmt} (h : RunsAll (topLevel room) r ss as r₁)
    (hregular : ∀ s ∈ ss, s.Regular) (hss : List.Forall₂ (Stmt.Alike R) ss ss)
    (hr : Resolution.Alike {} r) : List.Forall₂ (Resolves room) ss as := by
  induction h with
  | nil => exact .nil
  | @cons r r₁ r' s a ss as hs _ ih =>
    cases hss with
    | cons hself hss =>
      obtain ⟨_, _, -, -, -, hinside⟩ := topLevel_alike hR hself (.refl r) hs
      have hscopes : r₁.scopes = [] :=
        RunsAll.topLevel_scopes (.cons hs .nil) (by simpa using hregular s (.head _)) hr.scopes_eq
      have hr₁ : Resolution.Alike {} r₁ :=
        ⟨hscopes, hinside.role_eq.trans hr.role_eq, hinside.inClass_eq.trans hr.inClass_eq, hs.2.1,
          fun _ ↦ hs.2.2⟩
      exact .cons ⟨r, r₁, hr, hs, hr₁⟩ (ih (fun s h ↦ hregular s (.tail _ h)) hss hr₁)

/-- Statements that are resolved each by itself are resolved in any other program too. -/
theorem resolves_again {ss as ss' : List Stmt} (h : List.Forall₂ (Resolves room) ss as)
    (hss : List.Forall₂ (Stmt.Alike R) ss ss') (hr : Resolution.Alike {} r) :
    ∃ as' r', RunsAll (topLevel room) r ss' as' r' ∧ List.Forall₂ (Stmt.Alike R) as as' := by
  induction h generalizing ss' r with
  | nil =>
    cases hss
    exact ⟨[], r, .nil, .nil⟩
  | cons hs _ ih =>
    obtain ⟨r₁, r₂, hr₁, hrun, hr₂⟩ := hs
    cases hss with
    | cons hself hss =>
      obtain ⟨a', r₁', hrun', ha, hafter, -⟩ :=
        topLevel_alike hR hself (hr₁.symm_trans hr ⟨rfl, rfl⟩) hrun
      obtain ⟨as', r', hruns, has⟩ := ih hss (hr₂.trans hafter)
      exact ⟨a' :: as', r', .cons hrun' hruns, .cons ha has⟩

end Trees

end Resolving

end TreeWalk
