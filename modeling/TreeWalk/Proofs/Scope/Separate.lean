import TreeWalk.Proofs.Scope.Program
import TreeWalk.Proofs.Scope.Uses

namespace TreeWalk

/-- The same place in the walk, with more found before. -/
def Resolution.behind (links : Array Link) (faults : Array Diagnostic) (r : Resolution) : Resolution :=
  { r with links := links ++ r.links, faults := faults ++ r.faults }

theorem Resolution.push_behind (links : Array Link) (faults : Array Diagnostic) (d : Diagnostic)
    (r : Resolution) : { r.behind links faults with faults := (r.behind links faults).faults.push d } =
      Resolution.behind links faults { r with faults := r.faults.push d } := by
  unfold behind
  rw [Array.append_push]

/-- Between two top-level statements, in no scope, function or class. -/
structure Resolution.Idle (r : Resolution) : Prop where
  scopes : r.scopes = []
  role : r.role = .none
  inClass : r.inClass = false
  halted : r.halted = none

theorem Resolution.Idle.start : Resolution.Idle {} := ⟨rfl, rfl, rfl, rfl⟩

theorem Resolution.Idle.eq_behind {r : Resolution} (h : r.Idle) : r = behind r.links r.faults {} := by
  obtain ⟨scopes, role, inClass, links, faults, halted⟩ := r
  obtain ⟨rfl, rfl, rfl, rfl⟩ := h
  simp [behind]

namespace Resolving

variable {α β : Type}

/-- A part of a walk does the same whatever was found before, and leaves that in front. -/
def Framed (act : Resolving α) : Prop := ∀ links faults r,
  act.run (r.behind links faults) = ((act.run r).1, (after act r).behind links faults)

section Framed

variable {act : Resolving α} {f : α → Resolving β}

theorem Framed.pure {a : α} : Framed (pure a : Resolving α) := fun _ _ _ ↦ rfl

theorem Framed.bind (h : Framed act) (hf : ∀ r, Framed (f (act.run r).1)) : Framed (act >>= f) := by
  intro links faults r
  rw [StateT.run_bind, h]
  exact hf r _ _ _

theorem Framed.mapM {as : List α} (hf : ∀ a ∈ as, Framed (f a)) : Framed (as.mapM f) := by
  induction as with
  | nil => exact .pure
  | cons a as ih =>
    rw [List.mapM_cons]
    exact (hf a (.head _)).bind fun _ ↦ (ih fun a ha ↦ hf a (.tail _ ha)).bind fun _ ↦ .pure

end Framed

/-- What a part of a walk does from wherever it starts: its result is one of some, it does not look at what
was found before, it leaves the place where it is, and it links some of the uses in it. -/
structure Walks (P : α → Prop) (uses : Nat → List Use) (act : Resolving α) : Prop where
  gives : ∀ r, P (act.run r).1
  framed : Framed act
  scopes_length : ∀ r, (after act r).scopes.length = r.scopes.length
  role_eq : ∀ r, (after act r).role = r.role
  inClass_eq : ∀ r, (after act r).inClass = r.inClass
  known : Keeps Known act
  links : ∀ r, ∃ new : Array Link,
    (after act r).links = r.links ++ new ∧ Link.Among new.toList (uses r.scopes.length)

abbrev Quiet (act : Resolving α) : Prop := Walks (fun _ ↦ True) (fun _ ↦ []) act

section Rules

variable {P : α → Prop} {Q : β → Prop} {uses uses' : Nat → List Use} {act : Resolving α}
  {f : α → Resolving β} {g : Resolution → Resolving α}

theorem Walks.mono {P' : α → Prop} (h : Walks P uses act) (hP : ∀ a, P a → P' a)
    (hsub : ∀ n, (uses n).Sublist (uses' n)) : Walks P' uses' act where
  gives r := hP _ (h.gives r)
  framed := h.framed
  scopes_length := h.scopes_length
  role_eq := h.role_eq
  inClass_eq := h.inClass_eq
  known := h.known
  links r := by
    obtain ⟨new, hnew, used, hused, hof⟩ := h.links r
    exact ⟨new, hnew, used, hused.trans (hsub _), hof⟩

theorem Walks.pure {a : α} (h : P a) : Walks P uses (pure a : Resolving α) where
  gives _ := h
  framed _ _ _ := rfl
  scopes_length _ := rfl
  role_eq _ := rfl
  inClass_eq _ := rfl
  known := .pure
  links _ := ⟨#[], Array.append_empty.symm, .nil⟩

theorem Walks.bind (h : Walks P uses act) (hf : ∀ a, P a → Walks Q uses' (f a)) :
    Walks Q (fun n ↦ uses n ++ uses' n) (act >>= f) where
  gives r := (hf _ (h.gives r)).gives _
  framed := h.framed.bind fun r ↦ (hf _ (h.gives r)).framed
  scopes_length r := ((hf _ (h.gives r)).scopes_length _).trans (h.scopes_length r)
  role_eq r := ((hf _ (h.gives r)).role_eq _).trans (h.role_eq r)
  inClass_eq r := ((hf _ (h.gives r)).inClass_eq _).trans (h.inClass_eq r)
  known r hr := (hf _ (h.gives r)).known _ (h.known r hr)
  links r := by
    obtain ⟨new, hnew, hamong⟩ := h.links r
    obtain ⟨new', hnew', hamong'⟩ := (hf _ (h.gives r)).links (after act r)
    rw [h.scopes_length] at hamong'
    refine ⟨new ++ new', hnew'.trans ?_, ?_⟩
    · rw [hnew, Array.append_assoc]
    · rw [Array.toList_append]
      exact hamong.append hamong'

theorem Walks.first (h : Walks P (fun _ ↦ []) act) (hf : ∀ a, P a → Walks Q uses' (f a)) :
    Walks Q uses' (act >>= f) :=
  h.bind hf

theorem Walks.last (h : Walks P uses act) (hf : ∀ a, P a → Walks Q (fun _ ↦ []) (f a)) :
    Walks Q uses (act >>= f) :=
  (h.bind hf).mono (fun _ ↦ id) fun n ↦ by simp

theorem Walks.map {g : α → β} (h : Walks P uses act) (hg : ∀ a, P a → Q (g a)) :
    Walks Q uses (g <$> act) :=
  h.last fun a ha ↦ .pure (hg a ha)

theorem Walks.get (hg : ∀ r, Walks P uses (g r))
    (hsame : ∀ links faults r, g (r.behind links faults) = g r) : Walks P uses (get >>= g) where
  gives r := (hg r).gives r
  framed links faults r := by
    have hrun := (hg r).framed links faults r
    rw [← hsame links faults r] at hrun
    rw [StateT.run_bind, StateT.run_get, pure_bind, hrun, hsame]
    rfl
  scopes_length r := (hg r).scopes_length r
  role_eq r := (hg r).role_eq r
  inClass_eq r := (hg r).inClass_eq r
  known r hr := (hg r).known r hr
  links r := (hg r).links r

theorem Walks.ite {c : Prop} [Decidable c] {act' : Resolving α} (h : Walks P uses act)
    (h' : Walks P uses act') : Walks P uses (if c then act else act') := by
  split
  · exact h
  · exact h'

theorem Walks.mapM {R : α → β → Prop} {u : α → Nat → List Use} :
    ∀ {as : List α}, (∀ a ∈ as, Walks (R a) (u a) (f a)) →
      Walks (List.Forall₂ R as) (fun n ↦ as.flatMap (u · n)) (as.mapM f)
  | [], _ => .pure .nil
  | a :: as, h => by
    rw [List.mapM_cons]
    have has : Walks (List.Forall₂ R as) _ (as.mapM f) := Walks.mapM fun a ha ↦ h a (.tail _ ha)
    exact (h a (.head _)).bind fun b hb ↦ has.last fun bs hbs ↦ .pure (.cons hb hbs)

theorem Walks.unlessHalted {act : Resolving Unit} (h : Quiet act) : Quiet (unlessHalted act) :=
  .get (fun _ ↦ .ite h (.pure trivial)) fun _ _ _ ↦ rfl

theorem Walks.inScope (scope : Scope) (h : Walks P uses act) :
    Walks P (fun n ↦ uses (n + 1)) (inScope scope act) where
  gives r := h.gives _
  framed links faults r := by
    have hrun := h.framed links faults { r with scopes := scope :: r.scopes }
    simp only [Resolution.behind] at hrun
    simp only [Resolving.inScope, Resolution.behind, after, StateT.run_bind, StateT.run_modify, pure_bind,
      bind_pure_comp, StateT.run_map, hrun]
    rfl
  scopes_length r := by
    have hlength := h.scopes_length { r with scopes := scope :: r.scopes }
    exact (List.length_tail).trans (congrArg (· - 1) hlength)
  role_eq r := h.role_eq _
  inClass_eq r := h.inClass_eq _
  known := known_kept.inScope scope h.known
  links r := h.links { r with scopes := scope :: r.scopes }

theorem Walks.inFunction (role : Role) (h : Walks P uses act) : Walks P uses (inFunction role act) where
  gives r := h.gives _
  framed links faults r := by
    have hrun := h.framed links faults { r with role }
    simp only [Resolution.behind] at hrun
    simp only [Resolving.inFunction, Resolution.behind, after, StateT.run_bind, StateT.run_get,
      StateT.run_modify, pure_bind, bind_pure_comp, StateT.run_map, hrun]
    rfl
  scopes_length r := h.scopes_length { r with role }
  role_eq _ := rfl
  inClass_eq r := h.inClass_eq { r with role }
  known := known_kept.inFunction role h.known
  links r := h.links { r with role }

theorem Walks.inClass (h : Walks P uses act) : Walks P uses (inClass act) where
  gives r := h.gives _
  framed links faults r := by
    have hrun := h.framed links faults { r with inClass := true }
    simp only [Resolution.behind] at hrun
    simp only [Resolving.inClass, Resolution.behind, after, StateT.run_bind, StateT.run_get,
      StateT.run_modify, pure_bind, bind_pure_comp, StateT.run_map, hrun]
    rfl
  scopes_length r := h.scopes_length { r with inClass := true }
  role_eq r := h.role_eq { r with inClass := true }
  inClass_eq _ := rfl
  known := known_kept.inClass h.known
  links r := h.links { r with inClass := true }

end Rules

section Steps

theorem halt_quiet : Quiet (unlessHalted (halt .tooDeep)) :=
  .unlessHalted
    { gives _ := trivial
      framed _ _ _ := rfl
      scopes_length _ := rfl
      role_eq _ := rfl
      inClass_eq _ := rfl
      known _ := known_kept.tooDeep
      links _ := ⟨#[], Array.append_empty.symm, .nil⟩ }

theorem complain_quiet (t : Token) (c : Complaint) : Quiet (complain t c) :=
  .unlessHalted
    { gives _ := trivial
      framed links faults r := Prod.ext rfl (r.push_behind links faults _)
      scopes_length _ := rfl
      role_eq _ := rfl
      inClass_eq _ := rfl
      known _ := known_kept.complaint _
      links _ := ⟨#[], Array.append_empty.symm, .nil⟩ }

theorem mark_quiet (name : String) (defined : Bool) : Quiet (mark name defined) where
  gives _ := trivial
  framed links faults r := by
    rw [after, mark_run, mark_run]
    rfl
  scopes_length r := by
    rw [after, mark_run]
    exact markIn_length ..
  role_eq r := by rw [after, mark_run]
  inClass_eq r := by rw [after, mark_run]
  known := known_kept.mark name defined
  links r := ⟨#[], by rw [after, mark_run, Array.append_empty], .nil⟩

theorem declare_quiet (name : Token) : Quiet (declare name) := by
  refine .get (fun r ↦ ?_) fun _ _ _ ↦ rfl
  split
  · exact .pure trivial
  · dsimp only
    split
    · exact (complain_quiet _ _).first fun _ _ ↦ mark_quiet _ _
    · exact mark_quiet _ _

theorem define_quiet (name : Token) : Quiet (define name) := mark_quiet _ _

theorem parameters_quiet (ts : List Token) : Quiet (parameters ts) := by
  induction ts with
  | nil => exact .pure trivial
  | cons t ts ih => exact (declare_quiet t).first fun _ _ ↦ (define_quiet t).first fun _ _ ↦ ih

theorem checkInitialized_quiet (name : Token) : Quiet (checkInitialized name) :=
  .get (fun _ ↦ .ite (complain_quiet _ _) (.pure trivial)) fun _ _ _ ↦ rfl

theorem checkReturn_quiet (keyword : Token) (hasValue : Bool) :
    Quiet (checkReturn keyword hasValue) := by
  refine .get (fun r ↦ ?_) fun _ _ _ ↦ rfl
  split
  · exact complain_quiet _ _
  · exact .ite (complain_quiet _ _) (.pure trivial)
  · exact .pure trivial
  · exact .pure trivial

def found? (name : Token) (r : Resolution) : Option Nat :=
  if r.halted.isSome then none else hops? r.scopes name.lexeme

theorem found?_lt {name : Token} {r : Resolution} {hops : Nat} (h : found? name r = some hops) :
    hops < r.scopes.length := by
  unfold found? at h
  split at h
  · cases h
  · rw [hops?, List.findIdx?_eq_some_iff_findIdx_eq] at h
    exact h.1

theorem link_run (kind : RefKind) (name : Token) (ref : Ref) (r : Resolution) :
    (link kind name ref).run r = ({ ref with hops := found? name r }, { r with
      links := r.links ++ ((found? name r).map fun hops ↦ ⟨kind, name, hops, ref.mark⟩).toArray }) := by
  unfold link found?
  rw [StateT.run_bind, StateT.run_get, pure_bind]
  cases r.halted.isSome with
  | true => rfl
  | false => cases hops? r.scopes name.lexeme <;> rfl

theorem link_walks (kind : RefKind) (name : Token) (ref : Ref) :
    Walks (fun ref' : Ref ↦ ref'.mark = ref.mark) (fun n ↦ [⟨kind, name, ref.mark, n⟩])
      (link kind name ref) where
  gives r := by rw [link_run]
  framed links faults r := by
    rw [after, link_run, link_run, Resolution.behind, Resolution.behind, Array.append_assoc]
    rfl
  scopes_length r := by rw [after, link_run]
  role_eq r := by rw [after, link_run]
  inClass_eq r := by rw [after, link_run]
  known := known_kept.link kind name ref
  links r := by
    rw [after, link_run]
    refine ⟨_, rfl, ?_⟩
    cases h : found? name r with
    | none => exact .nil
    | some hops =>
      exact ⟨[⟨kind, name, ref.mark, r.scopes.length⟩], .refl _,
        .cons ⟨rfl, rfl, rfl, found?_lt h⟩ .nil⟩

end Steps

section Trees

variable {room : Nat}

def ExprKept (e e' : Expr) : Prop := ∀ n, e'.uses n = e.uses n

def StmtKept (s s' : Stmt) : Prop := ∀ n, s'.uses n = s.uses n

def FunDeclKept (d d' : FunDecl) : Prop := ∀ n, d'.uses n = d.uses n

theorem exprs_kept {es es' : List Expr} (h : List.Forall₂ ExprKept es es') (n : Nat) :
    Expr.usesAll n es' = Expr.usesAll n es := by
  induction h with
  | nil => rfl
  | cons he _ ih => rw [Expr.usesAll, Expr.usesAll, he n, ih]

theorem stmts_kept {ss ss' : List Stmt} (h : List.Forall₂ StmtKept ss ss') (n : Nat) :
    Stmt.usesAll n ss' = Stmt.usesAll n ss := by
  induction h with
  | nil => rfl
  | cons hs _ ih => rw [Stmt.usesAll, Stmt.usesAll, hs n, ih]

theorem methods_kept {ds ds' : List FunDecl} (h : List.Forall₂ FunDeclKept ds ds') (n : Nat) :
    FunDecl.usesAll n ds' = FunDecl.usesAll n ds := by
  induction h with
  | nil => rfl
  | cons hd _ ih => rw [FunDecl.usesAll, FunDecl.usesAll, hd n, ih]

theorem exprs_walks {es : List Expr} (h : ∀ e ∈ es, Walks (ExprKept e) (e.uses ·) (expr room e)) :
    Walks (List.Forall₂ ExprKept es) (Expr.usesAll · es) (es.mapM (expr room)) :=
  (Walks.mapM h).mono (fun _ ↦ id) fun _ ↦ Expr.usesAll_eq es ▸ .refl _

theorem stmts_walks {ss : List Stmt} (h : ∀ s ∈ ss, Walks (StmtKept s) (s.uses ·) (stmt room s)) :
    Walks (List.Forall₂ StmtKept ss) (Stmt.usesAll · ss) (ss.mapM (stmt room)) :=
  (Walks.mapM h).mono (fun _ ↦ id) fun _ ↦ Stmt.usesAll_eq ss ▸ .refl _

theorem function_walks (role : Role) {d : FunDecl} {body : List Stmt → Resolving (List Stmt)}
    (h : Walks (List.Forall₂ StmtKept d.body) (Stmt.usesAll · d.body) (body d.body)) :
    Walks (FunDeclKept d) (d.uses ·) (function role body d) := by
  rw [function_eq]
  obtain ⟨name, params, ss⟩ := d
  exact .inFunction _ (.inScope _ ((parameters_quiet _).first fun _ _ ↦
    h.last fun ss' hss ↦ .pure fun n ↦ stmts_kept hss (n + 1)))

theorem methods_walks {ds : List FunDecl} {f : FunDecl → Resolving FunDecl}
    (h : ∀ d ∈ ds, Walks (FunDeclKept d) (d.uses ·) (f d)) :
    Walks (List.Forall₂ FunDeclKept ds) (FunDecl.usesAll · ds) (ds.mapM f) :=
  (Walks.mapM h).mono (fun _ ↦ id) fun _ ↦ FunDecl.usesAll_eq ds ▸ .refl _

theorem halt_walks {α : Type} {P : α → Prop} {uses : Nat → List Use} {a : α} (h : P a) :
    Walks P uses (do unlessHalted (halt .tooDeep); return a) :=
  halt_quiet.first fun _ _ ↦ .pure h

mutual

theorem expr_walks : ∀ room (e : Expr), e.known = true → Walks (ExprKept e) (e.uses ·) (expr room e)
  | 0, _, _ | 1, _, _ => by
    unfold expr
    exact halt_walks fun _ ↦ rfl
  | room + 2, e, h => by
    unfold expr
    refine .get (fun r ↦ .ite (.pure fun _ ↦ rfl) ?_) fun _ _ _ ↦ rfl
    cases e with
    | literal value => exact .pure fun _ ↦ rfl
    | group inner => exact (expr_walks room inner h).last fun _ he ↦ .pure he
    | unary operator right => exact (expr_walks room right h).last fun _ he ↦ .pure he
    | binary left operator right =>
      obtain ⟨hl, hr⟩ := Bool.and_eq_true_iff.mp h
      exact (expr_walks room left hl).bind fun _ hl ↦ (expr_walks room right hr).last fun _ hr ↦
        .pure fun n ↦ by rw [Expr.uses, Expr.uses, hl n, hr n]
    | logical left operator right =>
      obtain ⟨hl, hr⟩ := Bool.and_eq_true_iff.mp h
      exact (expr_walks room left hl).bind fun _ hl ↦ (expr_walks room right hr).last fun _ hr ↦
        .pure fun n ↦ by rw [Expr.uses, Expr.uses, hl n, hr n]
    | var name ref =>
      exact (checkInitialized_quiet name).first fun _ _ ↦ (link_walks .read name ref).last fun _ href ↦
        .pure fun n ↦ by rw [Expr.uses, Expr.uses, href]
    | assign name value ref =>
      exact (expr_walks room value h).bind fun _ he ↦ (link_walks .write name ref).last fun _ href ↦
        .pure fun n ↦ by rw [Expr.uses, Expr.uses, he n, href]
    | call callee paren arguments =>
      obtain ⟨hc, ha⟩ := Bool.and_eq_true_iff.mp h
      have harguments := exprs_walks fun e he ↦ expr_walks room e (Expr.knownAll_iff.mp ha e he)
      exact (expr_walks room callee hc).bind fun _ hc ↦ harguments.last fun _ ha ↦
        .pure fun n ↦ by rw [Expr.uses, Expr.uses, hc n, exprs_kept ha n]
    | get object name => exact (expr_walks room object h).last fun _ he ↦ .pure he
    | set object name value =>
      obtain ⟨ho, hv⟩ := Bool.and_eq_true_iff.mp h
      exact (expr_walks room value hv).bind fun _ hv ↦ (expr_walks room object ho).last fun _ ho ↦
        .pure fun n ↦ by rw [Expr.uses, Expr.uses, hv n, ho n]
    | self keyword ref =>
      refine .get (fun r ↦ .ite ?_ ?_) fun _ _ _ ↦ rfl
      · exact (link_walks .self keyword ref).last fun _ href ↦
          .pure fun n ↦ by rw [Expr.uses, Expr.uses, href]
      · exact (complain_quiet _ _).first fun _ _ ↦ .pure fun n ↦ rfl
    | ofStmt s => exact (stmt_walks (room + 1) s h).last fun _ hs ↦ .pure hs

theorem stmt_walks : ∀ room (s : Stmt), s.known = true → Walks (StmtKept s) (s.uses ·) (stmt room s)
  | 0, _, _ | 1, _, _ | 2, _, _ | 3, _, _ => by
    unfold stmt
    exact halt_walks fun _ ↦ rfl
  | room + 4, s, h => by
    unfold stmt
    refine .get (fun r ↦ .ite (.pure fun _ ↦ rfl) ?_) fun _ _ _ ↦ rfl
    cases s with
    | empty => exact .pure fun _ ↦ rfl
    | expression e => exact (expr_walks (room + 2) e h).last fun _ he ↦ .pure he
    | print e => exact (expr_walks (room + 2) e h).last fun _ he ↦ .pure he
    | var name initializer =>
      refine (declare_quiet name).first fun _ _ ↦ ?_
      cases initializer with
      | none =>
        exact (Walks.pure (P := (· = none)) rfl).first fun _ ha ↦ (define_quiet name).first fun _ _ ↦
          .pure fun _ ↦ ha ▸ rfl
      | some e =>
        have he : Walks (fun i ↦ ∃ e', i = some e' ∧ ExprKept e e') (e.uses ·)
            (some <$> expr (room + 2) e) :=
          (expr_walks (room + 2) e h).map fun e' he ↦ ⟨e', rfl, he⟩
        exact he.last fun _ hi ↦ (define_quiet name).first fun _ _ ↦ .pure (by
          obtain ⟨e', rfl, he⟩ := hi
          exact he)
    | block body =>
      have hbody := stmts_walks fun s hs ↦ stmt_walks (room + 1) s (Stmt.knownAll_iff.mp h s hs)
      exact (hbody.inScope _).last fun _ hss ↦ .pure fun n ↦ stmts_kept hss (n + 1)
    | branch condition yes no =>
      cases no with
      | none =>
        obtain ⟨hc, hyes⟩ := Bool.and_eq_true_iff.mp h
        exact (expr_walks (room + 2) condition hc).bind fun _ hc ↦
          (stmt_walks (room + 2) yes hyes).last fun _ hyes ↦
            .pure fun n ↦ by rw [Stmt.uses, Stmt.uses, hc n, hyes n]
      | some no =>
        obtain ⟨hc, hrest⟩ := Bool.and_eq_true_iff.mp h
        obtain ⟨hyes, hno⟩ := Bool.and_eq_true_iff.mp hrest
        exact (expr_walks (room + 2) condition hc).bind fun _ hc ↦
          (stmt_walks (room + 2) yes hyes).bind fun _ hyes ↦
            (stmt_walks (room + 2) no hno).last fun _ hno ↦
              .pure fun n ↦ by rw [Stmt.uses, Stmt.uses, hc n, hyes n, hno n]
    | loop condition body =>
      obtain ⟨hc, hbody⟩ := Bool.and_eq_true_iff.mp h
      exact (expr_walks (room + 2) condition hc).bind fun _ hc ↦
        (stmt_walks (room + 2) body hbody).last fun _ hbody ↦
          .pure fun n ↦ by rw [Stmt.uses, Stmt.uses, hc n, hbody n]
    | function d =>
      have hbody := stmts_walks fun s hs ↦ stmt_walks room s (d.known_iff.mp h s hs)
      exact (declare_quiet _).first fun _ _ ↦ (define_quiet _).first fun _ _ ↦
        (function_walks .function hbody).last fun _ hd ↦ .pure hd
    | returns keyword value =>
      refine (checkReturn_quiet _ _).first fun _ _ ↦ ?_
      cases value with
      | none => exact .pure fun _ ↦ rfl
      | some e => exact (expr_walks (room + 2) e h).last fun _ he ↦ .pure he
    | cls name methods =>
      have hmethods : Walks (List.Forall₂ FunDeclKept methods) (FunDecl.usesAll · methods)
          (methods.mapM fun d ↦ function (methodRole d) (·.mapM (stmt room)) d) :=
        methods_walks fun d hd ↦ function_walks (methodRole d) <| stmts_walks fun s hs ↦
          stmt_walks room s (d.known_iff.mp (FunDecl.knownAll_iff.mp h d hd) s hs)
      exact .inClass ((declare_quiet _).first fun _ _ ↦ (define_quiet _).first fun _ _ ↦
        (hmethods.inScope _).last fun _ hds ↦ .pure fun n ↦ methods_kept hds (n + 1))
    | ofExpr e => exact (expr_walks (room + 3) e h).last fun _ he ↦ .pure he
    | unknown kind => cases h

end

end Trees

section TopLevel

variable {s : Stmt} {ss : List Stmt} {r : Resolution}

theorem resumed_behind (links : Array Link) (faults : Array Diagnostic) (r : Resolution) (s : Stmt) :
    (r.behind links faults).resumed s = (r.resumed s).behind links faults := by
  unfold Resolution.resumed
  by_cases hh : r.halted = some .tooDeep
  · rw [if_pos hh, if_pos (show (r.behind links faults).halted = _ from hh)]
    simp only [Resolution.behind, Array.append_push]
  · rw [if_neg hh, if_neg (show (r.behind links faults).halted ≠ _ from hh)]

theorem resumed_links (r : Resolution) (s : Stmt) : (r.resumed s).links = r.links := by
  unfold Resolution.resumed
  split <;> rfl

/-- Behind a top-level statement the walk is between two of them again. -/
theorem topLevel_idle (room : Nat) (hs : s.known = true) (hr : r.Idle) : (after (topLevel room s) r).Idle := by
  have hwalks := stmt_walks room s hs
  have hknown := hwalks.known r fun kind ↦ by simp [hr.halted]
  rw [after, topLevel_run, Resolution.resumed]
  split
  · exact ⟨rfl, rfl, rfl, rfl⟩
  · next hdeep =>
    refine ⟨?_, (hwalks.role_eq r).trans hr.role, (hwalks.inClass_eq r).trans hr.inClass, ?_⟩
    · rw [← List.length_eq_zero_iff, ← List.length_eq_zero_iff.mpr hr.scopes]
      exact hwalks.scopes_length r
    · cases hh : (after (stmt room s) r).halted with
      | none => exact hh
      | some halt =>
        cases halt with
        | tooDeep => exact absurd hh hdeep
        | unknown kind => exact absurd hh (hknown kind)

theorem topLevel_framed (room : Nat) (hs : s.known = true) : Framed (topLevel room s) := by
  intro links faults r
  rw [after, topLevel_run, topLevel_run, (stmt_walks room s hs).framed, resumed_behind]
  rfl

theorem topLevel_links (room : Nat) (hs : s.known = true) (hr : r.Idle) : ∃ new : Array Link,
    (after (topLevel room s) r).links = r.links ++ new ∧ Link.Among new.toList (s.uses 0) := by
  obtain ⟨new, hnew, hamong⟩ := (stmt_walks room s hs).links r
  refine ⟨new, ?_, ?_⟩
  · rw [after, topLevel_run, resumed_links]
    exact hnew
  · rwa [hr.scopes] at hamong

theorem topLevel_kept (room : Nat) (hs : s.known = true) (r : Resolution) :
    StmtKept s ((topLevel room s).run r).1 := by
  rw [topLevel_run]
  exact (stmt_walks room s hs).gives r

/-- What is found in top-level statements, from wherever one is between two of them. -/
structure Found (ss ss' : List Stmt) (r r' : Resolution) : Prop where
  kept : List.Forall₂ StmtKept ss ss'
  idle : r'.Idle
  links : ∃ new : Array Link, r'.links = r.links ++ new ∧ Link.Among new.toList (Stmt.usesAll 0 ss)

theorem topLevels_found (room : Nat) (hss : Stmt.knownAll ss = true) (hr : r.Idle) :
    Found ss ((ss.mapM (topLevel room)).run r).1 r (after (ss.mapM (topLevel room)) r) := by
  induction ss generalizing r with
  | nil => exact ⟨.nil, hr, #[], Array.append_empty.symm, .nil⟩
  | cons s ss ih =>
    obtain ⟨hs, hrest⟩ := Bool.and_eq_true_iff.mp hss
    obtain ⟨new, hnew, hamong⟩ := topLevel_links room hs hr
    obtain ⟨hkept, hidle, new', hnew', hamong'⟩ := ih hrest (topLevel_idle room hs hr)
    rw [List.mapM_cons]
    refine ⟨.cons (topLevel_kept room hs r) hkept, hidle, new ++ new', hnew'.trans ?_, ?_⟩
    · rw [hnew, Array.append_assoc]
    · rw [Array.toList_append]
      exact hamong.append hamong'

theorem topLevels_framed (room : Nat) (hss : Stmt.knownAll ss = true) : Framed (ss.mapM (topLevel room)) :=
  .mapM fun s hs ↦ topLevel_framed room (Stmt.knownAll_iff.mp hss s hs)

end TopLevel

end Resolving

open Resolving

namespace Resolved

variable {room : Nat} {ss : List Stmt}

/-- What a walk over a program finds. -/
def found (room : Nat) (ss : List Stmt) : Resolved where
  statements := ((ss.mapM (topLevel room)).run {}).1
  links := (after (ss.mapM (topLevel room)) {}).links.toList
  faults := (after (ss.mapM (topLevel room)) {}).faults.toList

theorem ofStatements_known (hss : Stmt.knownAll ss = true) :
    ofStatements room ss = .ok (found room ss) := by
  have hhalted := (topLevels_found room hss .start).idle.halted
  unfold ofStatements
  split
  next ss' r hrun =>
    rw [after, hrun] at hhalted
    rw [found, after, hrun, hhalted]

theorem found_links (hss : Stmt.knownAll ss = true) :
    Link.Among (found room ss).links (Stmt.usesAll 0 ss) := by
  obtain ⟨new, hnew, hamong⟩ := (topLevels_found room hss .start).links
  rw [found, hnew]
  simpa using hamong

theorem found_kept (hss : Stmt.knownAll ss = true) :
    Stmt.usesAll 0 (found room ss).statements = Stmt.usesAll 0 ss :=
  stmts_kept (topLevels_found room hss .start).kept 0

theorem found_append {A B : List Stmt} (hA : Stmt.knownAll A = true) (hB : Stmt.knownAll B = true) :
    found room (A ++ B) = ⟨(found room A).statements ++ (found room B).statements,
      (found room A).links ++ (found room B).links, (found room A).faults ++ (found room B).faults⟩ := by
  have hidle := (topLevels_found room hA .start).idle
  have hrun := topLevels_framed room hB (after (A.mapM (topLevel room)) {}).links
    (after (A.mapM (topLevel room)) {}).faults {}
  rw [← hidle.eq_behind] at hrun
  have happend : ((A ++ B).mapM (topLevel room)).run {} =
      (((A.mapM (topLevel room)).run {}).1 ++
          ((B.mapM (topLevel room)).run (after (A.mapM (topLevel room)) {})).1,
        ((B.mapM (topLevel room)).run (after (A.mapM (topLevel room)) {})).2) := by
    rw [List.mapM_append]
    rfl
  rw [hrun] at happend
  rw [found, after, happend]
  simp only [Resolution.behind, Array.toList_append]
  rfl

/-- Without shared references, what is found is left as it is, but for what the references know. -/
theorem unified_found (hss : Stmt.knownAll ss = true) (hown : Stmt.Unshared ss) :
    (found room ss).unified = ⟨Stmt.mapRefsAll (Ref.relink (found room ss).links) (found room ss).statements,
      (found room ss).links, (found room ss).faults⟩ := by
  rw [unified, Link.unify_eq ((found_links hss).marks.nodup hown)]

/-- Programs without shared references are resolved one by one: what is found in one behind the other is
what is found in each alone. Between two statements the walk is in no scope, function or class, and each use
of a name is linked at most once, to a scope around it. -/
theorem ofStatements_append (room : Nat) {A B : List Stmt} (hknown : Stmt.knownAll (A ++ B) = true)
    (hown : Stmt.Unshared (A ++ B)) :
    (∃ a b, (ofStatements room A).map unified = .ok a ∧ (ofStatements room B).map unified = .ok b ∧
      (ofStatements room (A ++ B)).map unified =
        .ok ⟨a.statements ++ b.statements, a.links ++ b.links, a.faults ++ b.faults⟩ ∧
      Link.Among a.links (Stmt.usesAll 0 A) ∧ Link.Among b.links (Stmt.usesAll 0 B)) ∧
    ∀ before s rest, A ++ B = before ++ s :: rest →
      (after ((before ++ [s]).mapM (topLevel room)) {}).Idle := by
  obtain ⟨hA, hB⟩ : Stmt.knownAll A = true ∧ Stmt.knownAll B = true := by
    simpa only [Stmt.knownAll_iff, List.forall_mem_append] using hknown
  have hmarks : Use.marks (Stmt.usesAll 0 (A ++ B)) =
      Use.marks (Stmt.usesAll 0 A) ++ Use.marks (Stmt.usesAll 0 B) := by
    simp only [Stmt.usesAll_eq, List.flatMap_append, Use.marks, List.filterMap_append]
  have hnodup := hown
  rw [Stmt.Unshared, hmarks, List.nodup_append] at hnodup
  obtain ⟨hownA, hownB, hapart⟩ := hnodup
  have hleft : Use.Agree (Ref.relink ((found room A).links ++ (found room B).links))
      (Ref.relink (found room A).links) (Stmt.usesAll 0 (found room A).statements) := by
    rw [found_kept hA]
    exact fun ref href ↦ Ref.relink_append fun m hm hB' ↦
      hapart m (href m hm) m ((found_links hB).marks.subset hB') rfl
  have hright : Use.Agree (Ref.relink ((found room A).links ++ (found room B).links))
      (Ref.relink (found room B).links) (Stmt.usesAll 0 (found room B).statements) := by
    rw [found_kept hB]
    exact fun ref href ↦ Ref.relink_append_right fun m hm hA' ↦
      hapart m ((found_links hA).marks.subset hA') m (href m hm) rfl
  refine ⟨⟨(found room A).unified, (found room B).unified, by rw [ofStatements_known hA]; rfl,
    by rw [ofStatements_known hB]; rfl, ?_, ?_, ?_⟩, fun before s rest hsplit ↦ ?_⟩
  · rw [ofStatements_known hknown, Except.map, unified_found hknown hown, unified_found hA hownA,
      unified_found hB hownB, found_append hA hB, Stmt.mapRefsAll_append, Stmt.mapRefsAll_congr _ hleft,
      Stmt.mapRefsAll_congr _ hright]
  · rw [unified_found hA hownA]
    exact found_links hA
  · rw [unified_found hB hownB]
    exact found_links hB
  · rw [hsplit, List.append_cons, Stmt.knownAll_iff, List.forall_mem_append] at hknown
    exact (topLevels_found room (Stmt.knownAll_iff.mpr hknown.1) .start).idle

/-- What was linked in a block before it got too deep stays, and the block behind it starts from nothing. -/
theorem ofStatements_blocks :
    let x : Token := ⟨.identifier, "x", .nil, 1⟩
    let deep : Stmt :=
      .block [.var x none, .print (.var x ⟨none, some 0⟩), .block [.print (.group (.var x {}))]]
    let flat : Stmt := .block [.var x none, .print (.var x ⟨none, some 1⟩)]
    Stmt.knownAll ([deep] ++ [flat]) = true ∧ Stmt.Unshared ([deep] ++ [flat]) ∧
      ∃ a b, (ofStatements 9 [deep]).map unified = .ok a ∧ (ofStatements 9 [flat]).map unified = .ok b ∧
        (ofStatements 9 ([deep] ++ [flat])).map unified =
          .ok ⟨a.statements ++ b.statements, a.links ++ b.links, a.faults ++ b.faults⟩ ∧
        a.links = [⟨.read, x, 0, some 0⟩] ∧ a.faults = [⟨1, .unspecified, .nestingTooDeep⟩] ∧
        b.links = [⟨.read, x, 0, some 1⟩] ∧ b.faults = [] := by
  intro x deep flat
  have hknown : Stmt.knownAll ([deep] ++ [flat]) = true := rfl
  have hown : Stmt.Unshared ([deep] ++ [flat]) := show [0, 1].Nodup by decide
  obtain ⟨⟨a, b, ha, hb, hab, -, -⟩, -⟩ := ofStatements_append 9 hknown hown
  refine ⟨hknown, hown, a, b, ha, hb, hab, ?_⟩
  cases ha
  cases hb
  refine ⟨?_, ?_, ?_, rfl⟩ <;> with_unfolding_all rfl

end Resolved

end TreeWalk
