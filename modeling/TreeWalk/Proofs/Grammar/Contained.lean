import TreeWalk.Proofs.Grammar.Local
import TreeWalk.Proofs.Grammar.Program

namespace TreeWalk.Parse

open Grammar

variable {α β : Type}

def Tail.beyond (q : Tail) (t : Token) : Tail := ⟨t :: q.words, q.last⟩

/-- How readings of some words before a semicolon end: behind the semicolon, or with a mistake at some of the
words or at the semicolon. -/
inductive Closing (t : Token) (q q' : Tail) (m : List Token) (faults faults' : Array Diagnostic) :
    EStateM.Result Stop Cursor α → EStateM.Result Stop Cursor α → Prop
  | ok {a : α} {new : Array Diagnostic} : Closing t q q' m faults faults'
      (.ok a (q.behind [] (faults ++ new))) (.ok a (q'.behind [] (faults' ++ new)))
  | error {stop : Stop} {m₁ : List Token} {new : Array Diagnostic} :
      m₁ <:+ m → Closing t q q' m faults faults'
        (.error stop ((q.beyond t).behind m₁ (faults ++ new)))
        (.error stop ((q'.beyond t).behind m₁ (faults' ++ new)))

def ClosesAt (t : Token) (q q' : Tail) (p p' : Parse α) (m : List Token) : Prop :=
  ∀ faults faults', Closing t q q' m faults faults' (p ((q.beyond t).behind m faults))
    (p' ((q'.beyond t).behind m faults'))

variable {t : Token} {q q' : Tail} {bound bound' : Nat} {m m₁ : List Token} {s : Bool}

theorem Tail.seam (ht : t.kind = .semicolon) : Seam (q.beyond t) (q'.beyond t) :=
  .semicolon q.words q'.words q.last q'.last ht

theorem skip_bind (kind : Kind) (what : Missing) (f : Unit → Parse β) :
    discard (expect kind what) >>= f = accept? (· == kind) >>= fun o ↦ match o with
      | some _ => f ()
      | none => fail what := by
  funext c
  show EStateM.bind (EStateM.map _ (EStateM.bind (accept? (· == kind)) _)) f c =
    EStateM.bind (accept? (· == kind)) _ c
  unfold EStateM.bind EStateM.map
  dsimp only
  cases accept? (· == kind) c with
  | error => rfl
  | ok o c => cases o <;> rfl

namespace ClosesAt

variable {p p' : Parse α} {f f' : α → Parse β}

theorem bind (hp : LocalAt (q.beyond t) (q'.beyond t) s p p' m)
    (hf : ∀ a m₁, Leaves s m m₁ → ClosesAt t q q' (f a) (f' a) m₁) :
    ClosesAt t q q' (p >>= f) (p' >>= f') m := by
  intro faults faults'
  have hp := hp faults faults'
  show Closing _ _ _ _ _ _ (EStateM.bind p f _) (EStateM.bind p' f' _)
  unfold EStateM.bind
  generalize p _ = x at hp ⊢
  generalize p' _ = x' at hp ⊢
  cases hp with
  | error hm => exact .error hm
  | @ok a m₁ new hm =>
    have hrest := hf a m₁ hm (faults ++ new) (faults' ++ new)
    dsimp only
    generalize f a _ = x at hrest ⊢
    generalize f' a _ = x' at hrest ⊢
    cases hrest with
    | ok =>
      rw [Array.append_assoc, Array.append_assoc]
      exact .ok
    | error hm' =>
      rw [Array.append_assoc, Array.append_assoc]
      exact .error (hm'.trans hm.1)

theorem behind (hp : ClosesAt t q q' p p' m)
    (hf : ∀ a, ∃ b, (∀ faults, f a (q.behind [] faults) = .ok b (q.behind [] faults)) ∧
      ∀ faults, f' a (q'.behind [] faults) = .ok b (q'.behind [] faults)) :
    ClosesAt t q q' (p >>= f) (p' >>= f') m := by
  intro faults faults'
  have hp := hp faults faults'
  show Closing _ _ _ _ _ _ (EStateM.bind p f _) (EStateM.bind p' f' _)
  unfold EStateM.bind
  generalize p _ = x at hp ⊢
  generalize p' _ = x' at hp ⊢
  cases hp with
  | error hm => exact .error hm
  | @ok a new =>
    obtain ⟨b, h, h'⟩ := hf a
    dsimp only
    rw [h, h']
    exact .ok

theorem step {a : α} (hp : ∀ faults, p ((q.beyond t).behind m faults) = .ok a ((q.beyond t).behind m₁ faults))
    (hp' : ∀ faults, p' ((q'.beyond t).behind m faults) = .ok a ((q'.beyond t).behind m₁ faults))
    (hm : m₁ <:+ m) (hf : ClosesAt t q q' (f a) (f' a) m₁) :
    ClosesAt t q q' (p >>= f) (p' >>= f') m := by
  intro faults faults'
  have hrest := hf faults faults'
  simp only [Bind.bind, EStateM.bind, hp, hp']
  generalize f a _ = x at hrest ⊢
  generalize f' a _ = x' at hrest ⊢
  cases hrest with
  | ok => exact .ok
  | error hm' => exact .error (hm'.trans hm)

theorem check {kind : Kind} {f f' : Bool → Parse β}
    (hf : ∀ found, ClosesAt t q q' (f found) (f' found) m) :
    ClosesAt t q q' (check kind >>= f) (Parse.check kind >>= f') m := by
  have hhead : (m ++ (q'.beyond t).words).head? = (m ++ (q.beyond t).words).head? := by
    rw [List.head?_append, List.head?_append]
    rfl
  refine step (a := (m ++ (q.beyond t).words).head?.any (·.kind == kind)) (fun _ ↦ rfl) (fun faults ↦ ?_)
    List.suffix_rfl (hf _)
  rw [← hhead]
  rfl

theorem throw (stop : Stop) : ClosesAt t q q' (throw stop : Parse α) (throw stop) m := by
  intro faults faults'
  have h : Closing (α := α) t q q' m faults faults'
    (.error stop ((q.beyond t).behind m (faults ++ #[])))
    (.error stop ((q'.beyond t).behind m (faults' ++ #[]))) := .error List.suffix_rfl
  rwa [Array.append_empty, Array.append_empty] at h

variable (ht : t.kind = .semicolon)
include ht

theorem accept? {wanted : Kind → Bool} (hw : wanted .semicolon = false) {f f' : Option Token → Parse β}
    (hsome : ∀ u m₁, m = u :: m₁ → wanted u.kind = true →
      ClosesAt t q q' (f (some u)) (f' (some u)) m₁)
    (hnone : (∀ u ∈ m.head?, wanted u.kind = false) → ClosesAt t q q' (f none) (f' none) m) :
    ClosesAt t q q' (accept? wanted >>= f) (Parse.accept? wanted >>= f') m := by
  have hk : Seam (q.beyond t) (q'.beyond t) := Tail.seam ht
  rcases accept?_cases hk (hk.spares hw) m with ⟨u, m₁, rfl, hu, h, h'⟩ | ⟨hu, h, h'⟩
  · exact step h h' (List.suffix_cons u m₁) (hsome u m₁ rfl hu)
  · exact step h h' List.suffix_rfl (hnone hu)

theorem fail (what : Missing) : ClosesAt t q q' (fail what : Parse α) (Parse.fail what) m := by
  intro faults faults'
  have hk : Seam (q.beyond t) (q'.beyond t) := Tail.seam ht
  have h : LocalAt (q.beyond t) (q'.beyond t) true (Parse.fail what : Parse α) (Parse.fail what) m :=
    .fail hk what
  have h := h faults faults'
  generalize hx : Parse.fail what _ = x at h ⊢
  generalize Parse.fail what _ = x' at h ⊢
  cases h with
  | error hm => exact .error hm
  | ok => cases hx

theorem absent {kind : Kind} (hkind : kind ≠ .semicolon) (hm : ∀ u ∈ m, u.kind ≠ kind)
    (what : Missing) (f f' : Unit → Parse β) :
    ClosesAt t q q' (discard (expect kind what) >>= f) (discard (expect kind what) >>= f') m := by
  rw [skip_bind, skip_bind]
  refine accept? ht (by simpa using hkind.symm) (fun u m₁ h hu ↦ ?_) fun _ ↦ fail ht what
  exact absurd (by simpa using hu) (hm u (by simp [h]))

theorem closing (hm : ∀ u ∈ m, u.kind ≠ .semicolon) (what : Missing) (a : α) :
    ClosesAt t q q' (discard (expect .semicolon what) >>= fun _ ↦ Pure.pure a)
      (discard (expect .semicolon what) >>= fun _ ↦ Pure.pure a) m := by
  rw [skip_bind]
  intro faults faults'
  cases m with
  | nil =>
    have htaken (k : Tail) (faults : Array Diagnostic) :
        Parse.accept? (· == .semicolon) ((k.beyond t).behind [] faults) =
          .ok (some t) (k.behind [] faults) := by
      simp [Parse.accept?, Tail.behind, Tail.beyond, ht]
    simp only [Bind.bind, EStateM.bind, htaken]
    have h : Closing t q q' [] faults faults' (.ok a (q.behind [] (faults ++ #[])))
      (.ok a (q'.behind [] (faults' ++ #[]))) := .ok
    rwa [Array.append_empty, Array.append_empty] at h
  | cons u m =>
    have hu : (u.kind == .semicolon) = false := by simpa using hm u (.head _)
    have hnone (k : Tail) (faults : Array Diagnostic) :
        Parse.accept? (· == .semicolon) ((k.beyond t).behind (u :: m) faults) =
          .ok none ((k.beyond t).behind (u :: m) faults) :=
      accept?_none (by simpa [Tail.behind] using hu)
    simp only [Bind.bind, EStateM.bind, hnone]
    exact fail ht what faults faults'

theorem accept {kind : Kind} (hkind : kind ≠ .semicolon) {f f' : Bool → Parse β}
    (hf : ∀ found m₁, m₁ <:+ m → ClosesAt t q q' (f found) (f' found) m₁) :
    ClosesAt t q q' (accept kind >>= f) (Parse.accept kind >>= f') m := by
  rw [accept_bind, accept_bind]
  refine accept? ht (by simpa using hkind.symm) (fun u m₁ h _ ↦ ?_) fun _ ↦ hf _ m List.suffix_rfl
  exact hf _ m₁ (h ▸ List.suffix_cons u m₁)

end ClosesAt

def Flat (m : List Token) : Prop :=
  ∀ u ∈ m, u.kind ≠ .semicolon ∧ u.kind ≠ .leftBrace ∧ u.kind ≠ .rightBrace

def Plain (m : List Token) : Prop := ∀ u ∈ m, startsStatement u.kind = false

theorem Flat.suffix (h : Flat m) (hm : m₁ <:+ m) : Flat m₁ := fun u hu ↦ h u (hm.subset hu)

theorem Plain.suffix (h : Plain m) (hm : m₁ <:+ m) : Plain m₁ := fun u hu ↦ h u (hm.subset hu)

section Statements

variable (ht : t.kind = .semicolon)

section Parts

variable {e e' : Parse Expr} (he : Local (q.beyond t) (q'.beyond t) bound bound' e e')
  (hflat : Flat m) (hb : Fits (q.beyond t) (q'.beyond t) bound bound' m)
include ht he hflat hb

theorem expressionStatement_closes :
    ClosesAt t q q' (expressionStatement e) (expressionStatement e') m :=
  .bind (he m hb) fun _ _ hm₁ ↦ .closing ht (fun u hu ↦ (hflat.suffix hm₁.1 u hu).1) _ _

theorem printStatement_closes : ClosesAt t q q' (printStatement e) (printStatement e') m :=
  .bind (he m hb) fun _ _ hm₁ ↦ .closing ht (fun u hu ↦ (hflat.suffix hm₁.1 u hu).1) _ _

theorem returnStatement_closes (keyword : Token) :
    ClosesAt t q q' (returnStatement keyword e) (returnStatement keyword e') m := by
  refine .check fun found ↦ ?_
  dsimp only
  split
  · exact .bind (LocalAt.pure (none : Option Expr)) fun _ _ hm₁ ↦
      .closing ht (fun u hu ↦ (hflat.suffix hm₁.1 u hu).1) _ _
  · exact .bind (he m hb).map fun _ _ hm₁ ↦ .closing ht (fun u hu ↦ (hflat.suffix hm₁.1 u hu).1) _ _

theorem varDeclaration_closes : ClosesAt t q q' (varDeclaration e) (varDeclaration e') m := by
  have hk : Seam (q.beyond t) (q'.beyond t) := Tail.seam ht
  refine .bind (.expect hk (hk.spares rfl) _) fun name m₁ hm₁ ↦ ?_
  refine .accept ht (by decide) fun found m₂ hm₂ ↦ ?_
  have hm := hm₂.trans hm₁.1
  dsimp only
  split
  · exact .bind (he m₂ (hb.suffix hm)).map fun _ _ hm₃ ↦
      .closing ht (fun u hu ↦ (hflat.suffix (hm₃.1.trans hm) u hu).1) _ _
  · exact .bind (LocalAt.pure (none : Option Expr)) fun _ _ hm₃ ↦
      .closing ht (fun u hu ↦ (hflat.suffix (hm₃.1.trans hm) u hu).1) _ _

end Parts

section Nested

variable {e e' : Parse Expr} (he : Local (q.beyond t) (q'.beyond t) bound bound' e e')
  (hb : Fits (q.beyond t) (q'.beyond t) bound bound' m) {p p' : Parse Stmt}
  (hs : ∀ m₁, m₁ <:+ m → ClosesAt t q q' p p' m₁)
include ht he hb hs

theorem whileStatement_closes : ClosesAt t q q' (whileStatement e p) (whileStatement e' p') m := by
  have hk : Seam (q.beyond t) (q'.beyond t) := Tail.seam ht
  refine .bind (LocalAt.expect hk (hk.spares rfl) _).discard fun _ m₁ hm₁ ↦ ?_
  refine .bind (he m₁ (hb.suffix hm₁.1)) fun condition m₂ hm₂ ↦ ?_
  refine .bind (LocalAt.expect hk (hk.spares rfl) _).discard fun _ m₃ hm₃ ↦ ?_
  exact (hs m₃ (hm₃.1.trans (hm₂.1.trans hm₁.1))).behind fun body ↦ ⟨_, fun _ ↦ rfl, fun _ ↦ rfl⟩

theorem ifStatement_closes (hq : q.Spares (· == .elseWord)) (hq' : q'.Spares (· == .elseWord)) :
    ClosesAt t q q' (ifStatement e p) (ifStatement e' p') m := by
  have hk : Seam (q.beyond t) (q'.beyond t) := Tail.seam ht
  refine .bind (LocalAt.expect hk (hk.spares rfl) _).discard fun _ m₁ hm₁ ↦ ?_
  refine .bind (he m₁ (hb.suffix hm₁.1)) fun condition m₂ hm₂ ↦ ?_
  refine .bind (LocalAt.expect hk (hk.spares rfl) _).discard fun _ m₃ hm₃ ↦ ?_
  refine (hs m₃ (hm₃.1.trans (hm₂.1.trans hm₁.1))).behind fun yes ↦ ⟨.branch condition yes none, ?_⟩
  have hnone {k : Tail} (hk : k.Spares (· == .elseWord)) (faults : Array Diagnostic) :
      accept? (· == .elseWord) (k.behind [] faults) = .ok none (k.behind [] faults) := accept?_none hk
  simp only [accept_bind]
  exact ⟨fun faults ↦ by simp only [Bind.bind, EStateM.bind, hnone hq]; rfl,
    fun faults ↦ by simp only [Bind.bind, EStateM.bind, hnone hq']; rfl⟩

end Nested

structure Simple (m : List Token) : Prop where
  flat : Flat m
  plain : Plain m.tail
  first : ∀ u ∈ m.head?, u.kind ≠ .forWord

theorem Simple.cons {u : Token} (h : Simple (u :: m)) : Flat m ∧ Plain m :=
  ⟨h.flat.suffix (List.suffix_cons u m), h.plain⟩

theorem Plain.simple (hplain : Plain m) (hflat : Flat m) : Simple m := by
  refine ⟨hflat, hplain.suffix (List.tail_suffix m), fun u hu hfor ↦ ?_⟩
  have hstarts := hplain u (List.mem_of_mem_head? hu)
  rw [hfor] at hstarts
  cases hstarts

variable {e e' : Parse Expr} {p p' : Parse Stmt}
include ht

theorem plainStatement_closes (he : Local (q.beyond t) (q'.beyond t) bound bound' e e')
    (hb : Fits (q.beyond t) (q'.beyond t) bound bound' m) (hm : Simple m)
    (hs : ∀ m₁, m₁ <:+ m → Plain m₁ → Flat m₁ → ClosesAt t q q' p p' m₁)
    (hq : q.Spares (· == .elseWord)) (hq' : q'.Spares (· == .elseWord))
    (item item' : Parse (Option Stmt)) :
    ClosesAt t q q' (plainStatement bound e p item) (plainStatement bound' e' p' item') m := by
  refine .accept? ht rfl (fun u m₁ h hu ↦ ?_) fun _ ↦ expressionStatement_closes ht he hm.flat hb
  subst h
  have htail := List.suffix_cons u m₁
  have hb₁ := hb.suffix htail
  obtain ⟨hflat, hplain⟩ := hm.cons
  have hnested (m₂ : List Token) (h : m₂ <:+ m₁) : ClosesAt t q q' p p' m₂ :=
    hs m₂ (h.trans htail) (hplain.suffix h) (hflat.suffix h)
  dsimp only
  split
  · exact printStatement_closes ht he hflat hb₁
  · exact returnStatement_closes ht he hflat hb₁ u
  · next hfor => exact absurd hfor (hm.first u rfl)
  · exact ifStatement_closes ht he hb₁ hnested hq hq'
  · exact whileStatement_closes ht he hb₁ hnested
  · have hbrace : u.kind = .leftBrace := by
      cases hkind : u.kind <;> simp_all [opensStatement]
    exact absurd hbrace (hm.flat u (.head _)).2.1

theorem function_closes (hb : Fits (q.beyond t) (q'.beyond t) bound bound' m) (hflat : Flat m)
    (what : Callable) (item item' : Parse (Option Stmt)) :
    ClosesAt t q q' (function bound what item) (function bound' what item') m := by
  have hk : Seam (q.beyond t) (q'.beyond t) := Tail.seam ht
  have hname : Local (q.beyond t) (q'.beyond t) bound bound' (expect .identifier .parameterName)
      (expect .identifier .parameterName) := fun _ _ ↦ .expect hk (hk.spares rfl) _
  refine .bind (LocalAt.expect hk (hk.spares rfl) _) fun name m₁ hm₁ ↦ ?_
  refine .bind (LocalAt.expect hk (hk.spares rfl) _).discard fun _ m₂ hm₂ ↦ ?_
  refine .bind (parenthesised_local hk .tooManyParameters .parameterEnd hname (hb.suffix hm₁.1) hm₂)
    fun ⟨params, paren⟩ m₃ hm₃ ↦ ?_
  have hm := hm₃.1.trans (hm₂.1.trans hm₁.1)
  exact .absent ht (by decide) (fun v hv ↦ (hflat.suffix hm v hv).2.1) _ _ _

theorem declared_closes (he : Local (q.beyond t) (q'.beyond t) bound bound' e e')
    (hb : Fits (q.beyond t) (q'.beyond t) bound bound' m) (hm : Simple m)
    (hs : ClosesAt t q q' p p' m) (item item' method method' : Parse (Option Stmt)) :
    ClosesAt t q q' (declared bound e p item method) (declared bound' e' p' item' method') m := by
  have hk : Seam (q.beyond t) (q'.beyond t) := Tail.seam ht
  refine .accept? ht rfl (fun u m₁ h hu ↦ ?_) fun _ ↦ hs
  subst h
  have hb₁ := hb.suffix (List.suffix_cons u m₁)
  obtain ⟨hflat, -⟩ := hm.cons
  dsimp only
  split
  · refine .bind (LocalAt.expect hk (hk.spares rfl) _) fun name m₂ hm₂ ↦ ?_
    exact .absent ht (by decide) (fun v hv ↦ (hflat.suffix hm₂.1 v hv).2.1) _ _ _
  · have hmap (f : Parse FunDecl) : Stmt.function <$> f = f >>= fun d ↦ pure (.function d) :=
      (bind_pure_comp Stmt.function f).symm
    rw [hmap, hmap]
    exact (function_closes ht hb₁ hflat .function item item').behind fun d ↦
      ⟨_, fun _ ↦ rfl, fun _ ↦ rfl⟩
  · exact varDeclaration_closes ht he hflat hb₁

theorem resume_semicolon (w : List Token) : ∀ (m : List Token) {previous : Token}, Plain m → Flat m →
    previous.kind ≠ .semicolon → resume previous (m ++ t :: w) = w := by
  have hstart : resume t w = w := by
    cases w with
    | nil => rfl
    | cons u w => simp [resume, ht]
  intro m
  induction m with
  | nil =>
    intro previous _ _ hprevious
    have hnot : startsStatement t.kind = false := by rw [ht]; rfl
    simp [resume, hprevious, hnot, hstart]
  | cons u m ih =>
    intro previous hplain hflat hprevious
    have htail := List.suffix_cons u m
    have hu := hplain u (.head _)
    rw [List.cons_append, resume, if_neg (by simp [hprevious, hu])]
    exact ih (hplain.suffix htail) (hflat.suffix htail) (hflat u (.head _)).1

theorem afterMistake_semicolon (w : List Token) (hm : Simple m) (h : m₁ <:+ m) :
    afterMistake (m₁ ++ t :: w) = w := by
  cases m₁ with
  | nil =>
    cases w with
    | nil => rfl
    | cons u w => simp [afterMistake, resume, ht]
  | cons u m₁ =>
    have hflat := hm.flat.suffix h
    have hplain : Plain m₁ := by
      cases m with
      | nil => exact absurd (List.suffix_nil.mp h) (List.cons_ne_nil u m₁)
      | cons v m =>
        refine hm.plain.suffix ?_
        rcases List.suffix_cons_iff.mp h with heq | h
        · rw [(List.cons.inj heq).2]
          exact List.suffix_rfl
        · exact (List.suffix_cons u m₁).trans h
    exact resume_semicolon ht w m₁ hplain (hflat.suffix (List.suffix_cons u m₁)) (hflat u (.head _)).1

theorem recovering_closes (hm : Simple m) (h : ClosesAt t q q' p p' m) :
    ClosesAt t q q' (recovering p) (recovering p') m := by
  intro faults faults'
  have hp := h faults faults'
  unfold recovering
  generalize p _ = x at hp ⊢
  generalize p' _ = x' at hp ⊢
  cases hp with
  | ok => exact .ok
  | @error stop m₁ new hsuffix =>
    cases stop with
    | tooDeep => exact .error hsuffix
    | mistake =>
      have hafter (k : Tail) (faults : Array Diagnostic) :
          { (k.beyond t).behind m₁ faults with
            rest := afterMistake ((k.beyond t).behind m₁ faults).rest } = k.behind [] faults := by
        simp [Tail.behind, Tail.beyond, afterMistake_semicolon ht k.words hm hsuffix]
      dsimp only
      rw [hafter, hafter]
      exact .ok

theorem statement_closes (hq : q.Spares (· == .elseWord)) (hq' : q'.Spares (· == .elseWord)) :
    ∀ room m, Fits (q.beyond t) (q'.beyond t) bound bound' m → Simple m →
      ClosesAt t q q' (statement bound room) (statement bound' room) m
  | room + 3, m => fun hb hm ↦ by
    have hk : Seam (q.beyond t) (q'.beyond t) := Tail.seam ht
    rw [statement, statement]
    refine plainStatement_closes ht (expression_local hk room) hb hm (fun m₁ h hplain hflat ↦ ?_) hq hq' _ _
    exact statement_closes hq hq' (room + 1) m₁ (hb.suffix h) (hplain.simple hflat)
  | 0, m | 1, m | 2, m => fun _ _ ↦ .throw .tooDeep

theorem declaration_closes (hq : q.Spares (· == .elseWord)) (hq' : q'.Spares (· == .elseWord))
    (hb : Fits (q.beyond t) (q'.beyond t) bound bound' m) (hm : Simple m) (room : Nat) :
    ClosesAt t q q' (declaration bound room) (declaration bound' room) m := by
  rcases room with _ | _ | _ | _ | room
  iterate 4 exact .throw .tooDeep
  have hk : Seam (q.beyond t) (q'.beyond t) := Tail.seam ht
  rw [declaration, declaration]
  exact recovering_closes ht hm (declared_closes ht (expression_local hk _) hb hm
    (statement_closes ht hq hq' _ m hb hm) _ _ _ _)

end Statements

section Declarations

variable {last : Token}

def entry (bound room : Nat) (c : Cursor) : Array Stmt × Cursor :=
  match declaration bound room c with
  | .ok s c => (s.toArray, c)
  | .error _ c =>
    (#[], { c with rest := afterMistake c.rest, faults := c.faults.push (.atToken c.peek .nestingTooDeep) })

theorem declarations_succ {room n : Nat} {done : Array Stmt} {c : Cursor} (h : c.rest ≠ []) :
    declarations bound room (n + 1) done c =
      declarations bound room n (done ++ (entry bound room c).1) (entry bound room c).2 := by
  rw [declarations, if_neg (by simpa using h)]
  unfold entry
  split <;> simp_all

theorem entry_local (room : Nat) (hm : m ≠ []) (hb : Fits (.ends last) (.ends last) bound bound' m)
    (faults faults' : Array Diagnostic) :
    ∃ ss new m₁, Leaves true m m₁ ∧
      entry bound room ((Tail.ends last).behind m faults) = (ss, (Tail.ends last).behind m₁ (faults ++ new)) ∧
      entry bound' room ((Tail.ends last).behind m faults') =
        (ss, (Tail.ends last).behind m₁ (faults' ++ new)) := by
  have hread := declaration_local room m hm hb faults faults'
  unfold entry
  generalize declaration bound room _ = x at hread ⊢
  generalize declaration bound' room _ = x' at hread ⊢
  cases hread with
  | @ok s m₁ new hleft => exact ⟨_, new, m₁, hleft, rfl, rfl⟩
  | @error stop m₁ new hsuffix =>
    refine ⟨#[], new.push (.atToken ((Tail.ends last).behind m₁ (faults ++ new)).peek .nestingTooDeep),
      afterMistake m₁, afterMistake_leaves hm hsuffix, ?_, ?_⟩
    · simp [Tail.behind, Tail.ends]
    · simp [Tail.behind, Tail.ends, Cursor.peek]

theorem declarations_nil (bound room n : Nat) (done : Array Stmt) (faults : Array Diagnostic) :
    declarations bound room n done ⟨[], last, faults⟩ = (done, ⟨[], last, faults⟩) := by
  cases n <;> simp [declarations]

/-- Words are read to their end, with the same statements and the same complaints after those before. -/
theorem declarations_local (room n : Nat) : ∀ n' m done done' faults faults',
    Fits (.ends last) (.ends last) bound bound' m → Fits (.ends last) (.ends last) n n' m →
      ∃ ss new, declarations bound room n done ((Tail.ends last).behind m faults) =
          (done ++ ss, (Tail.ends last).behind [] (faults ++ new)) ∧
        declarations bound' room n' done' ((Tail.ends last).behind m faults') =
          (done' ++ ss, (Tail.ends last).behind [] (faults' ++ new)) := by
  have hnone (bound n : Nat) (done : Array Stmt) (faults : Array Diagnostic) :
      declarations bound room n done ((Tail.ends last).behind [] faults) =
        (done ++ #[], (Tail.ends last).behind [] (faults ++ #[])) := by
    simp [Tail.behind, Tail.ends, declarations_nil]
  induction n with
  | zero =>
    intro n' m done done' faults faults' _ hn
    have hm : m = [] := List.length_eq_zero_iff.mp (by simpa [Fits, Tail.ends] using hn.1)
    subst hm
    exact ⟨#[], #[], hnone .., hnone ..⟩
  | succ n ih =>
    intro n' m done done' faults faults' hb hn
    cases m with
    | nil => exact ⟨#[], #[], hnone .., hnone ..⟩
    | cons t m =>
      obtain ⟨_, n', -, rfl⟩ := hn.pos (.tail t m)
      obtain ⟨s, new, m₁, hm₁, h, h'⟩ := entry_local room (List.cons_ne_nil t m) hb faults faults'
      obtain ⟨ss, rest, hrest, hrest'⟩ := ih n' m₁ (done ++ s) (done' ++ s) (faults ++ new) (faults' ++ new)
        (hb.suffix hm₁.1) (hn.pred hm₁)
      refine ⟨s ++ ss, new ++ rest, ?_, ?_⟩
      · rw [declarations_succ (List.cons_ne_nil t _), h, hrest]
        simp only [Array.append_assoc]
      · rw [declarations_succ (List.cons_ne_nil t _), h', hrest']
        simp only [Array.append_assoc]

theorem entry_closes (ht : t.kind = .semicolon) (hq : q.Spares (· == .elseWord))
    (hq' : q'.Spares (· == .elseWord)) (hb : Fits (q.beyond t) (q'.beyond t) bound bound' m)
    (hm : Simple m) (room : Nat) (faults faults' : Array Diagnostic) :
    ∃ ss new, entry bound room ((q.beyond t).behind m faults) = (ss, q.behind [] (faults ++ new)) ∧
      entry bound' room ((q'.beyond t).behind m faults') = (ss, q'.behind [] (faults' ++ new)) := by
  have hread := declaration_closes ht hq hq' hb hm room faults faults'
  unfold entry
  generalize declaration bound room _ = x at hread ⊢
  generalize declaration bound' room _ = x' at hread ⊢
  cases hread with
  | @ok s new => exact ⟨_, new, rfl, rfl⟩
  | @error stop m₁ new hsuffix =>
    have hk : Seam (q.beyond t) (q'.beyond t) := Tail.seam ht
    have hpeek := hk.peek_eq m₁ (faults ++ new) (faults' ++ new)
    have hafter (k : Tail) (faults : Array Diagnostic) :
        afterMistake ((k.beyond t).behind m₁ faults).rest = k.words :=
      afterMistake_semicolon ht k.words hm hsuffix
    refine ⟨#[], new.push (.atToken ((q.beyond t).behind m₁ (faults ++ new)).peek .nestingTooDeep), ?_, ?_⟩
    · simp only [hafter, Array.append_push]
      rfl
    · simp only [hafter, hpeek, Array.append_push]
      rfl

theorem declarations_derived {room n : Nat} {k : List Token} (hk : Ends [.elseWord] k) {w : List Token}
    {ss : List Stmt} (h : Sequence (Declaration room) w ss) :
    ∀ done faults, (w ++ k).length ≤ bound →
      declarations bound room (n + ss.length) done ⟨w ++ k, last, faults⟩ =
        declarations bound room n (done ++ ss.toArray) ⟨k, last, faults⟩ := by
  induction h with
  | nil => simp
  | @cons w v s ss hs hss ih =>
    intro done faults hb
    obtain ⟨t, u, rfl, -⟩ := declaration_starts room hs
    have hends : Ends [.elseWord] (v ++ k) := by
      cases hss with
      | nil => exact hk
      | cons h _ =>
        rw [List.append_assoc]
        exact (declaration_starts room).ends (by decide) h
    rw [List.append_assoc] at hb ⊢
    have hread : declaration bound room ⟨t :: u ++ (v ++ k), last, faults⟩ =
        .ok (some s) ⟨v ++ k, last, faults⟩ :=
      (declaration_complete room room ⟨s, rfl, hs⟩ hends hb last faults).resolve_right
        fun hdeep ↦ hdeep.1 (Nat.le_refl room)
    have hentry : entry bound room ⟨t :: u ++ (v ++ k), last, faults⟩ = (#[s], ⟨v ++ k, last, faults⟩) := by
      unfold entry
      rw [hread]
      rfl
    rw [List.length_cons, ← Nat.add_assoc, declarations_succ (List.cons_ne_nil t _), hentry,
      ih _ _ (by simp only [List.length_append] at hb ⊢; omega), Array.append_assoc]
    simp

end Declarations

end TreeWalk.Parse

namespace TreeWalk.Program

open Parse Grammar

variable {room : Nat} {A M B : List Token} {last : Token}

/-- Words that end in their only semicolon, without braces, of which only the first may start a statement,
and not a `for`, nor be an `else`. -/
structure Contained (M : List Token) : Prop where
  semicolon : ∃ m t, M = m ++ [t] ∧ t.kind = .semicolon ∧ ∀ u ∈ m, u.kind ≠ .semicolon
  braces : ∀ u ∈ M, u.kind ≠ .leftBrace ∧ u.kind ≠ .rightBrace
  plain : Plain M.tail
  first : ∀ u ∈ M.head?, u.kind ≠ .forWord ∧ u.kind ≠ .elseWord

/-- What comes first is followed by a word that is not an `else`, or by nothing. -/
def Opens (w : List Token) : Prop := ∀ t ∈ w.head?, t.kind ≠ .elseWord

theorem Contained.simple (hM : Contained M) :
    ∃ m t, M = m ++ [t] ∧ t.kind = .semicolon ∧ Simple m := by
  obtain ⟨m, t, rfl, ht, hone⟩ := hM.semicolon
  refine ⟨m, t, rfl, ht, fun u hu ↦ ⟨hone u hu, hM.braces u (List.mem_append_left [t] hu)⟩, ?_, fun u hu ↦ ?_⟩
  · have htail : m.tail <+: (m ++ [t]).tail := by
      cases m with
      | nil => exact List.nil_prefix
      | cons u m => exact List.prefix_append m [t]
    exact fun u hu ↦ hM.plain u (htail.subset hu)
  · exact (hM.first u (by simp [List.head?_append, Option.mem_def.mp hu])).1

theorem ofWords_of_read {words : List Token} {ss : Array Stmt} {c : Cursor}
    (h : declarations words.length room words.length #[] ⟨words, last, #[]⟩ = (ss, c)) :
    ofWords room words last = ⟨ss.toList, c.faults.toList⟩ := by
  simp [ofWords, h]

theorem declarations_contained (hM : Contained M) (hB : Opens B) {bound : Nat}
    (hb : (M ++ B).length ≤ bound) (n : Nat) (done : Array Stmt) (faults : Array Diagnostic) :
    declarations bound room (n + 1) done ⟨M ++ B, last, faults⟩ =
      declarations bound room n (done ++ (ofWords room M last).statements.toArray)
        ⟨B, last, faults ++ (ofWords room M last).faults.toArray⟩ := by
  obtain ⟨m, t, rfl, ht, hm⟩ := hM.simple
  let q : Tail := ⟨B, last⟩
  let alone : Tail := .ends last
  have hq : q.Spares (· == .elseWord) := fun u hu ↦ by simpa using hB u hu
  have hfits : Fits (q.beyond t) (alone.beyond t) bound (m ++ [t]).length m :=
    ⟨by simpa [q, Tail.beyond] using hb, Nat.le_refl _⟩
  obtain ⟨ss, new, h, halone⟩ :=
    entry_closes ht hq (Tail.ends_spares _) hfits hm room faults #[]
  have hbehind (k : Tail) (faults : Array Diagnostic) :
      (k.beyond t).behind m faults = ⟨m ++ [t] ++ k.words, k.last, faults⟩ := by
    simp [Tail.behind, Tail.beyond]
  rw [hbehind] at h halone
  have hread : ofWords room (m ++ [t]) last = ⟨ss.toList, new.toList⟩ := by
    have hlength : (m ++ [t]).length = m.length + 1 := List.length_append
    have halone : entry (m ++ [t]).length room ⟨m ++ [t], last, #[]⟩ = (ss, ⟨[], last, new⟩) := by
      simpa [alone, Tail.ends, Tail.behind] using halone
    refine ofWords_of_read (c := ⟨[], last, new⟩) ?_
    generalize (m ++ [t]).length = bound at halone hlength ⊢
    subst hlength
    rw [declarations_succ (by simp), halone, declarations_nil, Array.empty_append]
  rw [declarations_succ (by simp), hread, h]
  simp [Tail.behind, q]

theorem declarations_last {bound n : Nat} (hb : B.length ≤ bound) (hn : B.length ≤ n) (done : Array Stmt)
    (faults : Array Diagnostic) :
    declarations bound room n done ⟨B, last, faults⟩ =
      (done ++ (ofWords room B last).statements.toArray,
        ⟨[], last, faults ++ (ofWords room B last).faults.toArray⟩) := by
  have hfits {n : Nat} (hn : B.length ≤ n) : Fits (.ends last) (.ends last) n B.length B := by
    simpa [Fits, Tail.ends] using hn
  obtain ⟨ss, new, h, halone⟩ :=
    declarations_local room n B.length B done #[] faults #[] (hfits hb) (hfits hn)
  have hbehind (m : List Token) (faults : Array Diagnostic) :
      (Tail.ends last).behind m faults = ⟨m, last, faults⟩ := by simp [Tail.behind, Tail.ends]
  simp only [hbehind] at h halone
  rw [h, ofWords_of_read halone]
  simp

/-- Words that are read without a complaint, then a contained statement or nothing, and then any words
that do not begin with `else`: the parts are read as they are alone. -/
theorem ofWords_append (hA : (ofWords room A last).faults = []) (hM : M = [] ∨ Contained M)
    (hB : Opens B) :
    ofWords room (A ++ M ++ B) last =
      ⟨(ofWords room A last).statements ++ (ofWords room M last).statements ++
        (ofWords room B last).statements,
        (ofWords room M last).faults ++ (ofWords room B last).faults⟩ := by
  have hseq := ofWords_sound hA
  have hcount := sequence_length_le (declaration_starts room) hseq
  generalize (ofWords room A last).statements = ss at hseq hcount ⊢
  obtain ⟨n, hn⟩ : ∃ n, (A ++ M ++ B).length = n + ss.length := ⟨(A ++ M ++ B).length - ss.length, by
    simp only [List.length_append]
    omega⟩
  have hrest : (M ++ B).length ≤ n := by
    simp only [List.length_append] at hn ⊢
    omega
  have hbound : (M ++ B).length ≤ (A ++ M ++ B).length := by
    simp only [List.length_append]
    omega
  have hends : Ends [.elseWord] (M ++ B) := by
    rcases hM with rfl | hM
    · simpa [Ends, Opens] using hB
    · obtain ⟨m, t, rfl, -⟩ := hM.simple
      intro u hu
      have hu : u ∈ (m ++ [t]).head? := by cases m <;> simpa using hu
      simpa using (hM.first u hu).2
  have hfirst : declarations (A ++ M ++ B).length room (A ++ M ++ B).length #[] ⟨A ++ M ++ B, last, #[]⟩ =
      declarations (A ++ M ++ B).length room n (#[] ++ ss.toArray) ⟨M ++ B, last, #[]⟩ := by
    rw [List.append_assoc] at hn ⊢
    conv_lhs => arg 3; rw [hn]
    exact declarations_derived hends hseq #[] #[] (Nat.le_refl _)
  rcases hM with rfl | hM
  · rw [List.nil_append] at hrest hbound
    have hread := hfirst.trans (declarations_last hbound hrest _ _)
    rw [ofWords_of_read hread]
    simp [ofWords, declarations]
  · obtain ⟨n, rfl⟩ : ∃ k, n = k + 1 := by
      obtain ⟨m, t, rfl, -⟩ := hM.simple
      simp only [List.length_append, List.length_cons] at hrest
      exact ⟨n - 1, by omega⟩
    have hpos : 0 < M.length := by
      obtain ⟨m, t, rfl, -⟩ := hM.simple
      simp
    have hread := hfirst.trans ((declarations_contained hM hB hbound n _ _).trans
      (declarations_last (Nat.le_trans (by simp) hbound)
        (by rw [List.length_append] at hrest; omega) _ _))
    rw [ofWords_of_read hread]
    simp

/-- The parts of a program are read as they are alone: words that are read without a complaint, then a
contained statement or nothing, and then any words that do not begin with `else`. -/
theorem ofTokens?_parts {e : Token} (he : e.kind = .eof) (hwords : ∀ t ∈ A ++ M ++ B, t.kind ≠ .eof)
    {first : Program} (hfirst : ofTokens? room (A ++ [e]) = some first) (hclean : first.faults = [])
    (hM : M = [] ∨ Contained M) (hB : Opens B) :
    ∃ second rest, ofTokens? room (M ++ [e]) = some second ∧ ofTokens? room (B ++ [e]) = some rest ∧
      ofTokens? room (A ++ M ++ B ++ [e]) =
        some ⟨first.statements ++ second.statements ++ rest.statements, second.faults ++ rest.faults⟩ := by
  have hparts {w : List Token} (hw : w ⊆ A ++ M ++ B) :
      ofTokens? room (w ++ [e]) = some (ofWords room w e) :=
    ofTokens?_append (fun t ht ↦ hwords t (hw ht)) he
  rw [hparts (by simp)] at hfirst
  obtain rfl := Option.some.inj hfirst
  refine ⟨_, _, hparts (by simp), hparts (by simp), ?_⟩
  rw [hparts (List.Subset.refl _), ofWords_append hclean hM hB]

def printed : List Token :=
  [⟨.printWord, "print", .nil, 1⟩, ⟨.nilWord, "nil", .nil, 1⟩, ⟨.semicolon, ";", .nil, 1⟩]

def doubled : List Token :=
  [⟨.nilWord, "nil", .nil, 1⟩, ⟨.nilWord, "nil", .nil, 1⟩, ⟨.semicolon, ";", .nil, 1⟩]

theorem doubled_contained : Contained doubled where
  semicolon := ⟨doubled.take 2, _, rfl, rfl, by decide⟩
  braces := by decide
  plain := fun u hu ↦ (by decide : ∀ u ∈ doubled.tail, startsStatement u.kind = false) u hu
  first := by decide

theorem doubled_between : ∃ second rest : Program,
    ofTokens? 20 (doubled ++ [⟨.eof, "", .nil, 1⟩]) = some second ∧
      ofTokens? 20 (printed ++ [⟨.eof, "", .nil, 1⟩]) = some rest ∧
      ofTokens? 20 (printed ++ doubled ++ printed ++ [⟨.eof, "", .nil, 1⟩]) =
        some ⟨[.print (.literal .nil)] ++ second.statements ++ rest.statements,
          second.faults ++ rest.faults⟩ := by
  have hfirst : ofTokens? 20 (printed ++ [⟨.eof, "", .nil, 1⟩]) = some ⟨[.print (.literal .nil)], []⟩ := rfl
  exact ofTokens?_parts rfl (by decide) hfirst rfl (.inr doubled_contained) (by simp [Opens, printed])

end TreeWalk.Program
