import TreeWalk.Proofs.Grammar.Complete

namespace TreeWalk.Parse

variable {α β : Type}

/-- What stands behind some words: more words, and the end marker. -/
structure Tail where
  words : List Token
  last : Token

def Tail.behind (k : Tail) (m : List Token) (faults : Array Diagnostic) : Cursor :=
  ⟨m ++ k.words, k.last, faults⟩

/-- Tails that look alike from before: both are empty and have one end marker, or they begin with the same
semicolon. -/
inductive Seam : Tail → Tail → Prop
  | ends (last : Token) : Seam ⟨[], last⟩ ⟨[], last⟩
  | semicolon {t : Token} (w w' : List Token) (last last' : Token) :
      t.kind = .semicolon → Seam ⟨t :: w, last⟩ ⟨t :: w', last'⟩

def Tail.Spares (k : Tail) (wanted : Kind → Bool) : Prop :=
  ∀ t ∈ k.words.head?, wanted t.kind = false

def Fits (k k' : Tail) (bound bound' : Nat) (m : List Token) : Prop :=
  (m ++ k.words).length ≤ bound ∧ (m ++ k'.words).length ≤ bound'

/-- What is left of some words, less than all if something must be taken. -/
def Leaves (strict : Bool) (m m₁ : List Token) : Prop :=
  m₁ <:+ m ∧ (strict = true → m₁.length < m.length)

/-- How readings of the same words before either tail end. -/
inductive Meets (k k' : Tail) (strict : Bool) (m : List Token) (faults faults' : Array Diagnostic) :
    EStateM.Result Stop Cursor α → EStateM.Result Stop Cursor α → Prop
  | ok {a : α} {m₁ : List Token} {new : Array Diagnostic} :
      Leaves strict m m₁ → Meets k k' strict m faults faults'
        (.ok a (k.behind m₁ (faults ++ new))) (.ok a (k'.behind m₁ (faults' ++ new)))
  | error {stop : Stop} {m₁ : List Token} {new : Array Diagnostic} :
      m₁ <:+ m → Meets k k' strict m faults faults'
        (.error stop (k.behind m₁ (faults ++ new))) (.error stop (k'.behind m₁ (faults' ++ new)))

def LocalAt (k k' : Tail) (strict : Bool) (p p' : Parse α) (m : List Token) : Prop :=
  ∀ faults faults', Meets k k' strict m faults faults' (p (k.behind m faults))
    (p' (k'.behind m faults'))

/-- The readings do the same with any words for which loops have enough rounds. -/
def Local (k k' : Tail) (bound bound' : Nat) (p p' : Parse α) : Prop :=
  ∀ m, Fits k k' bound bound' m → LocalAt k k' true p p' m

variable {k k' : Tail} {bound bound' : Nat} {m m₁ m₂ : List Token} {s s' : Bool}

theorem Seam.head?_eq (h : Seam k k') : k'.words.head? = k.words.head? := by
  cases h <;> rfl

theorem Seam.spares (h : Seam k k') {wanted : Kind → Bool} (hw : wanted .semicolon = false) :
    k.Spares wanted := by
  intro t ht
  cases h with
  | ends => cases ht
  | semicolon _ _ _ _ hkind =>
    cases ht
    rw [hkind, hw]

theorem Seam.peek_eq (h : Seam k k') (m : List Token) (faults faults' : Array Diagnostic) :
    (k'.behind m faults').peek = (k.behind m faults).peek := by
  cases m with
  | cons => rfl
  | nil => cases h <;> rfl

namespace Leaves

theorem refl (m : List Token) : Leaves false m m := ⟨List.suffix_rfl, nofun⟩

theorem tail (t : Token) (m : List Token) : Leaves true (t :: m) m :=
  ⟨List.suffix_cons t m, fun _ ↦ Nat.lt_succ_self _⟩

theorem trans (h : Leaves s m m₁) (h' : Leaves s' m₁ m₂) : Leaves (s || s') m m₂ := by
  refine ⟨h'.1.trans h.1, fun hs ↦ ?_⟩
  have hle := h.1.length_le
  have hle' := h'.1.length_le
  rcases Bool.or_eq_true_iff.mp hs with hs | hs
  · have := h.2 hs
    omega
  · have := h'.2 hs
    omega

theorem weaken (h : Leaves s m m₁) (hs : s' = true → s = true) : Leaves s' m m₁ :=
  ⟨h.1, fun h' ↦ h.2 (hs h')⟩

end Leaves

namespace Fits

theorem suffix (h : Fits k k' bound bound' m) (hm : m₁ <:+ m) : Fits k k' bound bound' m₁ := by
  have hle := hm.length_le
  simp only [Fits, List.length_append] at h ⊢
  omega

theorem pred {n n' : Nat} (h : Fits k k' (n + 1) (n' + 1) m) (hm : Leaves true m m₁) :
    Fits k k' n n' m₁ := by
  have hlt := hm.2 rfl
  simp only [Fits, List.length_append] at h ⊢
  omega

theorem pos (h : Fits k k' bound bound' m) (hm : Leaves true m m₁) :
    ∃ n n', bound = n + 1 ∧ bound' = n' + 1 := by
  have hlt := hm.2 rfl
  simp only [Fits, List.length_append] at h
  exact ⟨bound - 1, bound' - 1, by omega, by omega⟩

theorem cases (h : Fits k k' bound bound' m) (hk : Seam k k') :
    m ++ k.words = [] ∧ m ++ k'.words = [] ∨ ∃ n n', bound = n + 1 ∧ bound' = n' + 1 := by
  cases m with
  | cons t m => exact .inr (h.pos (.tail t m))
  | nil =>
    cases hk with
    | ends => exact .inl ⟨rfl, rfl⟩
    | semicolon =>
      simp only [Fits, List.nil_append, List.length_cons] at h
      exact .inr ⟨bound - 1, bound' - 1, by omega, by omega⟩

end Fits

namespace LocalAt

variable {p p' : Parse α} {f f' : α → Parse β}

theorem weaken (h : LocalAt k k' s p p' m) (hs : s' = true → s = true) : LocalAt k k' s' p p' m := by
  intro faults faults'
  have hp := h faults faults'
  generalize p _ = x at hp ⊢
  generalize p' _ = x' at hp ⊢
  cases hp with
  | ok hm => exact .ok (hm.weaken hs)
  | error hm => exact .error hm

theorem pure (a : α) : LocalAt k k' false (pure a) (pure a) m := by
  intro faults faults'
  have h : Meets k k' false m faults faults' (.ok a (k.behind m (faults ++ #[])))
    (.ok a (k'.behind m (faults' ++ #[]))) := .ok (.refl m)
  rwa [Array.append_empty, Array.append_empty] at h

theorem throw (stop : Stop) : LocalAt k k' s (throw stop : Parse α) (throw stop) m := by
  intro faults faults'
  have h : Meets (α := α) k k' s m faults faults' (.error stop (k.behind m (faults ++ #[])))
    (.error stop (k'.behind m (faults' ++ #[]))) := .error List.suffix_rfl
  rwa [Array.append_empty, Array.append_empty] at h

theorem both (hp : LocalAt k k' s p p' m)
    (hf : ∀ a m₁, Leaves s m m₁ → LocalAt k k' s' (f a) (f' a) m₁) :
    LocalAt k k' (s || s') (p >>= f) (p' >>= f') m := by
  intro faults faults'
  have hp := hp faults faults'
  show Meets _ _ _ _ _ _ (EStateM.bind p f _) (EStateM.bind p' f' _)
  unfold EStateM.bind
  generalize p _ = x at hp ⊢
  generalize p' _ = x' at hp ⊢
  cases hp with
  | error hm => exact .error hm
  | @ok a m₁ new hm =>
    have hrest := hf a m₁ hm (faults ++ new) (faults' ++ new)
    dsimp only
    generalize f a _ = x at hrest ⊢
    generalize f' a _ = x' at hrest ⊢
    cases hrest with
    | ok hm' =>
      rw [Array.append_assoc, Array.append_assoc]
      exact .ok (hm.trans hm')
    | error hm' =>
      rw [Array.append_assoc, Array.append_assoc]
      exact .error (hm'.trans hm.1)

theorem bind (hp : LocalAt k k' s p p' m)
    (hf : ∀ a m₁, Leaves s m m₁ → LocalAt k k' s' (f a) (f' a) m₁) :
    LocalAt k k' s' (p >>= f) (p' >>= f') m :=
  (hp.both hf).weaken fun hs ↦ by simp [hs]

theorem first (hp : LocalAt k k' true p p' m)
    (hf : ∀ a m₁, Leaves true m m₁ → LocalAt k k' false (f a) (f' a) m₁) :
    LocalAt k k' true (p >>= f) (p' >>= f') m :=
  hp.both hf

theorem map {f : α → β} (h : LocalAt k k' s p p' m) : LocalAt k k' s (f <$> p) (f <$> p') m := by
  have he (p : Parse α) : f <$> p = p >>= fun a ↦ Pure.pure (f a) := (bind_pure_comp f p).symm
  rw [he, he, ← Bool.or_false s]
  exact h.both fun _ _ _ ↦ pure _

theorem discard (h : LocalAt k k' s p p' m) : LocalAt k k' s (discard p) (discard p') m := h.map

theorem fail (hk : Seam k k') (what : Missing) :
    LocalAt k k' s (fail what : Parse α) (Parse.fail what) m := by
  intro faults faults'
  have hpeek := hk.peek_eq m faults faults'
  have h : Meets (α := α) k k' s m faults faults'
    (.error .mistake (k.behind m (faults.push (.atToken (k.behind m faults).peek (.expected what)))))
    (.error .mistake (k'.behind m (faults'.push (.atToken (k'.behind m faults').peek (.expected what))))) := by
    rw [hpeek, Array.push_eq_append, Array.push_eq_append]
    exact .error List.suffix_rfl
  exact h

theorem complain (t : Token) (what : Complaint) :
    LocalAt k k' false (complain t what) (Parse.complain t what) m := by
  intro faults faults'
  have h : Meets k k' false m faults faults'
    (.ok () (k.behind m (faults.push (.atToken t what))))
    (.ok () (k'.behind m (faults'.push (.atToken t what)))) := by
    rw [Array.push_eq_append, Array.push_eq_append]
    exact .ok (.refl m)
  exact h

theorem step {a : α} (hp : ∀ faults, p (k.behind m faults) = .ok a (k.behind m₁ faults))
    (hp' : ∀ faults, p' (k'.behind m faults) = .ok a (k'.behind m₁ faults))
    (hm : Leaves s m m₁) (hf : LocalAt k k' s' (f a) (f' a) m₁) :
    LocalAt k k' (s || s') (p >>= f) (p' >>= f') m := by
  intro faults faults'
  have hrest := hf faults faults'
  simp only [Bind.bind, EStateM.bind, hp, hp']
  generalize f a _ = x at hrest ⊢
  generalize f' a _ = x' at hrest ⊢
  cases hrest with
  | ok hm' => exact .ok (hm.trans hm')
  | error hm' => exact .error (hm'.trans hm.1)

theorem check (hk : Seam k k') {kind : Kind} {f f' : Bool → Parse β}
    (hf : ∀ found, LocalAt k k' s (f found) (f' found) m) :
    LocalAt k k' s (check kind >>= f) (Parse.check kind >>= f') m := by
  have hhead : (m ++ k'.words).head? = (m ++ k.words).head? := by
    rw [List.head?_append, List.head?_append, hk.head?_eq]
  refine step (a := (m ++ k.words).head?.any (·.kind == kind)) (fun _ ↦ rfl) (fun faults ↦ ?_)
    (.refl m) (hf _)
  rw [← hhead]
  rfl

theorem peek (hk : Seam k k') : LocalAt k k' false peek Parse.peek m := by
  intro faults faults'
  have h : LocalAt k k' false (Pure.pure (k.behind m faults).peek)
    (Pure.pure (k.behind m faults).peek) m := pure _
  have h := h faults faults'
  have hone : Parse.peek (k.behind m faults) = .ok (k.behind m faults).peek (k.behind m faults) := rfl
  have hother : Parse.peek (k'.behind m faults') =
      .ok (k'.behind m faults').peek (k'.behind m faults') := rfl
  rw [hone, hother, hk.peek_eq m faults faults']
  exact h

end LocalAt

theorem accept?_none {wanted : Kind → Bool} {c : Cursor}
    (h : ∀ t ∈ c.rest.head?, wanted t.kind = false) : accept? wanted c = .ok none c := by
  unfold accept?
  split
  · next t rest hrest =>
    rw [hrest] at h
    rw [if_neg (by simp [h t rfl])]
  · rfl

theorem accept?_some {wanted : Kind → Bool} {t : Token} (ht : wanted t.kind = true) (k : Tail)
    (m : List Token) (faults : Array Diagnostic) :
    accept? wanted (k.behind (t :: m) faults) = .ok (some t) (k.behind m faults) := by
  unfold accept? Tail.behind
  simp [ht]

theorem accept?_cases (hk : Seam k k') {wanted : Kind → Bool} (hw : k.Spares wanted) (m : List Token) :
    (∃ t m₁, m = t :: m₁ ∧ wanted t.kind = true ∧
      (∀ faults, accept? wanted (k.behind m faults) = .ok (some t) (k.behind m₁ faults)) ∧
      ∀ faults, accept? wanted (k'.behind m faults) = .ok (some t) (k'.behind m₁ faults)) ∨
    (∀ t ∈ m.head?, wanted t.kind = false) ∧
      (∀ faults, accept? wanted (k.behind m faults) = .ok none (k.behind m faults)) ∧
      ∀ faults, accept? wanted (k'.behind m faults) = .ok none (k'.behind m faults) := by
  have hw' : k'.Spares wanted := by
    rw [Tail.Spares, hk.head?_eq]
    exact hw
  have hnone (h : ∀ t ∈ m.head?, wanted t.kind = false) {w : List Token}
      (hw : ∀ t ∈ w.head?, wanted t.kind = false) : ∀ t ∈ (m ++ w).head?, wanted t.kind = false := by
    cases m with
    | nil => exact hw
    | cons => exact h
  have hleft (h : ∀ t ∈ m.head?, wanted t.kind = false) := And.intro h
    (And.intro (fun faults ↦ accept?_none (c := k.behind m faults) (hnone h hw))
      fun faults ↦ accept?_none (c := k'.behind m faults) (hnone h hw'))
  cases m with
  | nil => exact .inr (hleft nofun)
  | cons t m =>
    cases ht : wanted t.kind with
    | false => exact .inr (hleft (by simpa using ht))
    | true => exact .inl ⟨t, m, rfl, ht, fun _ ↦ accept?_some ht .., fun _ ↦ accept?_some ht ..⟩

theorem accept_bind (kind : Kind) (f : Bool → Parse β) :
    accept kind >>= f = accept? (· == kind) >>= fun o ↦ f o.isSome := by
  unfold accept
  simp only [bind_assoc, pure_bind]

namespace LocalAt

variable (hk : Seam k k')
include hk

theorem accept? {wanted : Kind → Bool} (hw : k.Spares wanted) {f f' : Option Token → Parse β}
    (hsome : ∀ t m₁, m = t :: m₁ → wanted t.kind = true →
      LocalAt k k' false (f (some t)) (f' (some t)) m₁)
    (hnone : LocalAt k k' s (f none) (f' none) m) :
    LocalAt k k' s (accept? wanted >>= f) (Parse.accept? wanted >>= f') m := by
  rcases accept?_cases hk hw m with ⟨t, m₁, rfl, ht, h, h'⟩ | ⟨-, h, h'⟩
  · exact (step h h' (.tail t m₁) (hsome t m₁ rfl ht)).weaken fun _ ↦ rfl
  · exact step h h' (.refl m) hnone

theorem accept {kind : Kind} {f f' : Bool → Parse β} (hw : k.Spares (· == kind))
    (htrue : ∀ t m₁, m = t :: m₁ → t.kind = kind → LocalAt k k' false (f true) (f' true) m₁)
    (hfalse : LocalAt k k' s (f false) (f' false) m) :
    LocalAt k k' s (accept kind >>= f) (Parse.accept kind >>= f') m := by
  rw [accept_bind, accept_bind]
  refine accept? hk hw (fun t m₁ hm ht ↦ ?_) hfalse
  exact htrue t m₁ hm (by simpa using ht)

theorem expect {kind : Kind} (hw : k.Spares (· == kind)) (what : Missing) :
    LocalAt k k' true (expect kind what) (Parse.expect kind what) m :=
  accept? hk hw (fun _ _ _ _ ↦ pure _) (fail hk what)

end LocalAt

theorem localAt_of_nil {p p' : Parse α} {a : α} (h : m ++ k.words = []) (h' : m ++ k'.words = [])
    (hp : ∀ c : Cursor, c.rest = [] → p c = .ok a c) (hp' : ∀ c : Cursor, c.rest = [] → p' c = .ok a c) :
    LocalAt k k' false p p' m := by
  intro faults faults'
  rw [hp (k.behind m faults) h, hp' (k'.behind m faults') h']
  exact LocalAt.pure a faults faults'

section Expressions

theorem joined_nil {operators : Kind → Bool} {join : Expr → Token → Expr → Expr} {operand : Parse Expr}
    (n : Nat) (left : Expr) (c : Cursor) (h : c.rest = []) :
    joined operators join operand n left c = .ok left c := by
  cases n with
  | zero => rfl
  | succ n =>
    have hnone : accept? operators c = .ok none c := accept?_none (by rw [h]; nofun)
    unfold joined
    simp only [Bind.bind, EStateM.bind, hnone]
    rfl

theorem suffixes_nil {argument : Parse Expr} (n : Nat) (e : Expr) (c : Cursor) (h : c.rest = []) :
    suffixes bound argument n e c = .ok e c := by
  cases n with
  | zero => rfl
  | succ n =>
    have hnone : accept? isSuffix c = .ok none c := accept?_none (by rw [h]; nofun)
    unfold suffixes
    simp only [Bind.bind, EStateM.bind, hnone]
    rfl

variable (hk : Seam k k')
include hk

theorem joined_local {operators : Kind → Bool} (hops : operators .semicolon = false)
    {join : Expr → Token → Expr → Expr} {operand operand' : Parse Expr}
    (hp : Local k k' bound bound' operand operand') (n : Nat) :
    ∀ n' left m, Fits k k' bound bound' m → Fits k k' n n' m →
      LocalAt k k' false (joined operators join operand n left)
        (joined operators join operand' n' left) m := by
  induction n with
  | zero =>
    intro n' left m _ hn
    rcases hn.cases hk with ⟨h, h'⟩ | ⟨_, _, h, -⟩
    · exact localAt_of_nil h h' (joined_nil 0 left) (joined_nil n' left)
    · cases h
  | succ n ih =>
    intro n' left m hb hn
    rcases hn.cases hk with ⟨h, h'⟩ | ⟨_, n', -, rfl⟩
    · exact localAt_of_nil h h' (joined_nil _ left) (joined_nil _ left)
    · unfold joined
      refine .accept? hk (hk.spares hops) (fun operator m₁ hm _ ↦ ?_) (.pure left)
      subst hm
      have hb₁ := hb.suffix (List.suffix_cons operator m₁)
      refine (hp m₁ hb₁).bind fun right m₂ hm₂ ↦ ?_
      exact ih _ _ m₂ (hb₁.suffix hm₂.1) ((hn.pred (.tail operator m₁)).suffix hm₂.1)

theorem leftAssociative_local {operators : Kind → Bool} (hops : operators .semicolon = false)
    {join : Expr → Token → Expr → Expr} {operand operand' : Parse Expr}
    (hp : Local k k' bound bound' operand operand') :
    Local k k' bound bound' (leftAssociative bound operators join operand)
      (leftAssociative bound' operators join operand') := by
  intro m hb
  refine (hp m hb).first fun left m₁ hm₁ ↦ ?_
  have hb₁ := hb.suffix hm₁.1
  exact joined_local hk hops hp _ _ left m₁ hb₁ hb₁

theorem operation_local {operand operand' : Parse Expr} (hp : Local k k' bound bound' operand operand') :
    Local k k' bound bound' (operation bound operand) (operation bound' operand') := by
  refine leftAssociative_local hk rfl ?_
  refine leftAssociative_local hk rfl ?_
  refine leftAssociative_local hk rfl ?_
  refine leftAssociative_local hk rfl ?_
  refine leftAssociative_local hk rfl ?_
  exact leftAssociative_local hk rfl hp

theorem assignment_local {operand operand' value value' : Parse Expr}
    (hp : Local k k' bound bound' operand operand') (hv : Local k k' bound bound' value value') :
    Local k k' bound bound' (assignment bound operand value) (assignment bound' operand' value') := by
  intro m hb
  refine (operation_local hk hp m hb).first fun target m₁ hm₁ ↦ ?_
  have hb₁ := hb.suffix hm₁.1
  refine .accept? hk (hk.spares rfl) (fun equals m₂ hm₂ _ ↦ ?_) (.pure target)
  subst hm₂
  refine (hv m₂ (hb₁.suffix (List.suffix_cons equals m₂))).bind fun v m₃ _ ↦ ?_
  split
  · exact .pure _
  · exact .pure _
  · exact (LocalAt.complain equals .assignmentTarget).bind fun _ _ _ ↦ .pure target

theorem primary_local {inner inner' : Parse Expr} (hp : Local k k' bound bound' inner inner') :
    Local k k' bound bound' (primary inner) (primary inner') := by
  intro m hb
  refine .accept? hk (hk.spares rfl) (fun t m₁ hm₁ _ ↦ ?_) (.fail hk .expression)
  subst hm₁
  have hb₁ := hb.suffix (List.suffix_cons t m₁)
  dsimp only
  split
  case h_6 =>
    refine (hp m₁ hb₁).bind fun e m₂ _ ↦ ?_
    exact (LocalAt.expect hk (hk.spares rfl) .groupEnd).discard.bind fun _ _ _ ↦ .pure _
  all_goals exact .pure _

theorem commaItems_local {item item' : Parse α} (tooMany : Complaint)
    (hp : Local k k' bound bound' item item') (n : Nat) :
    ∀ n' done m, Fits k k' bound bound' m → Fits k k' n n' m →
      LocalAt k k' false (commaItems tooMany item (n + 1) done)
        (commaItems tooMany item' (n' + 1) done) m := by
  have step {n n' : Nat} {done : Array α} {m : List Token} (hb : Fits k k' bound bound' m)
      (hmore : ∀ done t m₁, (t :: m₁) <:+ m →
        LocalAt k k' false (commaItems tooMany item n done) (commaItems tooMany item' n' done) m₁) :
      LocalAt k k' false (commaItems tooMany item (n + 1) done)
        (commaItems tooMany item' (n' + 1) done) m := by
    have rest {m : List Token} (hb : Fits k k' bound bound' m)
        (hmore : ∀ done t m₁, (t :: m₁) <:+ m →
          LocalAt k k' false (commaItems tooMany item n done) (commaItems tooMany item' n' done) m₁) :
        LocalAt k k' false
          (item >>= fun a ↦ accept .comma >>= fun more ↦
            if more = true then commaItems tooMany item n (done.push a) else Pure.pure (done.push a))
          (item' >>= fun a ↦ accept .comma >>= fun more ↦
            if more = true then commaItems tooMany item' n' (done.push a)
            else Pure.pure (done.push a)) m := by
      refine (hp m hb).bind fun a m₁ hm₁ ↦ .accept hk (hk.spares rfl) (fun comma m₂ hm₂ _ ↦ ?_) ?_
      · exact hmore _ comma m₂ (hm₂ ▸ hm₁.1)
      · exact .pure _
    unfold commaItems
    dsimp only
    split
    · exact (LocalAt.peek hk).bind fun t _ hm ↦ (LocalAt.complain t tooMany).bind fun _ _ hm' ↦
        rest (hb.suffix (hm'.1.trans hm.1)) fun done t m₁ ht ↦ hmore done t m₁ (ht.trans (hm'.1.trans hm.1))
    · exact rest hb hmore
  induction n with
  | zero =>
    intro n' done m hb hn
    refine step hb fun done t m₁ ht ↦ ?_
    obtain ⟨_, _, h, -⟩ := (hn.suffix ht).pos (.tail t m₁)
    cases h
  | succ n ih =>
    intro n' done m hb hn
    refine step hb fun done t m₁ ht ↦ ?_
    obtain ⟨_, n', -, rfl⟩ := (hn.suffix ht).pos (.tail t m₁)
    have hm₁ := (List.suffix_cons t m₁).trans ht
    exact ih n' done m₁ (hb.suffix hm₁) ((hn.suffix ht).pred (.tail t m₁))

theorem parenthesised_local {item item' : Parse α} (tooMany : Complaint) (close : Missing)
    (hp : Local k k' bound bound' item item') {m m₁ : List Token} (hb : Fits k k' bound bound' m)
    (hm : Leaves true m m₁) :
    LocalAt k k' true (parenthesised tooMany close item bound)
      (parenthesised tooMany close item' bound') m₁ := by
  obtain ⟨n, n', rfl, rfl⟩ := hb.pos hm
  have rest (items : Array α) (m₃ : List Token) : LocalAt k k' true
      (do return (items.toList, ← expect .rightParen close))
      (do return (items.toList, ← expect .rightParen close)) m₃ :=
    (LocalAt.expect hk (hk.spares rfl) close).first fun _ _ _ ↦ .pure _
  refine .check hk fun empty ↦ ?_
  dsimp only
  split
  · exact (LocalAt.pure _).bind fun items m₂ _ ↦ rest items m₂
  · have hitems := commaItems_local hk tooMany hp n n' #[] m₁ (hb.suffix hm.1) (hb.pred hm)
    exact hitems.bind fun items m₂ _ ↦ rest items m₂

theorem suffixes_local {argument argument' : Parse Expr}
    (hp : Local k k' bound bound' argument argument') (n : Nat) :
    ∀ n' e m, Fits k k' bound bound' m → Fits k k' n n' m →
      LocalAt k k' false (suffixes bound argument n e) (suffixes bound' argument' n' e) m := by
  induction n with
  | zero =>
    intro n' e m _ hn
    rcases hn.cases hk with ⟨h, h'⟩ | ⟨_, _, h, -⟩
    · exact localAt_of_nil h h' (suffixes_nil 0 e) (suffixes_nil n' e)
    · cases h
  | succ n ih =>
    intro n' e m hb hn
    rcases hn.cases hk with ⟨h, h'⟩ | ⟨_, n', -, rfl⟩
    · exact localAt_of_nil h h' (suffixes_nil _ e) (suffixes_nil _ e)
    · unfold suffixes
      refine .accept? hk (hk.spares rfl) (fun t m₁ hm _ ↦ ?_) (.pure e)
      subst hm
      have htail := Leaves.tail t m₁
      have hb₁ := hb.suffix htail.1
      have hn₁ := hn.pred htail
      dsimp only
      split
      · refine (LocalAt.expect hk (hk.spares rfl) .propertyName).bind fun name m₂ hm₂ ↦ ?_
        exact ih _ _ m₂ (hb₁.suffix hm₂.1) (hn₁.suffix hm₂.1)
      · refine (parenthesised_local hk .tooManyArguments .argumentsEnd hp hb htail).bind
          fun ⟨arguments, paren⟩ m₂ hm₂ ↦ ?_
        exact ih _ _ m₂ (hb₁.suffix hm₂.1) (hn₁.suffix hm₂.1)

mutual

theorem expression_local :
    ∀ room, Local k k' bound bound' (expression bound room) (expression bound' room)
  | room + 7 => by
    rw [expression, expression]
    exact assignment_local hk (operand_local room) (expression_local (room + 6))
  | 0 | 1 | 2 | 3 | 4 | 5 | 6 => fun _ _ ↦ .throw .tooDeep

theorem operand_local :
    ∀ room, Local k k' bound bound' (operand bound room) (operand bound' room)
  | room + 4 => by
    intro m hb
    rw [operand, operand]
    refine .accept? hk (hk.spares rfl) (fun operator m₁ hm _ ↦ ?_) ?_
    · have hb₁ := hb.suffix (hm ▸ List.suffix_cons operator m₁)
      exact (operand_local (room + 3) m₁ hb₁).bind fun _ _ _ ↦ .pure _
    · have hinner := expression_local room
      refine (primary_local hk hinner m hb).first fun e m₁ hm₁ ↦ ?_
      have hb₁ := hb.suffix hm₁.1
      exact suffixes_local hk hinner _ _ e m₁ hb₁ hb₁
  | 0 | 1 | 2 | 3 => fun _ _ ↦ .throw .tooDeep

end

end Expressions

theorem resume_suffix (previous : Token) (r : List Token) : resume previous r <:+ r := by
  induction r generalizing previous with
  | nil => exact List.suffix_rfl
  | cons t r ih =>
    unfold resume
    split
    · exact List.suffix_rfl
    · exact (ih t).trans (List.suffix_cons t r)

theorem afterMistake_leaves (hm : m ≠ []) (h : m₁ <:+ m) : Leaves true m (afterMistake m₁) := by
  have hle := h.length_le
  cases m₁ with
  | nil => exact ⟨List.nil_suffix, fun _ ↦ List.length_pos_iff.mpr hm⟩
  | cons t m₁ =>
    have hrest := resume_suffix t m₁
    refine ⟨(hrest.trans (List.suffix_cons t m₁)).trans h, fun _ ↦ ?_⟩
    exact Nat.lt_of_le_of_lt hrest.length_le hle

section Statements

def Tail.ends (last : Token) : Tail := ⟨[], last⟩

variable {last : Token}

theorem Tail.ends_spares (wanted : Kind → Bool) : (Tail.ends last).Spares wanted := nofun

def LocalItem (last : Token) (bound bound' : Nat) (item item' : Parse α) : Prop :=
  ∀ m, m ≠ [] → Fits (.ends last) (.ends last) bound bound' m →
    LocalAt (.ends last) (.ends last) true item item' m

theorem recovering_local {p p' : Parse α} (hm : m ≠ [])
    (h : LocalAt (.ends last) (.ends last) true p p' m) :
    LocalAt (.ends last) (.ends last) true (recovering p) (recovering p') m := by
  intro faults faults'
  have hp := h faults faults'
  unfold recovering
  generalize p _ = x at hp ⊢
  generalize p' _ = x' at hp ⊢
  cases hp with
  | ok hleft => exact .ok hleft
  | @error stop m₁ new hsuffix =>
    cases stop with
    | tooDeep => exact .error hsuffix
    | mistake =>
      have hafter (faults : Array Diagnostic) :
          { (Tail.ends last).behind m₁ faults with rest := afterMistake ((Tail.ends last).behind m₁ faults).rest } =
            (Tail.ends last).behind (afterMistake m₁) faults := by
        simp [Tail.behind, Tail.ends]
      dsimp only
      rw [hafter, hafter]
      exact .ok (afterMistake_leaves hm hsuffix)

theorem itemsUntil_nil {item : Parse α} {close : Kind} (n : Nat) (done : Array α) (c : Cursor)
    (h : c.rest = []) : itemsUntil close item n done c = .ok done c := by
  cases n with
  | zero => rfl
  | succ n =>
    have hend : atEnd c = .ok true c := by
      show EStateM.Result.ok c.rest.isEmpty c = _
      rw [h]
      rfl
    unfold itemsUntil
    simp only [Bind.bind, EStateM.bind, hend]
    rfl

theorem itemsUntil_local {item item' : Parse α} (close : Kind)
    (hp : LocalItem last bound bound' item item') (n : Nat) :
    ∀ n' done m, Fits (.ends last) (.ends last) bound bound' m →
      Fits (.ends last) (.ends last) n n' m →
      LocalAt (.ends last) (.ends last) false (itemsUntil close item n done)
        (itemsUntil close item' n' done) m := by
  have hk : Seam (Tail.ends last) (Tail.ends last) := .ends last
  induction n with
  | zero =>
    intro n' done m _ hn
    rcases hn.cases hk with ⟨h, h'⟩ | ⟨_, _, h, -⟩
    · exact localAt_of_nil h h' (itemsUntil_nil 0 done) (itemsUntil_nil n' done)
    · cases h
  | succ n ih =>
    intro n' done m hb hn
    cases m with
    | nil => exact localAt_of_nil rfl rfl (itemsUntil_nil _ done) (itemsUntil_nil _ done)
    | cons t m =>
      obtain ⟨_, n', -, rfl⟩ := hn.pos (.tail t m)
      have hend (faults : Array Diagnostic) : atEnd ((Tail.ends last).behind (t :: m) faults) =
          .ok false ((Tail.ends last).behind (t :: m) faults) := rfl
      unfold itemsUntil
      refine .step hend hend (.refl _) ?_
      refine .check hk fun found ↦ ?_
      split
      · exact .pure _
      · refine (hp _ (List.cons_ne_nil t m) hb).bind fun a m₁ hm₁ ↦ ?_
        exact ih n' _ m₁ (hb.suffix hm₁.1) (hn.pred hm₁)

theorem expect_local (kind : Kind) (what : Missing) :
    LocalAt (.ends last) (.ends last) true (expect kind what) (expect kind what) m :=
  .expect (.ends last) (Tail.ends_spares _) what

theorem closing_local (kind : Kind) (what : Missing) (a : α) :
    LocalAt (.ends last) (.ends last) true (discard (expect kind what) >>= fun _ ↦ pure a)
      (discard (expect kind what) >>= fun _ ↦ pure a) m :=
  (expect_local kind what).discard.first fun _ _ _ ↦ .pure a

variable {item item' : Parse (Option Stmt)} {e e' : Parse Expr}

theorem block_local (hi : LocalItem last bound bound' item item')
    (hb : Fits (.ends last) (.ends last) bound bound' m) :
    LocalAt (.ends last) (.ends last) false (block bound item) (block bound' item') m :=
  (itemsUntil_local .rightBrace hi _ _ #[] m hb hb).bind fun _ _ _ ↦
    (closing_local .rightBrace .blockEnd _).weaken nofun

theorem function_local (what : Callable) (hi : LocalItem last bound bound' item item') :
    Local (.ends last) (.ends last) bound bound' (function bound what item)
      (function bound' what item') := by
  intro m hb
  have hname : Local (.ends last) (.ends last) bound bound' (expect .identifier .parameterName)
      (expect .identifier .parameterName) := fun _ _ ↦ expect_local _ _
  refine (expect_local _ _).first fun name m₁ hm₁ ↦ ?_
  refine (expect_local _ _).discard.bind fun _ m₂ hm₂ ↦ ?_
  have hb₁ := hb.suffix hm₁.1
  refine (parenthesised_local (.ends last) .tooManyParameters .parameterEnd hname hb₁ hm₂).bind
    fun ⟨params, paren⟩ m₃ hm₃ ↦ ?_
  refine (expect_local _ _).discard.bind fun _ m₄ hm₄ ↦ ?_
  have hb₄ := ((hb₁.suffix hm₂.1).suffix hm₃.1).suffix hm₄.1
  exact (block_local hi hb₄).bind fun body _ _ ↦ .pure _

theorem classDeclaration_local (hi : LocalItem last bound bound' item item') :
    Local (.ends last) (.ends last) bound bound' (classDeclaration bound item)
      (classDeclaration bound' item') := by
  intro m hb
  refine (expect_local _ _).first fun name m₁ hm₁ ↦ ?_
  refine (expect_local _ _).discard.bind fun _ m₂ hm₂ ↦ ?_
  have hb₂ := (hb.suffix hm₁.1).suffix hm₂.1
  have hmethods := itemsUntil_local .rightBrace (fun m _ hm ↦ function_local .method hi m hm) _ _ #[]
    m₂ hb₂ hb₂
  exact hmethods.bind fun methods m₃ _ ↦ (closing_local _ _ _).weaken nofun

section Parts

variable (he : Local (.ends last) (.ends last) bound bound' e e')
include he

theorem varDeclaration_local :
    Local (.ends last) (.ends last) bound bound' (varDeclaration e) (varDeclaration e') := by
  intro m hb
  refine (expect_local _ _).first fun name m₁ hm₁ ↦ ?_
  refine .accept (.ends last) (Tail.ends_spares _) (fun t m₂ hm₂ _ ↦ ?_) ?_
  · have hb₂ := (hb.suffix hm₁.1).suffix (hm₂ ▸ List.suffix_cons t m₂)
    exact (he m₂ hb₂).map.bind fun _ _ _ ↦ (closing_local _ _ _).weaken nofun
  · exact (LocalAt.pure (none : Option Expr)).bind fun _ _ _ ↦ (closing_local _ _ _).weaken nofun

theorem expressionStatement_local :
    Local (.ends last) (.ends last) bound bound' (expressionStatement e) (expressionStatement e') :=
  fun m hb ↦ (he m hb).bind fun _ _ _ ↦ closing_local _ _ _

theorem printStatement_local :
    Local (.ends last) (.ends last) bound bound' (printStatement e) (printStatement e') :=
  fun m hb ↦ (he m hb).bind fun _ _ _ ↦ closing_local _ _ _

theorem returnStatement_local (keyword : Token) :
    Local (.ends last) (.ends last) bound bound' (returnStatement keyword e)
      (returnStatement keyword e') := by
  intro m hb
  refine .check (.ends last) fun found ↦ ?_
  dsimp only
  split
  · exact (LocalAt.pure (none : Option Expr)).bind fun _ _ _ ↦ closing_local _ _ _
  · exact (he m hb).map.bind fun _ _ _ ↦ closing_local _ _ _

theorem forInitializer_local :
    Local (.ends last) (.ends last) bound bound' (forInitializer e) (forInitializer e') := by
  intro m hb
  refine .accept (.ends last) (Tail.ends_spares _) (fun _ _ _ _ ↦ .pure _) ?_
  refine .accept (.ends last) (Tail.ends_spares _) (fun t m₁ hm₁ _ ↦ ?_) ?_
  · exact (varDeclaration_local he m₁ (hb.suffix (hm₁ ▸ List.suffix_cons t m₁))).weaken nofun
  · exact expressionStatement_local he m hb

theorem forCondition_local :
    Local (.ends last) (.ends last) bound bound' (forCondition e) (forCondition e') := by
  intro m hb
  refine .check (.ends last) fun found ↦ ?_
  dsimp only
  split
  · exact (LocalAt.pure _).bind fun _ _ _ ↦ closing_local _ _ _
  · exact (he m hb).bind fun _ _ _ ↦ closing_local _ _ _

theorem forIncrement_local :
    Local (.ends last) (.ends last) bound bound' (forIncrement e) (forIncrement e') := by
  intro m hb
  refine .check (.ends last) fun found ↦ ?_
  dsimp only
  split
  · exact (LocalAt.pure _).bind fun _ _ _ ↦ closing_local _ _ _
  · exact (he m hb).map.bind fun _ _ _ ↦ closing_local _ _ _

variable {p p' : Parse Stmt} (hs : Local (.ends last) (.ends last) bound bound' p p')
include hs

theorem ifStatement_local :
    Local (.ends last) (.ends last) bound bound' (ifStatement e p) (ifStatement e' p') := by
  intro m hb
  refine (expect_local _ _).discard.first fun _ m₁ hm₁ ↦ ?_
  have hb₁ := hb.suffix hm₁.1
  refine (he m₁ hb₁).bind fun condition m₂ hm₂ ↦ ?_
  have hb₂ := hb₁.suffix hm₂.1
  refine (expect_local _ _).discard.bind fun _ m₃ hm₃ ↦ ?_
  have hb₃ := hb₂.suffix hm₃.1
  refine (hs m₃ hb₃).bind fun yes m₄ hm₄ ↦ ?_
  refine .accept (.ends last) (Tail.ends_spares _) (fun t m₅ hm₅ _ ↦ ?_) ?_
  · have hb₅ := (hb₃.suffix hm₄.1).suffix (hm₅ ▸ List.suffix_cons t m₅)
    exact (hs m₅ hb₅).map.bind fun _ _ _ ↦ .pure _
  · exact (LocalAt.pure _).bind fun _ _ _ ↦ .pure _

theorem whileStatement_local :
    Local (.ends last) (.ends last) bound bound' (whileStatement e p) (whileStatement e' p') := by
  intro m hb
  refine (expect_local _ _).discard.first fun _ m₁ hm₁ ↦ ?_
  have hb₁ := hb.suffix hm₁.1
  refine (he m₁ hb₁).bind fun condition m₂ hm₂ ↦ ?_
  refine (expect_local _ _).discard.bind fun _ m₃ hm₃ ↦ ?_
  exact (hs m₃ ((hb₁.suffix hm₂.1).suffix hm₃.1)).bind fun _ _ _ ↦ .pure _

theorem forStatement_local :
    Local (.ends last) (.ends last) bound bound' (forStatement e p) (forStatement e' p') := by
  intro m hb
  refine (expect_local _ _).discard.first fun _ m₁ hm₁ ↦ ?_
  have hb₁ := hb.suffix hm₁.1
  refine (forInitializer_local he m₁ hb₁).bind fun initial m₂ hm₂ ↦ ?_
  have hb₂ := hb₁.suffix hm₂.1
  refine (forCondition_local he m₂ hb₂).bind fun condition m₃ hm₃ ↦ ?_
  have hb₃ := hb₂.suffix hm₃.1
  refine (forIncrement_local he m₃ hb₃).bind fun increment m₄ hm₄ ↦ ?_
  exact (hs m₄ (hb₃.suffix hm₄.1)).bind fun _ _ _ ↦ .pure _

theorem plainStatement_local (hi : LocalItem last bound bound' item item') :
    Local (.ends last) (.ends last) bound bound' (plainStatement bound e p item)
      (plainStatement bound' e' p' item') := by
  intro m hb
  refine .accept? (.ends last) (Tail.ends_spares _) (fun t m₁ hm₁ _ ↦ ?_)
    (expressionStatement_local he m hb)
  have hb₁ := hb.suffix (hm₁ ▸ List.suffix_cons t m₁)
  dsimp only
  split
  · exact (printStatement_local he m₁ hb₁).weaken nofun
  · exact (returnStatement_local he t m₁ hb₁).weaken nofun
  · exact (forStatement_local he hs m₁ hb₁).weaken nofun
  · exact (ifStatement_local he hs m₁ hb₁).weaken nofun
  · exact (whileStatement_local he hs m₁ hb₁).weaken nofun
  · exact (block_local hi hb₁).bind fun _ _ _ ↦ .pure _

theorem declared_local {method method' : Parse (Option Stmt)}
    (hi : LocalItem last bound bound' item item') (hm : LocalItem last bound bound' method method') :
    Local (.ends last) (.ends last) bound bound' (declared bound e p item method)
      (declared bound' e' p' item' method') := by
  intro m hb
  refine .accept? (.ends last) (Tail.ends_spares _) (fun t m₁ hm₁ _ ↦ ?_) (hs m hb)
  have hb₁ := hb.suffix (hm₁ ▸ List.suffix_cons t m₁)
  dsimp only
  split
  · exact (classDeclaration_local hm m₁ hb₁).weaken nofun
  · exact (function_local .function hi m₁ hb₁).map.weaken nofun
  · exact (varDeclaration_local he m₁ hb₁).weaken nofun

end Parts

mutual

theorem statement_local : ∀ room, Local (.ends last) (.ends last) bound bound'
    (statement bound room) (statement bound' room)
  | room + 3 => by
    rw [statement, statement]
    exact plainStatement_local (expression_local (.ends last) room) (statement_local (room + 1))
      (declaration_local (room + 1))
  | 0 | 1 | 2 => fun _ _ ↦ .throw .tooDeep

theorem declaration_local : ∀ room, LocalItem last bound bound'
    (declaration bound room) (declaration bound' room)
  | room + 4 => by
    intro m hm hb
    rw [declaration, declaration]
    exact recovering_local hm (declared_local (expression_local (.ends last) (room + 1))
      (statement_local (room + 3)) (declaration_local (room + 1)) (declaration_local room) m hb)
  | 0 | 1 | 2 | 3 => fun _ _ _ ↦ .throw .tooDeep

end

end Statements

end TreeWalk.Parse
