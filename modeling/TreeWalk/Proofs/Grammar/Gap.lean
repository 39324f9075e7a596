import TreeWalk.Proofs.Grammar.Contained

namespace TreeWalk

/-- What is asked for where a brace stands in place of the semicolon that ends a statement. A bare return
is taken to have a value then. -/
def Stmt.ending? : Stmt → Option Missing
  | .print _ => some .printEnd
  | .expression _ => some .expressionEnd
  | .var _ _ => some .variableEnd
  | .returns _ (some _) => some .returnEnd
  | .returns _ none => some .expression
  | _ => none

namespace Parse

open Grammar

variable {α β γ : Type}

theorem afterMistake_suffix (m : List Token) : afterMistake m <:+ m := by
  cases m with
  | nil => exact List.suffix_rfl
  | cons t m => exact (resume_suffix t m).trans (List.suffix_cons t m)

/-- Where a semicolon is missing before a brace, and what is asked for there. -/
structure Gap where
  semicolon : Token
  brace : Token
  tail : List Token
  last : Token
  what : Missing
  ends : semicolon.kind = .semicolon
  closes : brace.kind = .rightBrace

namespace Gap

variable (g : Gap)

def kept : List Token := afterMistake (g.brace :: g.tail)

def broken (w : List Token) : List Token := w ++ g.brace :: g.tail

def mended (w : List Token) : List Token := w ++ g.semicolon :: g.kept

def fault : Diagnostic := .atToken g.brace (.expected g.what)

/-- The readings without and with the semicolon see one of these behind some words. -/
def Follows (w k : List Token) : Prop := k = g.mended w ∨ k = g.broken w

/-- How readings with the semicolon and without it end: with values that are related, the same words left,
and the same complaints after the one about the gap. A value that is looked for behind a bare return may find
no room. -/
inductive Meets (R : α → α → Prop) (faults : Array Diagnostic) :
    EStateM.Result Stop Cursor α → EStateM.Result Stop Cursor α → Prop
  | ok {a a' : α} {m : List Token} {new : Array Diagnostic} : R a a' → m <:+ g.kept →
      Meets R faults (.ok a ⟨m, g.last, faults ++ new⟩) (.ok a' ⟨m, g.last, faults.push g.fault ++ new⟩)
  | error {stop : Stop} {m : List Token} {new : Array Diagnostic} : m <:+ g.kept →
      Meets R faults (.error stop ⟨m, g.last, faults ++ new⟩)
        (.error stop ⟨m, g.last, faults.push g.fault ++ new⟩)
  | deep {x : EStateM.Result Stop Cursor α} : g.what = .expression →
      Meets R faults x (.error .tooDeep ⟨g.broken [], g.last, faults⟩)

def Breaks (p : Parse α) (R : α → α → Prop) (w : List Token) : Prop :=
  ∀ faults, g.Meets R faults (p ⟨g.mended w, g.last, faults⟩) (p ⟨g.broken w, g.last, faults⟩)

/-- A reading that takes the semicolon last, and finds the gap where it is missing. -/
structure Misses (p : Parse α) (a : α) (w : List Token) : Prop where
  mended : ∀ faults, p ⟨g.mended w, g.last, faults⟩ = .ok a ⟨g.kept, g.last, faults⟩
  broken : ∀ faults,
    p ⟨g.broken w, g.last, faults⟩ = .error .mistake ⟨g.broken [], g.last, faults.push g.fault⟩ ∨
      g.what = .expression ∧ p ⟨g.broken w, g.last, faults⟩ = .error .tooDeep ⟨g.broken [], g.last, faults⟩

variable {g} {p : Parse α} {f : α → Parse β} {R R₁ : α → α → Prop} {T : β → β → Prop}
  {a : α} {b : β} {w v k : List Token} {t : Token}

theorem kept_suffix : g.kept <:+ g.tail := resume_suffix g.brace g.tail

theorem broken_append (w v : List Token) : g.broken (w ++ v) = w ++ g.broken v := List.append_assoc ..

theorem mended_append (w v : List Token) : g.mended (w ++ v) = w ++ g.mended v := List.append_assoc ..

theorem length_broken (w : List Token) : (g.broken w).length = w.length + g.tail.length + 1 := by
  simp [broken, Nat.add_assoc]

theorem broken_le {bound : Nat} (hb : (g.broken w).length ≤ bound) (hle : v.length ≤ w.length) :
    (g.broken v).length ≤ bound := by
  rw [length_broken] at hb ⊢
  omega

theorem kept_length_le : g.kept.length ≤ g.tail.length := kept_suffix.length_le

theorem Follows.length_le (h : g.Follows w k) : k.length ≤ (g.broken w).length := by
  have hkept := g.kept_length_le
  rcases h with rfl | rfl
  · simp only [mended, length_broken, List.length_append, List.length_cons]
    omega
  · exact Nat.le_refl _

theorem Follows.cons (h : g.Follows (t :: w) k) : ∃ k', k = t :: k' ∧ g.Follows w k' := by
  rcases h with rfl | rfl
  · exact ⟨_, rfl, .inl rfl⟩
  · exact ⟨_, rfl, .inr rfl⟩

theorem Follows.ends {kinds : List Kind} (h : g.Follows (t :: w) k) (ht : t.kind ∉ kinds) : Ends kinds k := by
  obtain ⟨k, rfl, -⟩ := h.cons
  exact .cons ht

theorem Follows.stops (h : g.Follows [] k) : Ends expressionStops k := by
  rcases h with rfl | rfl
  · exact .cons (by rw [g.ends]; decide)
  · exact .cons (by rw [g.closes]; decide)

def Leads (g : Gap) (p : Parse α) (w : List Token) (a : α) (v : List Token) : Prop :=
  ∀ k, g.Follows v k → Takes p True (w ++ k) a k

theorem Leads.taken (h : g.Leads p w a v) (hk : g.Follows v k) (faults : Array Diagnostic) :
    p ⟨w ++ k, g.last, faults⟩ = .ok a ⟨k, g.last, faults⟩ :=
  (h k hk g.last faults).resolve_right fun hdeep ↦ hdeep.1 trivial

theorem Leads.mended (h : g.Leads p w a v) (faults : Array Diagnostic) :
    p ⟨g.mended (w ++ v), g.last, faults⟩ = .ok a ⟨g.mended v, g.last, faults⟩ := by
  rw [mended_append]
  exact h.taken (.inl rfl) faults

theorem Leads.broken (h : g.Leads p w a v) (faults : Array Diagnostic) :
    p ⟨g.broken (w ++ v), g.last, faults⟩ = .ok a ⟨g.broken v, g.last, faults⟩ := by
  rw [broken_append]
  exact h.taken (.inr rfl) faults

theorem Leads.misses (hp : g.Leads p w a v) (hf : g.Misses (f a) b v) : g.Misses (p >>= f) b (w ++ v) where
  mended faults := bind_eq_ok.mpr ⟨a, _, hp.mended faults, hf.mended faults⟩
  broken faults := (hf.broken faults).imp (fun h ↦ bind_eq_error.mpr (.inr ⟨a, _, hp.broken faults, h⟩))
    fun ⟨hwhat, h⟩ ↦ ⟨hwhat, bind_eq_error.mpr (.inr ⟨a, _, hp.broken faults, h⟩)⟩

theorem Leads.misses_cons (hp : g.Leads p [t] a v) (hf : g.Misses (f a) b v) : g.Misses (p >>= f) b (t :: v) :=
  hp.misses hf

namespace Misses

theorem closing (a : α) : g.Misses (discard (expect .semicolon g.what) >>= fun _ ↦ pure a) a [] := by
  rw [skip_bind]
  refine ⟨fun faults ↦ ?_, fun faults ↦ .inl ?_⟩
  · have hsome : accept? (· == .semicolon) ⟨g.mended [], g.last, faults⟩ =
        .ok (some g.semicolon) ⟨g.kept, g.last, faults⟩ := by simp [accept?, Gap.mended, g.ends]
    simp only [Bind.bind, EStateM.bind, hsome]
    rfl
  · have hnone : accept? (· == .semicolon) ⟨g.broken [], g.last, faults⟩ =
        .ok none ⟨g.broken [], g.last, faults⟩ := by simp [accept?, Gap.broken, g.closes]
    simp only [Bind.bind, EStateM.bind, hnone]
    rfl

theorem recovering (h : g.Misses p a w) :
    g.Breaks (recovering p) (fun o o' ↦ o = some a ∧ o' = none) w := by
  intro faults
  have hmended : Parse.recovering p ⟨g.mended w, g.last, faults⟩ =
      .ok (some a) ⟨g.kept, g.last, faults ++ #[]⟩ := by
    simp [Parse.recovering, h.mended]
  rw [hmended]
  rcases h.broken faults with hbroken | ⟨hwhat, hbroken⟩
  · have hbroken : Parse.recovering p ⟨g.broken w, g.last, faults⟩ =
        .ok none ⟨g.kept, g.last, faults.push g.fault ++ #[]⟩ := by
      simp only [Parse.recovering, hbroken, Array.append_empty]
      rfl
    rw [hbroken]
    exact .ok ⟨rfl, rfl⟩ List.suffix_rfl
  · have hbroken : Parse.recovering p ⟨g.broken w, g.last, faults⟩ =
        .error .tooDeep ⟨g.broken [], g.last, faults⟩ := by
      simp [Parse.recovering, hbroken]
    rw [hbroken]
    exact .deep hwhat

end Misses

theorem Leads.breaks (hp : g.Leads p w a v) (hf : g.Breaks (f a) T v) : g.Breaks (p >>= f) T (w ++ v) := by
  intro faults
  simp only [Bind.bind, EStateM.bind, hp.mended, hp.broken]
  exact hf faults

theorem Leads.breaks_cons (hp : g.Leads p [t] a v) (hf : g.Breaks (f a) T v) : g.Breaks (p >>= f) T (t :: v) :=
  hp.breaks hf

namespace Breaks

theorem mono (h : g.Breaks p R w) (hR : ∀ a a', R a a' → R₁ a a') : g.Breaks p R₁ w := by
  intro faults
  have hp := h faults
  generalize p _ = x at hp ⊢
  generalize p _ = x' at hp ⊢
  cases hp with
  | ok ha hm => exact .ok (hR _ _ ha) hm
  | error hm => exact .error hm
  | deep hwhat => exact .deep hwhat

theorem after (hp : g.Breaks p R w) {q : Parse β} {join : α → β → γ} {T : γ → γ → Prop}
    (hq : ∀ m, m <:+ g.kept → LocalAt (.ends g.last) (.ends g.last) false q q m)
    (hjoin : ∀ a a' b, R a a' → T (join a b) (join a' b)) :
    g.Breaks (p >>= fun a ↦ q >>= fun b ↦ pure (join a b)) T w := by
  intro faults
  have hp := hp faults
  show g.Meets T faults (EStateM.bind p _ _) (EStateM.bind p _ _)
  unfold EStateM.bind
  generalize p _ = x at hp ⊢
  generalize p _ = x' at hp ⊢
  cases hp with
  | error hm => exact .error hm
  | deep hwhat => exact .deep hwhat
  | @ok a a' m new ha hm =>
    have hrest := hq m hm (faults ++ new) (faults.push g.fault ++ new)
    simp only [Tail.behind, Tail.ends, List.append_nil] at hrest
    simp only [Bind.bind, EStateM.bind]
    generalize q _ = y at hrest ⊢
    generalize q _ = y' at hrest ⊢
    cases hrest with
    | ok hleft =>
      simp only [Tail.behind, List.append_nil, Array.append_assoc]
      exact .ok (hjoin _ _ _ ha) (hleft.1.trans hm)
    | error hsuffix =>
      simp only [Tail.behind, List.append_nil, Array.append_assoc]
      exact .error (hsuffix.trans hm)

theorem map {f : α → β} (hp : g.Breaks p R w) (hf : ∀ a a', R a a' → T (f a) (f a')) :
    g.Breaks (f <$> p) T w := by
  intro faults
  have hp := hp faults
  show g.Meets T faults (EStateM.map f p _) (EStateM.map f p _)
  unfold EStateM.map
  generalize p _ = x at hp ⊢
  generalize p _ = x' at hp ⊢
  cases hp with
  | ok ha hm => exact .ok (hf _ _ ha) hm
  | error hm => exact .error hm
  | deep hwhat => exact .deep hwhat

theorem recovering (hp : g.Breaks p R w) : g.Breaks (recovering p) (Option.Rel R) w := by
  intro faults
  have hp := hp faults
  unfold Parse.recovering
  generalize p _ = x at hp ⊢
  generalize p _ = x' at hp ⊢
  cases hp with
  | ok ha hm => exact .ok (.some ha) hm
  | deep hwhat => exact .deep hwhat
  | @error stop m new hm =>
    cases stop with
    | tooDeep => exact .error hm
    | mistake =>
      exact .ok .none ((afterMistake_suffix m).trans hm)

end Breaks

end Gap

section Losses

variable {s : Stmt}

/-- The second list is the first without an item `s`, or one item of it is related to that of the first, or
nothing is lost. -/
inductive Loses (s : Stmt) (R : Stmt → Stmt → Prop) : List Stmt → List Stmt → Prop
  | same {body : List Stmt} : Loses s R body body
  | item {before after : List Stmt} : Loses s R (before ++ s :: after) (before ++ after)
  | inside {before after : List Stmt} {t t' : Stmt} : R t t' →
      Loses s R (before ++ t :: after) (before ++ t' :: after)

/-- The second tree is the first without an item `s` of a body in it, or is the first. -/
inductive Lacks (s : Stmt) : Stmt → Stmt → Prop
  | same {t : Stmt} : Lacks s t t
  | block {body body' : List Stmt} : Loses s (Lacks s) body body' → Lacks s (.block body) (.block body')
  | function {name : Token} {params : List Token} {body body' : List Stmt} : Loses s (Lacks s) body body' →
      Lacks s (.function (.mk name params body)) (.function (.mk name params body'))
  | method {cls name : Token} {params : List Token} {body body' : List Stmt} {before after : List FunDecl} :
      Loses s (Lacks s) body body' →
      Lacks s (.cls cls (before ++ .mk name params body :: after))
        (.cls cls (before ++ .mk name params body' :: after))
  | yes {c : Expr} {t t' : Stmt} {no : Option Stmt} : Lacks s t t' → Lacks s (.branch c t no) (.branch c t' no)
  | no {c : Expr} {yes t t' : Stmt} : Lacks s t t' →
      Lacks s (.branch c yes (some t)) (.branch c yes (some t'))
  | loop {c : Expr} {t t' : Stmt} : Lacks s t t' → Lacks s (.loop c t) (.loop c t')

inductive LosesIn (s : Stmt) : FunDecl → FunDecl → Prop
  | body {name : Token} {params : List Token} {body body' : List Stmt} : Loses s (Lacks s) body body' →
      LosesIn s (.mk name params body) (.mk name params body')

theorem Loses.amid {R : Stmt → Stmt → Prop} {body body' : List Stmt} (h : Loses s R body body')
    (before after : List Stmt) : Loses s R (before ++ body ++ after) (before ++ body' ++ after) := by
  cases h with
  | same => exact .same
  | @item b a =>
    have h : Loses s R ((before ++ b) ++ s :: (a ++ after)) ((before ++ b) ++ (a ++ after)) := .item
    simpa using h
  | @inside b a t t' ht =>
    have h : Loses s R ((before ++ b) ++ t :: (a ++ after)) ((before ++ b) ++ t' :: (a ++ after)) := .inside ht
    simpa using h

theorem Loses.of_rel {R : Stmt → Stmt → Prop} {o o' : Option Stmt} (h : Option.Rel R o o') :
    Loses s R o.toList o'.toList := by
  cases h with
  | none => exact .same
  | some h => exact @Loses.inside s R [] [] _ _ h

theorem Lacks.forLoop {initial increment body body' : Stmt} {c : Expr} (h : Lacks s body body') :
    Lacks s (.forLoop initial c increment body) (.forLoop initial c increment body') := by
  have hround : Lacks s (.block [body, increment]) (.block [body', increment]) :=
    .block (@Loses.inside s (Lacks s) [] [increment] _ _ h)
  exact .block (@Loses.inside s (Lacks s) [initial] [] _ _ (.loop hround))

end Losses

section Items

def Amid (R : α → α → Prop) (as as' : Array α) : Prop :=
  ∃ (before : Array α) (a a' : α) (after : Array α), as = before.push a ++ after ∧
    as' = before.push a' ++ after ∧ R a a'

variable {item : Parse α} {G : Phrase α} {close : Kind} {kinds stops : List Kind} {bound : Nat}

theorem itemsUntil_done (n : Nat) (done : Array α) :
    itemsUntil close item n done = itemsUntil close item n #[] >>= fun as ↦ pure (done ++ as) := by
  induction n generalizing done with
  | zero => simp [itemsUntil]
  | succ n ih =>
    unfold itemsUntil
    simp only [bind_assoc]
    congr 1
    funext ended
    congr 1
    funext closes
    split
    · simp
    · simp only [bind_assoc]
      congr 1
      funext a
      rw [ih (done.push a), ih (#[].push a)]
      simp

theorem itemsUntil_item {t : Token} (ht : t.kind ≠ close) (n : Nat) (done : Array α) (k : List Token)
    (last : Token) (faults : Array Diagnostic) :
    itemsUntil close item (n + 1) done ⟨t :: k, last, faults⟩ =
      (item >>= fun a ↦ itemsUntil close item n (done.push a)) ⟨t :: k, last, faults⟩ := by
  have hcheck : check close ⟨t :: k, last, faults⟩ = .ok false ⟨t :: k, last, faults⟩ := by
    show EStateM.Result.ok (t.kind == close) _ = _
    rw [beq_eq_false_iff_ne.mpr ht]
  have hend : atEnd ⟨t :: k, last, faults⟩ = .ok false ⟨t :: k, last, faults⟩ := rfl
  rw [itemsUntil]
  simp only [Bind.bind, EStateM.bind, hend, hcheck]
  rfl

theorem itemsUntil_sequence (hG : Starts kinds G) (hclose : close ∉ kinds) (hstops : ∀ x ∈ kinds, x ∉ stops)
    (hp : Completes bound item True stops G) {last : Token} {k : List Token} (hk : Ends stops k)
    {w : List Token} {as : List α} (h : Sequence G w as) :
    ∀ (n : Nat) (done : Array α) (faults : Array Diagnostic), (w ++ k).length ≤ bound →
      itemsUntil close item (n + as.length) done ⟨w ++ k, last, faults⟩ =
        itemsUntil close item n (done ++ as.toArray) ⟨k, last, faults⟩ := by
  induction h with
  | nil => simp
  | @cons w v a as ha has ih =>
    intro n done faults hb
    obtain ⟨t, u, rfl, ht⟩ := hG ha
    have hends : Ends stops (v ++ k) := by
      cases has with
      | nil => exact hk
      | cons h _ =>
        rw [List.append_assoc]
        exact hG.ends hstops h
    rw [List.append_assoc] at hb ⊢
    have hitem : item ⟨t :: (u ++ (v ++ k)), last, faults⟩ = .ok a ⟨v ++ k, last, faults⟩ :=
      (hp ha hends hb last faults).resolve_right fun hdeep ↦ hdeep.1 trivial
    have hrest := ih n (done.push a) faults (by simp only [List.length_append] at hb ⊢; omega)
    have hopen : t.kind ≠ close := fun h ↦ hclose (h ▸ ht)
    rw [List.length_cons, ← Nat.add_assoc, List.cons_append, itemsUntil_item hopen]
    simp only [Bind.bind, EStateM.bind, hitem, hrest]
    simp

variable {g : Gap} {R : α → α → Prop}

/-- The items before the gap, the one that holds it, and those behind. -/
theorem itemsUntil_breaks (hG : Starts kinds G) (hclose : close ∉ kinds) (hstops : ∀ x ∈ kinds, x ∉ stops)
    (hp : Completes bound item True stops G) (hlocal : LocalItem g.last bound bound item item)
    {w v : List Token} {as : List α} (has : Sequence G w as) {t : Token} (hopen : t.kind ≠ close)
    (hends : t.kind ∉ stops) (hitem : g.Breaks item R (t :: v)) (hb : (g.broken (w ++ t :: v)).length ≤ bound) :
    g.Breaks (itemsUntil close item bound #[]) (Amid R) (w ++ t :: v) := by
  have hcount := sequence_length_le hG has
  have hlength := hb
  simp only [Gap.length_broken, List.length_append, List.length_cons] at hlength
  obtain ⟨n, hn⟩ : ∃ n, bound = n + 1 + as.length := ⟨bound - as.length - 1, by omega⟩
  have hbefore (k : List Token) (hk : g.Follows (t :: v) k) (faults : Array Diagnostic) :
      itemsUntil close item bound #[] ⟨w ++ k, g.last, faults⟩ =
        (item >>= fun a ↦ itemsUntil close item n (as.toArray.push a)) ⟨k, g.last, faults⟩ := by
    have hle := hk.length_le
    have hfirst : itemsUntil close item (n + 1 + as.length) #[] ⟨w ++ k, g.last, faults⟩ = _ :=
      itemsUntil_sequence hG hclose hstops hp (hk.ends hends) has (n + 1) #[] faults
        (by simp only [Gap.length_broken, List.length_append, List.length_cons] at hle ⊢; omega)
    obtain ⟨k, rfl, -⟩ := hk.cons
    rw [itemsUntil_item hopen, Array.empty_append, ← hn] at hfirst
    exact hfirst
  have hafter : g.Breaks (item >>= fun a ↦ itemsUntil close item n (as.toArray.push a)) (Amid R) (t :: v) := by
    have heq : (fun a ↦ itemsUntil close item n (as.toArray.push a)) = fun a ↦
        itemsUntil close item n #[] >>= fun after ↦ pure (as.toArray.push a ++ after) :=
      funext fun a ↦ itemsUntil_done n (as.toArray.push a)
    rw [heq]
    refine hitem.after (fun m hm ↦ ?_) fun a a' after ha ↦ ⟨_, a, a', after, rfl, rfl, ha⟩
    have hm := hm.length_le
    have hkept := g.kept_length_le
    refine itemsUntil_local close hlocal n n #[] m ?_ ?_
    · simp only [Fits, Tail.ends, List.append_nil]
      omega
    · simp only [Fits, Tail.ends, List.append_nil]
      omega
  intro faults
  rw [Gap.mended_append, Gap.broken_append, hbefore _ (.inl rfl), hbefore _ (.inr rfl)]
  exact hafter faults

end Items

section Statements

variable {g : Gap} {bound room : Nat} {w v : List Token} {s : Stmt}

theorem Completes.leads {p : Parse α} {stops : List Kind} {G : Phrase α} (hp : Completes bound p True stops G)
    {a : α} (h : G w a) (hends : ∀ k, g.Follows v k → Ends stops k)
    (hb : (g.broken (w ++ v)).length ≤ bound) : g.Leads p w a v := by
  intro k hk
  have hle := hk.length_le
  refine hp h (hends k hk) ?_
  simp only [Gap.length_broken, List.length_append] at hb hle ⊢
  omega

theorem expression_completes : Completes bound (expression bound room) True expressionStops (Expression room) :=
  fun _ _ _ h hk hb ↦ (expression_complete room room h hk hb).mono fun _ ↦ Nat.le_refl room

theorem declaration_completes : Completes bound (declaration bound room) True [.elseWord]
    fun w o ↦ ∃ s, o = some s ∧ Declaration room w s :=
  fun _ _ _ h hk hb ↦ (declaration_complete room room h hk hb).mono fun _ ↦ Nat.le_refl room

theorem operand_brace (faults : Array Diagnostic) :
    operand bound room ⟨g.broken [], g.last, faults⟩ =
        .error .mistake ⟨g.broken [], g.last, faults.push (.atToken g.brace (.expected .expression))⟩ ∨
      operand bound room ⟨g.broken [], g.last, faults⟩ = .error .tooDeep ⟨g.broken [], g.last, faults⟩ := by
  match room with
  | 0 | 1 | 2 | 3 => exact .inr rfl
  | room + 4 =>
    have hnone {wanted : Kind → Bool} (h : wanted .rightBrace = false) :
        accept? wanted ⟨g.broken [], g.last, faults⟩ = .ok none ⟨g.broken [], g.last, faults⟩ :=
      accept?_none fun t ht ↦ by
        cases ht
        rw [g.closes, h]
    have hsign := hnone (show isSign .rightBrace = false from rfl)
    have hprimary := hnone (show isPrimary .rightBrace = false from rfl)
    refine .inl ?_
    rw [operand]
    simp only [primary, Bind.bind, EStateM.bind, hsign, hprimary]
    rfl

theorem expression_brace (faults : Array Diagnostic) :
    expression bound room ⟨g.broken [], g.last, faults⟩ =
        .error .mistake ⟨g.broken [], g.last, faults.push (.atToken g.brace (.expected .expression))⟩ ∨
      expression bound room ⟨g.broken [], g.last, faults⟩ = .error .tooDeep ⟨g.broken [], g.last, faults⟩ := by
  match room with
  | 0 | 1 | 2 | 3 | 4 | 5 | 6 => exact .inr rfl
  | room + 7 =>
    have hfirst {e : Stop} {c : Cursor} (h : operand bound room ⟨g.broken [], g.last, faults⟩ = .error e c) :
        expression bound (room + 7) ⟨g.broken [], g.last, faults⟩ = .error e c := by
      rw [expression]
      simp only [assignment, operation, leftAssociative, Bind.bind, EStateM.bind, h]
    exact (operand_brace faults).imp hfirst hfirst

theorem Gap.Misses.ended {p : Parse α} {a : α} {f : α → β} {what : Missing} (hwhat : what = g.what)
    (hp : g.Leads p w a []) :
    g.Misses (p >>= fun a ↦ discard (expect .semicolon what) >>= fun _ ↦ pure (f a)) (f a) w := by
  subst hwhat
  have h := hp.misses (f := fun a ↦ discard (expect .semicolon g.what) >>= fun _ ↦ pure (f a)) (.closing (f a))
  rwa [List.append_nil] at h

theorem expression_leads {e : Expr} (he : Expression room w e) (hb : (g.broken w).length ≤ bound) :
    g.Leads (expression bound room) w e [] :=
  Completes.leads expression_completes he (fun _ hk ↦ hk.stops) (by rwa [List.append_nil])

theorem returnStatement_bare {keyword : Token} (hwhat : g.what = .expression) :
    g.Misses (returnStatement keyword (expression bound room)) (.returns keyword none) [] where
  mended faults := by
    have htakes : Takes (returnStatement keyword (expression bound room)) True (g.semicolon :: g.kept)
        (.returns keyword none) g.kept :=
      (Takes.check g.ends).bind (Takes.pure.bind ((Takes.skip g.ends).bind .pure))
    exact (htakes g.last faults).resolve_right fun hdeep ↦ hdeep.1 trivial
  broken faults := by
    have hclosed : g.brace.kind ≠ .semicolon := by rw [g.closes]; decide
    have hcheck : check .semicolon ⟨g.broken [], g.last, faults⟩ = .ok false ⟨g.broken [], g.last, faults⟩ := by
      show EStateM.Result.ok (g.brace.kind == .semicolon) _ = _
      rw [beq_eq_false_iff_ne.mpr hclosed]
    have hrest {e : Stop} {c : Cursor} (h : expression bound room ⟨g.broken [], g.last, faults⟩ = .error e c) :
        returnStatement keyword (expression bound room) ⟨g.broken [], g.last, faults⟩ = .error e c := by
      have hsome : (some <$> expression bound room) ⟨g.broken [], g.last, faults⟩ = .error e c := by
        show EStateM.map some _ _ = _
        rw [EStateM.map, h]
      refine bind_eq_error.mpr (.inr ⟨false, _, hcheck, ?_⟩)
      exact bind_eq_error.mpr (.inl hsome)
    have hfault : g.fault = .atToken g.brace (.expected .expression) := by rw [Gap.fault, hwhat]
    rw [hfault]
    exact (expression_brace faults).imp hrest fun h ↦ ⟨hwhat, hrest h⟩

theorem accept?_leads {wanted : Kind → Bool} {t : Token} (ht : wanted t.kind = true) :
    g.Leads (accept? wanted) [t] (some t) v :=
  fun _ _ ↦ .accept? ht

theorem accept?_none_leads {wanted : Kind → Bool} {t : Token} {v : List Token} (ht : wanted t.kind = false) :
    g.Leads (accept? wanted) [] none (t :: v) := by
  intro k hk
  obtain ⟨k, rfl, -⟩ := hk.cons
  refine .accept?_none fun u hu ↦ ?_
  cases hu
  exact ht

theorem check_leads {kind : Kind} {t : Token} {v : List Token} (ht : t.kind ≠ kind) :
    g.Leads (check kind) [] false (t :: v) :=
  fun _ hk ↦ .check_false (hk.ends (by simpa using ht))

theorem Gap.Leads.map {p : Parse α} {a : α} {f : α → β} (hp : g.Leads p w a v) : g.Leads (f <$> p) w (f a) v :=
  fun k hk ↦ (hp k hk).map

theorem expect_leads {kind : Kind} {what : Missing} {t : Token} (ht : t.kind = kind) :
    g.Leads (expect kind what) [t] t v :=
  fun _ _ ↦ .expect ht

theorem accept_leads {kind : Kind} {t : Token} (ht : t.kind = kind) : g.Leads (accept kind) [t] true v :=
  fun _ _ ↦ .accept ht

theorem skip_leads {kind : Kind} {what : Missing} {t : Token} (ht : t.kind = kind) :
    g.Leads (discard (expect kind what)) [t] () v :=
  fun _ _ ↦ .skip ht

variable {p : Parse Stmt} {item : Parse (Option Stmt)}

theorem plainStatement_misses {S : Bool → Phrase Stmt} {G : Phrase Stmt} {dangling : Bool}
    (h : Undeclared (Expression room) S G dangling (w ++ [g.semicolon]) s) (hwhat : s.ending? = some g.what)
    (hb : (g.broken w).length ≤ bound) :
    g.Misses (plainStatement bound (expression bound room) p item) s w := by
  have hshort {t : Token} {u : List Token} (hb : (g.broken (t :: u)).length ≤ bound) :
      (g.broken u).length ≤ bound := Nat.le_of_succ_le hb
  generalize hw : w ++ [g.semicolon] = x at h
  cases h with
  | block | ifThen | ifElse | loop | forLoop => cases hwhat
  | @expression u semicolon e he hsemicolon =>
    obtain ⟨rfl, -⟩ := List.append_inj' hw rfl
    obtain ⟨t, v, rfl, ht⟩ := expression_starts room he
    refine (accept?_none_leads ?_).misses (.ended (Option.some.inj hwhat) (expression_leads he hb))
    exact (by decide : ∀ kind ∈ expressionStarts, opensStatement kind = false) _ ht
  | @print u keyword semicolon e hkeyword he hsemicolon =>
    obtain ⟨rfl, -⟩ := List.append_inj' hw rfl
    refine (accept?_leads (by rw [hkeyword]; rfl)).misses_cons ?_
    simp only [hkeyword]
    exact .ended (Option.some.inj hwhat) (expression_leads he (hshort hb))
  | @returns keyword semicolon hkeyword hsemicolon =>
    obtain ⟨rfl, -⟩ : w = [keyword] ∧ _ := List.append_inj' hw rfl
    refine (accept?_leads (by rw [hkeyword]; rfl)).misses_cons ?_
    simp only [hkeyword]
    exact returnStatement_bare (Option.some.inj hwhat).symm
  | @returnsValue u keyword semicolon e hkeyword he hsemicolon =>
    obtain ⟨rfl, -⟩ := List.append_inj' hw rfl
    refine (accept?_leads (by rw [hkeyword]; rfl)).misses_cons ?_
    simp only [hkeyword]
    obtain ⟨t, v, rfl, ht⟩ := expression_starts room he
    have hvalue : t.kind ≠ .semicolon := fun h ↦ by
      rw [h] at ht
      revert ht
      decide
    refine (check_leads hvalue).misses ?_
    exact .ended (Option.some.inj hwhat) (expression_leads he (hshort hb)).map

theorem varDeclaration_misses (h : Variable (Expression room) (w ++ [g.semicolon]) s)
    (hwhat : s.ending? = some g.what) (hb : (g.broken w).length ≤ bound) :
    g.Misses (varDeclaration (expression bound room)) s w := by
  generalize hw : w ++ [g.semicolon] = x at h
  cases h with
  | @bare name semicolon hname hsemicolon =>
    obtain ⟨rfl, -⟩ : w = [name] ∧ _ := List.append_inj' hw rfl
    refine (expect_leads hname).misses_cons ?_
    refine Gap.Leads.misses (w := []) (a := false) (fun k hk ↦ .accept_false ?_) ?_
    · exact hk.stops.mono (by simp [expressionStops])
    · exact .ended (Option.some.inj hwhat) fun _ _ ↦ .pure
  | @initialized u name equals semicolon e hname hequals he hsemicolon =>
    obtain ⟨rfl, -⟩ := List.append_inj' hw rfl
    refine (expect_leads hname).misses_cons ?_
    refine (accept_leads hequals).misses_cons ?_
    have hb : (g.broken u).length ≤ bound := Nat.le_of_succ_le (Nat.le_of_succ_le hb)
    exact .ended (Option.some.inj hwhat) (expression_leads he hb).map

theorem declaration_misses (h : Declaration room (w ++ [g.semicolon]) s) (hwhat : s.ending? = some g.what)
    (hb : (g.broken w).length ≤ bound) :
    g.Breaks (declaration bound room) (fun o o' ↦ o = some s ∧ o' = none) w := by
  obtain ⟨t, u, hw, ht⟩ := declaration_starts room h
  match room with
  | 0 | 1 | 2 | 3 => exact h.elim
  | room + 4 =>
    rw [Declaration] at h
    rw [declaration]
    refine Gap.Misses.recovering ?_
    cases w with
    | nil =>
      obtain ⟨rfl, -⟩ := List.cons.inj hw
      rw [g.ends] at ht
      exact absurd ht (by decide)
    | cons t w =>
      generalize hx : t :: w ++ [g.semicolon] = x at h
      cases h with
      | cls | function => cases hwhat
      | @declares x keyword _ hkeyword h =>
        obtain ⟨rfl, rfl⟩ := List.cons.inj hx
        refine (accept?_leads (by rw [hkeyword]; rfl)).misses_cons ?_
        simp only [hkeyword]
        exact varDeclaration_misses h hwhat (Nat.le_of_succ_le hb)
      | statement h =>
        subst hx
        obtain ⟨t', v, heq, ht⟩ := statement_starts _ _ h
        obtain ⟨rfl, -⟩ := List.cons.inj heq
        refine (accept?_none_leads ?_).misses ?_
        · exact (by decide : ∀ kind ∈ statementStarts, opensDeclaration kind = false) _ ht
        · rw [Statement] at h
          rw [statement]
          exact plainStatement_misses h hwhat hb

section Nested

variable {t : Token}

theorem Gap.Breaks.give {p : Parse α} {f : α → β} {R : α → α → Prop} {R' : β → β → Prop}
    (hp : g.Breaks p R w) (hf : ∀ a a', R a a' → R' (f a) (f a')) : g.Breaks (p >>= fun a ↦ pure (f a)) R' w := by
  rw [bind_pure_comp]
  exact hp.map hf

theorem amid_loses {as as' : Array (Option Stmt)}
    (h : Amid (fun o o' ↦ Loses s (Lacks s) o.toList o'.toList) as as') :
    Loses s (Lacks s) (as.toList.filterMap id) (as'.toList.filterMap id) := by
  obtain ⟨before, o, o', after, rfl, rfl, ho⟩ := h
  have hflat (o : Option Stmt) : (before.push o ++ after).toList.filterMap id =
      before.toList.filterMap id ++ o.toList ++ after.toList.filterMap id := by
    cases o <;> simp
  rw [hflat, hflat]
  exact ho.amid _ _

theorem block_breaks {ss : List Stmt} (hseq : Sequence (Declaration room) w ss)
    (ht : t.kind ∈ declarationStarts)
    (hitem : g.Breaks (declaration bound room) (fun o o' ↦ Loses s (Lacks s) o.toList o'.toList) (t :: v))
    (hb : (g.broken (w ++ t :: v)).length ≤ bound) :
    g.Breaks (block bound (declaration bound room)) (Loses s (Lacks s)) (w ++ t :: v) := by
  have hstarts : Starts declarationStarts fun w o ↦ ∃ s, o = some s ∧ Declaration room w s :=
    fun w o ⟨s, _, hs⟩ ↦ declaration_starts room hs
  have hopen : ∀ kind ∈ declarationStarts, kind ≠ .rightBrace ∧ kind ∉ [.elseWord] := by decide
  have hitems : g.Breaks (itemsUntil .rightBrace (declaration bound room) bound #[]) _ (w ++ t :: v) :=
    itemsUntil_breaks hstarts (by decide) (by decide) declaration_completes (declaration_local room)
      (sequence_map_some hseq) (hopen _ ht).1 (hopen _ ht).2 hitem hb
  exact hitems.after (fun m _ ↦ (expect_local _ _).discard.weaken nofun) fun _ _ _ h ↦ amid_loses h

theorem function_breaks (what : Callable) {name opening paren brace : Token} {params : List Token}
    (hname : name.kind = .identifier) (hopening : opening.kind = .leftParen)
    (hparams : Parenthesised Name w (params, paren)) (hbrace : brace.kind = .leftBrace)
    (hbody : g.Breaks (block bound (declaration bound room)) (Loses s (Lacks s)) v)
    (hb : (g.broken (name :: opening :: w ++ brace :: v)).length ≤ bound) :
    g.Breaks (function bound what (declaration bound room)) (LosesIn s)
      (name :: opening :: w ++ brace :: v) := by
  have hcompletes : Completes bound (expect .identifier .parameterName) True [] Name := by
    intro w t k h _ _
    cases h with
    | name h => exact .expect h
  have hstarts : Starts [.identifier] Name := by
    intro w t h
    cases h with
    | name h => exact ⟨_, _, rfl, by simp [h]⟩
  have hparenthesised := parenthesised_complete .tooManyParameters .parameterEnd hstarts (by decide) hcompletes
    (by decide) (by decide)
  rw [List.cons_append, List.cons_append] at hb ⊢
  refine (expect_leads hname).breaks_cons ((skip_leads hopening).breaks_cons ?_)
  refine (hparenthesised.leads hparams (fun _ _ ↦ nothing_ends) ?_).breaks ?_
  · exact Nat.le_of_succ_le (Nat.le_of_succ_le hb)
  · exact (skip_leads hbrace).breaks_cons (hbody.give fun _ _ h ↦ .body h)

theorem classDeclaration_breaks {name brace : Token} {methods : List FunDecl} (hname : name.kind = .identifier)
    (hbrace : brace.kind = .leftBrace) (hseq : Sequence (Function (Declaration room)) w methods)
    (ht : t.kind = .identifier)
    (hmethod : g.Breaks (function bound .method (declaration bound room)) (LosesIn s) (t :: v))
    (hb : (g.broken (name :: brace :: (w ++ t :: v))).length ≤ bound) :
    g.Breaks (classDeclaration bound (declaration bound room)) (Lacks s)
      (name :: brace :: (w ++ t :: v)) := by
  have hcompletes : Completes bound (function bound .method (declaration bound room)) True []
      (Function (Declaration room)) :=
    function_complete .method ⟨declaration_starts room, declaration_completes⟩
  refine (expect_leads hname).breaks_cons ((skip_leads hbrace).breaks_cons ?_)
  have hmethods : g.Breaks (itemsUntil .rightBrace _ bound #[]) _ (w ++ t :: v) :=
    itemsUntil_breaks function_starts (by decide) (by decide) hcompletes
      (fun m _ hm ↦ function_local .method (declaration_local room) m hm) hseq (by rw [ht]; decide)
      (by rw [ht]; decide) hmethod (Nat.le_of_succ_le (Nat.le_of_succ_le hb))
  refine hmethods.after (fun m _ ↦ (expect_local _ _).discard.weaken nofun) fun as as' _ h ↦ ?_
  obtain ⟨before, d, d', after, rfl, rfl, hbody⟩ := h
  cases hbody with
  | body h => simpa using Lacks.method h

variable {p : Parse Stmt} {u x : List Token} {opening paren : Token} {c : Expr}

def elsePart (p : Parse Stmt) : Parse (Option Stmt) := do
  if ← accept .elseWord then some <$> p else return none

theorem ifStatement_eq (e : Parse Expr) (p : Parse Stmt) : ifStatement e p = (do
    discard (expect .leftParen .ifCondition)
    let c ← e
    discard (expect .rightParen .ifConditionEnd)
    p >>= fun yes ↦ elsePart p >>= fun no ↦ pure (.branch c yes no)) := by
  have hjoin (c : Expr) (yes : Stmt) : (elsePart p >>= fun no ↦ pure (.branch c yes no)) = (do
      if ← accept .elseWord then
        let no ← some <$> p
        return Stmt.branch c yes no
      else
        let no ← pure none
        return Stmt.branch c yes no) := by
    simp only [elsePart, bind_assoc]
    congr 1
    funext found
    cases found <;> simp
  simp only [hjoin]
  rfl

theorem elsePart_local {last : Token} (hp : Local (.ends last) (.ends last) bound bound p p)
    {m : List Token} (hb : m.length ≤ bound) :
    LocalAt (.ends last) (.ends last) false (elsePart p) (elsePart p) m := by
  refine .accept (.ends last) (Tail.ends_spares _) (fun t m₁ hm₁ _ ↦ ?_) (.pure none)
  refine (hp m₁ ?_).map.weaken nofun
  simp only [Fits, Tail.ends, List.append_nil]
  simp only [hm₁, List.length_cons] at hb
  omega

theorem condition_breaks {what what' : Missing} {f : Expr → Parse α} {R : α → α → Prop}
    (hopening : opening.kind = .leftParen) (hc : Expression room w c) (hparen : paren.kind = .rightParen)
    (hb : (g.broken (opening :: (w ++ paren :: v))).length ≤ bound) (hf : g.Breaks (f c) R v) :
    g.Breaks (do
      discard (expect .leftParen what)
      let c ← expression bound room
      discard (expect .rightParen what')
      f c) R (opening :: (w ++ paren :: v)) := by
  refine (skip_leads hopening).breaks_cons ?_
  refine (expression_completes.leads hc (fun k hk ↦ hk.ends ?_) (Nat.le_of_succ_le hb)).breaks ?_
  · rw [hparen]
    decide
  · exact (skip_leads hparen).breaks_cons hf

theorem ifStatement_yes (hopening : opening.kind = .leftParen) (hc : Expression room w c)
    (hparen : paren.kind = .rightParen) (hp : Local (.ends g.last) (.ends g.last) bound bound p p)
    (hyes : g.Breaks p (Lacks s) v) (hb : (g.broken (opening :: (w ++ paren :: v))).length ≤ bound) :
    g.Breaks (ifStatement (expression bound room) p) (Lacks s) (opening :: (w ++ paren :: v)) := by
  rw [ifStatement_eq]
  refine condition_breaks hopening hc hparen hb (hyes.after (fun m hm ↦ elsePart_local hp ?_) fun _ _ _ h ↦ .yes h)
  have hm := hm.length_le
  have hkept := g.kept_length_le
  simp only [Gap.length_broken, List.length_cons] at hb
  omega

theorem ifStatement_no {yes : Stmt} {otherwise : Token} (hopening : opening.kind = .leftParen)
    (hc : Expression room w c) (hparen : paren.kind = .rightParen) (hyes : g.Leads p v yes (otherwise :: u))
    (helse : otherwise.kind = .elseWord) (hno : g.Breaks p (Lacks s) u)
    (hb : (g.broken (opening :: (w ++ paren :: (v ++ otherwise :: u)))).length ≤ bound) :
    g.Breaks (ifStatement (expression bound room) p) (Lacks s)
      (opening :: (w ++ paren :: (v ++ otherwise :: u))) := by
  rw [ifStatement_eq]
  have hsome : g.Breaks (elsePart p) (Option.Rel (Lacks s)) (otherwise :: u) :=
    (accept_leads helse).breaks_cons (hno.map fun _ _ h ↦ .some h)
  refine condition_breaks hopening hc hparen hb (hyes.breaks (hsome.give fun no no' h ↦ ?_))
  cases h with
  | none => exact .same
  | some h => exact .no h

theorem whileStatement_breaks (hopening : opening.kind = .leftParen) (hc : Expression room w c)
    (hparen : paren.kind = .rightParen) (hbody : g.Breaks p (Lacks s) v)
    (hb : (g.broken (opening :: (w ++ paren :: v))).length ≤ bound) :
    g.Breaks (whileStatement (expression bound room) p) (Lacks s) (opening :: (w ++ paren :: v)) :=
  condition_breaks hopening hc hparen hb (hbody.give fun _ _ h ↦ .loop h)

theorem forStatement_breaks {initial increment : Stmt} (hopening : opening.kind = .leftParen)
    (hinitial : Initializer (Expression room) w initial) (hcondition : Condition (Expression room) v c)
    (hincrement : Increment (Expression room) u increment) (hbody : g.Breaks p (Lacks s) x)
    (hb : (g.broken (opening :: (w ++ (v ++ (u ++ x))))).length ≤ bound) :
    g.Breaks (forStatement (expression bound room) p) (Lacks s) (opening :: (w ++ (v ++ (u ++ x)))) := by
  have hE := expression_starts room
  simp only [Gap.length_broken, List.length_cons, List.length_append] at hb
  refine (skip_leads hopening).breaks_cons ?_
  refine ((forInitializer_complete hE expression_completes).leads hinitial (fun _ _ ↦ nothing_ends) ?_).breaks ?_
  · simp only [Gap.length_broken, List.length_append]
    omega
  refine ((forCondition_complete hE expression_completes).leads hcondition (fun _ _ ↦ nothing_ends) ?_).breaks ?_
  · simp only [Gap.length_broken, List.length_append]
    omega
  refine ((forIncrement_complete hE expression_completes).leads hincrement (fun _ _ ↦ nothing_ends) ?_).breaks ?_
  · simp only [Gap.length_broken, List.length_append]
    omega
  exact hbody.give fun _ _ h ↦ .forLoop h

end Nested

end Statements

end Parse

end TreeWalk
