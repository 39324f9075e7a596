import TreeWalk.Proofs.Grammar.Basic

namespace TreeWalk.Parse

open Grammar

variable {α β : Type}

theorem bind_eq_ok {x : Parse α} {f : α → Parse β} {c c' : Cursor} {b : β} :
    (x >>= f) c = .ok b c' ↔ ∃ a c₁, x c = .ok a c₁ ∧ f a c₁ = .ok b c' := by
  simp only [bind, EStateM.bind]
  cases x c with
  | ok a c₁ => exact ⟨fun h ↦ ⟨a, c₁, rfl, h⟩, fun ⟨_, _, h, h'⟩ ↦ by cases h; exact h'⟩
  | error e c₁ => simp

theorem bind_eq_error {x : Parse α} {f : α → Parse β} {c c' : Cursor} {e : Stop} :
    (x >>= f) c = .error e c' ↔
      x c = .error e c' ∨ ∃ a c₁, x c = .ok a c₁ ∧ f a c₁ = .error e c' := by
  simp only [bind, EStateM.bind]
  cases x c with
  | ok a c₁ =>
    refine ⟨fun h ↦ .inr ⟨a, c₁, rfl, h⟩, ?_⟩
    rintro (h | ⟨_, _, h, h'⟩)
    · cases h
    · cases h
      exact h'
  | error e' c₁ => simp

/-- A cursor has the complaints of an earlier one, and maybe more behind them. -/
def Keeps (c c' : Cursor) : Prop := c.faults.toList <+: c'.faults.toList

namespace Keeps

variable {c c₁ c' : Cursor}

theorem refl (c : Cursor) : Keeps c c := List.prefix_refl _

theorem trans (h : Keeps c c₁) (h' : Keeps c₁ c') : Keeps c c' := List.IsPrefix.trans h h'

theorem eq_of_eq (h : Keeps c c₁) (h' : Keeps c₁ c') (he : c'.faults = c.faults) :
    c₁.faults = c.faults ∧ c'.faults = c₁.faults := by
  have hlen := h.length_le
  have hlen' := h'.length_le
  rw [he] at hlen'
  have h₁ : c₁.faults = c.faults :=
    Array.toList_inj.mp (h.eq_of_length (Nat.le_antisymm hlen hlen')).symm
  exact ⟨h₁, he.trans h₁.symm⟩

theorem of_push {d : Diagnostic} (h : c'.faults = c.faults.push d) : Keeps c c' := by
  simp [Keeps, h]

end Keeps

theorem push_ne (faults : Array Diagnostic) (d : Diagnostic) : faults.push d ≠ faults := by
  intro h
  simpa using congrArg Array.size h

/-- No complaint is ever taken back, and a mistake adds one. When none is added, a relation holds between
the cursor before, the result and the cursor behind, provided that no more words are left than loops may
have rounds. -/
structure Reads (bound : Nat) (p : Parse α) (R : Cursor → α → Cursor → Prop) : Prop where
  ok : ∀ {c a c'}, p c = .ok a c' → Keeps c c' ∧
    (c'.faults = c.faults → c.rest.length ≤ bound → c'.rest.length ≤ bound ∧ R c a c')
  error : ∀ {c e c'}, p c = .error e c' → Keeps c c' ∧ (e = .mistake → c'.faults ≠ c.faults)

namespace Reads

variable {bound : Nat} {p : Parse α} {R T : Cursor → α → Cursor → Prop}

theorem mono (hp : Reads bound p R) (h : ∀ c a c', R c a c' → T c a c') : Reads bound p T := by
  refine ⟨fun ho ↦ ⟨(hp.ok ho).1, fun hf hb ↦ ?_⟩, hp.error⟩
  obtain ⟨hb', hR⟩ := (hp.ok ho).2 hf hb
  exact ⟨hb', h _ _ _ hR⟩

theorem of_bounded (hp : Reads bound p fun c a c' ↦ c.rest.length ≤ bound → R c a c') :
    Reads bound p R := by
  refine ⟨fun ho ↦ ⟨(hp.ok ho).1, fun hf hb ↦ ?_⟩, hp.error⟩
  obtain ⟨hb', hR⟩ := (hp.ok ho).2 hf hb
  exact ⟨hb', hR hb⟩

theorem step {f : Cursor → α} {g : Cursor → Cursor} (he : ∀ c, p c = .ok (f c) (g c))
    (hf : ∀ c, (g c).faults = c.faults) (hlen : ∀ c, (g c).rest.length ≤ c.rest.length)
    (h : ∀ c, R c (f c) (g c)) : Reads bound p R := by
  refine ⟨fun {c a c'} ho ↦ ?_, fun {c e c'} herr ↦ ?_⟩
  · rw [he] at ho
    cases ho
    have hkeeps : c.faults.toList <+: (g c).faults.toList := by
      simp only [hf, List.prefix_refl]
    exact ⟨hkeeps, fun _ hb ↦ ⟨Nat.le_trans (hlen c) hb, h c⟩⟩
  · rw [he] at herr
    cases herr

theorem pure {a : α} (h : ∀ c, R c a c) : Reads bound (pure a) R :=
  step (fun _ ↦ rfl) (fun _ ↦ rfl) (fun _ ↦ Nat.le_refl _) h

theorem bind {f : α → Parse β} {S : Cursor → β → Cursor → Prop} (hp : Reads bound p R)
    (hf : ∀ a, Reads bound (f a) fun c₁ b c' ↦ ∀ c, R c a c₁ → S c b c') :
    Reads bound (p >>= f) S := by
  constructor
  · intro c b c' h
    obtain ⟨a, c₁, ha, hb⟩ := bind_eq_ok.mp h
    have hk := (hp.ok ha).1
    have hk' := ((hf a).ok hb).1
    refine ⟨hk.trans hk', fun he hlen ↦ ?_⟩
    obtain ⟨he₁, he'⟩ := hk.eq_of_eq hk' he
    obtain ⟨hlen₁, hR⟩ := (hp.ok ha).2 he₁ hlen
    obtain ⟨hlen', hS⟩ := ((hf a).ok hb).2 he' hlen₁
    exact ⟨hlen', hS c hR⟩
  · intro c e c' h
    rcases bind_eq_error.mp h with h | ⟨a, c₁, ha, h⟩
    · exact hp.error h
    · have hk := (hp.ok ha).1
      have hk' := ((hf a).error h).1
      refine ⟨hk.trans hk', fun hm he ↦ ?_⟩
      exact ((hf a).error h).2 hm (hk.eq_of_eq hk' he).2

theorem map {f : α → β} {S : Cursor → β → Cursor → Prop} (hp : Reads bound p R)
    (h : ∀ c a c', R c a c' → S c (f a) c') : Reads bound (f <$> p) S := by
  have he : f <$> p = p >>= fun a ↦ Pure.pure (f a) := (bind_pure_comp f p).symm
  rw [he]
  exact hp.bind fun a ↦ .pure fun c' c hR ↦ h c a c' hR

theorem tooDeep : Reads bound (throw .tooDeep : Parse α) R := by
  refine ⟨fun h ↦ (by cases h), fun h ↦ ?_⟩
  cases h
  exact ⟨.refl _, fun h ↦ (by cases h)⟩

theorem complain {t : Token} {k : Complaint} {R : Cursor → Unit → Cursor → Prop} :
    Reads bound (complain t k) R := by
  refine ⟨fun h ↦ ?_, fun h ↦ (by cases h)⟩
  cases h
  exact ⟨.of_push rfl, fun h ↦ absurd h (push_ne _ _)⟩

theorem fail {what : Missing} : Reads bound (fail what : Parse α) R := by
  refine ⟨fun h ↦ (by cases h), fun h ↦ ?_⟩
  cases h
  exact ⟨.of_push rfl, fun _ ↦ push_ne _ _⟩

theorem peek : Reads bound peek fun c t c' ↦ c' = c ∧ t = c.peek :=
  step (fun _ ↦ rfl) (fun _ ↦ rfl) (fun _ ↦ Nat.le_refl _) fun _ ↦ ⟨rfl, rfl⟩

theorem check {kind : Kind} :
    Reads bound (check kind) fun c b c' ↦ c' = c ∧ b = c.rest.head?.any (·.kind == kind) :=
  step (fun _ ↦ rfl) (fun _ ↦ rfl) (fun _ ↦ Nat.le_refl _) fun _ ↦ ⟨rfl, rfl⟩

theorem atEnd : Reads bound atEnd fun c b c' ↦ c' = c ∧ b = c.rest.isEmpty :=
  step (fun _ ↦ rfl) (fun _ ↦ rfl) (fun _ ↦ Nat.le_refl _) fun _ ↦ ⟨rfl, rfl⟩

theorem accept? {wanted : Kind → Bool} :
    Reads bound (accept? wanted) fun c o c' ↦ match o with
      | some t => wanted t.kind = true ∧ c.rest = t :: c'.rest
      | none => c'.rest = c.rest ∧ ∀ t ∈ c.rest.head?, wanted t.kind = false := by
  constructor
  · intro c o c' h
    unfold Parse.accept? at h
    split at h
    · next t rest hr =>
      split at h
      · next hw =>
        cases h
        refine ⟨.refl _, fun _ hb ↦ ⟨?_, hw, hr⟩⟩
        rw [hr] at hb
        exact Nat.le_of_succ_le hb
      · next hw =>
        cases h
        exact ⟨.refl _, fun _ hb ↦ ⟨hb, rfl, by simpa [hr] using hw⟩⟩
    · next hr =>
      cases h
      exact ⟨.refl _, fun _ hb ↦ ⟨hb, rfl, by simp [hr]⟩⟩
  · intro c e c' h
    unfold Parse.accept? at h
    split at h
    · split at h <;> cases h
    · cases h

theorem accept {kind : Kind} :
    Reads bound (accept kind) fun c b c' ↦ if b then ∃ t, t.kind = kind ∧ c.rest = t :: c'.rest
      else c'.rest = c.rest ∧ ∀ t ∈ c.rest.head?, t.kind ≠ kind := by
  refine accept?.bind fun o ↦ .pure fun c' c h ↦ ?_
  cases o with
  | none => simpa using h
  | some t =>
    have ht : t.kind = kind := by simpa using h.1
    simpa using ⟨t, ht, h.2⟩

theorem expect {kind : Kind} {what : Missing} :
    Reads bound (expect kind what) fun c t c' ↦ t.kind = kind ∧ c.rest = t :: c'.rest := by
  refine accept?.bind fun o ↦ ?_
  cases o with
  | none => exact fail
  | some t => exact .pure fun c' c h ↦ by simpa using h

theorem skip {kind : Kind} {what : Missing} :
    Reads bound (discard (Parse.expect kind what)) fun c _ c' ↦
      ∃ t, t.kind = kind ∧ c.rest = t :: c'.rest :=
  expect.map fun _ t _ h ↦ ⟨t, h⟩

theorem recovering (hp : Reads bound p R) :
    Reads bound (recovering p) fun c o c' ↦ ∃ a, o = some a ∧ R c a c' := by
  constructor
  · intro c o c' h
    unfold Parse.recovering at h
    split at h
    · next a c₁ ho =>
      cases h
      refine ⟨(hp.ok ho).1, fun hf hb ↦ ?_⟩
      obtain ⟨hb', hR⟩ := (hp.ok ho).2 hf hb
      exact ⟨hb', a, rfl, hR⟩
    · next c₁ he =>
      cases h
      exact ⟨(hp.error he).1, fun hf ↦ absurd hf ((hp.error he).2 rfl)⟩
    · cases h
  · intro c e c' h
    unfold Parse.recovering at h
    split at h
    · cases h
    · cases h
    · next he =>
      cases h
      exact hp.error he

end Reads

def Consumes (G : Phrase α) (c : Cursor) (a : α) (c' : Cursor) : Prop :=
  ∃ w, c.rest = w ++ c'.rest ∧ G w a

section Expressions

variable {bound : Nat}

theorem joined_reads {t : Tier} {operators : Kind → Bool} {operand : Parse Expr}
    {G : Phrase Expr} (ht : ∀ k, operators k = true → k ∈ t.kinds)
    (hp : Reads bound operand (Consumes G)) (n : Nat) (left : Expr) :
    Reads bound (joined operators t.join operand n left) fun c e c' ↦
      ∃ w, c.rest = w ++ c'.rest ∧ ∀ v, Joined t G v left → Joined t G (v ++ w) e := by
  induction n generalizing left with
  | zero => exact .pure fun c ↦ ⟨[], rfl, fun v hv ↦ by simpa using hv⟩
  | succ n ih =>
    unfold joined
    refine Reads.accept?.bind fun o ↦ ?_
    cases o with
    | none => exact .pure fun c' c h ↦ ⟨[], h.1.symm, fun v hv ↦ by simpa using hv⟩
    | some operator =>
      refine hp.bind fun right ↦ (ih _).mono ?_
      rintro c₂ e c' ⟨w, hw, hjoin⟩ c₁ ⟨u, hu, hright⟩ c ⟨hop, hc⟩
      refine ⟨operator :: u ++ w, by simp [hc, hu, hw], fun v hv ↦ ?_⟩
      have h := hjoin _ (.more hv (ht _ hop) hright)
      simpa using h

theorem leftAssociative_reads {t : Tier} {operators : Kind → Bool} {operand : Parse Expr}
    {G : Phrase Expr} (ht : ∀ k, operators k = true → k ∈ t.kinds)
    (hp : Reads bound operand (Consumes G)) :
    Reads bound (leftAssociative bound operators t.join operand) (Consumes (Joined t G)) := by
  refine hp.bind fun left ↦ (joined_reads ht hp bound left).mono ?_
  rintro c₁ e c' ⟨w, hw, hjoin⟩ c ⟨u, hu, hleft⟩
  exact ⟨u ++ w, by simp [hu, hw], hjoin u (.one hleft)⟩

theorem operation_reads {operand : Parse Expr} {G : Phrase Expr}
    (hp : Reads bound operand (Consumes G)) :
    Reads bound (operation bound operand) (Consumes (Operation G)) := by
  apply leftAssociative_reads (t := disjunction) (fun k ↦ by cases k <;> simp [isOr, disjunction])
  apply leftAssociative_reads (t := conjunction) (fun k ↦ by cases k <;> simp [isAnd, conjunction])
  apply leftAssociative_reads (t := equality) (fun k ↦ by cases k <;> simp [isEquality, equality])
  apply leftAssociative_reads (t := comparison)
    (fun k ↦ by cases k <;> simp [isComparison, comparison])
  apply leftAssociative_reads (t := term) (fun k ↦ by cases k <;> simp [isTerm, term])
  exact leftAssociative_reads (t := factor) (fun k ↦ by cases k <;> simp [isFactor, factor]) hp

theorem assignment_reads {operand value : Parse Expr} {G V : Phrase Expr}
    (hp : Reads bound operand (Consumes G)) (hv : Reads bound value (Consumes V)) :
    Reads bound (assignment bound operand value) (Consumes (Assignment (Operation G) V)) := by
  refine (operation_reads hp).bind fun target ↦ Reads.accept?.bind fun o ↦ ?_
  cases o with
  | none =>
    refine .pure ?_
    rintro c' c₁ ⟨hc, -⟩ c ⟨w, hw, htarget⟩
    exact ⟨w, by rw [hw, hc], .operation htarget⟩
  | some equals =>
    refine hv.bind fun v ↦ ?_
    split
    · refine .pure ?_
      rintro c' c₂ ⟨u, hu, hvalue⟩ c₁ ⟨he, hc⟩ c ⟨w, hw, htarget⟩
      exact ⟨w ++ equals :: u, by simp [hw, hc, hu],
        .assign htarget (by simpa using he) hvalue⟩
    · refine .pure ?_
      rintro c' c₂ ⟨u, hu, hvalue⟩ c₁ ⟨he, hc⟩ c ⟨w, hw, htarget⟩
      exact ⟨w ++ equals :: u, by simp [hw, hc, hu],
        .set htarget (by simpa using he) hvalue⟩
    · exact (Reads.complain (R := fun _ _ _ ↦ False)).bind fun _ ↦ .pure fun c' c h ↦ h.elim

theorem primary_reads {inner : Parse Expr} {G : Phrase Expr}
    (hp : Reads bound inner (Consumes G)) :
    Reads bound (primary inner) (Consumes (Primary G)) := by
  refine Reads.accept?.bind fun o ↦ ?_
  cases o with
  | none => exact .fail
  | some t =>
    have leaf {e : Expr} (h : isPrimary t.kind = true → Primary G [t] e) :
        Reads bound (Pure.pure e) fun c₁ b c' ↦ ∀ c : Cursor,
          (isPrimary t.kind = true ∧ c.rest = t :: c₁.rest) → Consumes (Primary G) c b c' :=
      .pure fun c' c hc ↦ ⟨[t], hc.2, h hc.1⟩
    dsimp only
    split
    · exact leaf fun _ ↦ .false ‹_›
    · exact leaf fun _ ↦ .true ‹_›
    · exact leaf fun _ ↦ .nil ‹_›
    · exact leaf fun _ ↦ .self ‹_›
    · exact leaf fun _ ↦ .name ‹_›
    · next hk =>
      refine hp.bind fun e ↦ Reads.skip.bind fun _ ↦ .pure ?_
      rintro c' c₂ ⟨close, hclose, hc₂⟩ c₁ ⟨w, hw, he⟩ c ⟨-, hc⟩
      exact ⟨t :: w ++ [close], by simp [hc, hw, hc₂], .group hk he hclose⟩
    · exact leaf fun h ↦ .value (by cases hk : t.kind <;> simp_all [isPrimary])

theorem commaItems_reads {item : Parse α} {G : Phrase α} {tooMany : Complaint}
    (hp : Reads bound item (Consumes G)) (n : Nat) (done : Array α) :
    Reads bound (commaItems tooMany item n done) fun c as c' ↦
      ∃ w new, c.rest = w ++ c'.rest ∧ as.toList = done.toList ++ new ∧
        (c.rest.length ≤ n → c'.rest = [] ∨
          Separated G w new ∧ as.size ≤ maxArguments) := by
  induction n generalizing done with
  | zero =>
    refine .pure fun c ↦ ⟨[], [], rfl, by simp, fun h ↦ .inl ?_⟩
    exact List.eq_nil_of_length_eq_zero (Nat.le_zero.mp h)
  | succ n ih =>
    unfold commaItems
    dsimp only
    have rest : Reads bound (do
        let done := done.push (← item)
        if ← Parse.accept .comma then commaItems tooMany item n done else return done)
        fun c as c' ↦ ∃ w new, c.rest = w ++ c'.rest ∧ as.toList = done.toList ++ new ∧
          (c.rest.length ≤ n + 1 → c'.rest = [] ∨
            Separated G w new ∧ (done.size < maxArguments → as.size ≤ maxArguments)) := by
      refine hp.bind fun a ↦ Reads.accept.bind fun more ↦ ?_
      cases more with
      | false =>
        refine .pure ?_
        rintro c' c₁ ⟨hc, -⟩ c ⟨w, hw, ha⟩
        exact ⟨w, [a], by rw [hw, hc], by simp, fun _ ↦ .inr ⟨.one ha, fun h ↦ by simpa using Nat.succ_le_of_lt h⟩⟩
      | true =>
        refine (ih (done.push a)).mono ?_
        rintro c₂ as c' ⟨w, new, hw, has, hnew⟩ c₁ ⟨comma, hcomma, hc⟩ c ⟨u, hu, ha⟩
        refine ⟨u ++ comma :: w, a :: new, by simp [hu, hc, hw], by simp [has], fun hlen ↦ ?_⟩
        have hlen₂ : c₂.rest.length ≤ n := by
          simp only [hu, hc, List.length_append, List.length_cons] at hlen
          omega
        exact (hnew hlen₂).imp_right fun h ↦ ⟨.more ha hcomma h.1, fun _ ↦ h.2⟩
    split
    · refine Reads.peek.bind fun t ↦ (Reads.complain (R := fun _ _ _ ↦ False)).bind fun _ ↦ ?_
      exact rest.mono fun c₁ as c' _ c h ↦ h.elim
    · next hsize =>
      refine rest.mono ?_
      rintro c as c' ⟨w, new, hw, has, hnew⟩
      exact ⟨w, new, hw, has, fun hlen ↦
        (hnew hlen).imp_right fun h ↦ ⟨h.1, h.2 (Nat.lt_of_not_le hsize)⟩⟩

theorem parenthesised_reads {item : Parse α} {G : Phrase α} {tooMany : Complaint}
    {close : Missing} (hp : Reads bound item (Consumes G)) :
    Reads bound (parenthesised tooMany close item bound) (Consumes (Parenthesised G)) := by
  refine Reads.check.bind fun empty ↦ ?_
  cases empty with
  | true =>
    refine Reads.expect.bind fun paren ↦ .pure ?_
    rintro c' c₁ ⟨hparen, hc₁⟩ c ⟨rfl, -⟩
    exact ⟨[paren], by simpa using hc₁, .none hparen⟩
  | false =>
    refine .of_bounded ?_
    refine (commaItems_reads hp bound #[]).bind fun items ↦ Reads.expect.bind fun paren ↦ .pure ?_
    rintro c' c₂ ⟨hparen, hc₂⟩ c₁ ⟨w, new, hw, hnew, hitems⟩ hlen c ⟨rfl, -⟩
    rcases hitems hlen with hnil | ⟨hsep, hsize⟩
    · simp [hnil] at hc₂
    · have hnew : items.toList = new := by simpa using hnew
      subst hnew
      exact ⟨w ++ [paren], by simp [hw, hc₂], .some hsep hsize hparen⟩

theorem suffixes_reads {argument : Parse Expr} {G : Phrase Expr}
    (hp : Reads bound argument (Consumes G)) (P : Phrase Expr) (n : Nat) (e : Expr) :
    Reads bound (suffixes bound argument n e) fun c e' c' ↦
      ∃ w, c.rest = w ++ c'.rest ∧ ∀ v, Suffixed G P v e → Suffixed G P (v ++ w) e' := by
  induction n generalizing e with
  | zero => exact .pure fun c ↦ ⟨[], rfl, fun v hv ↦ by simpa using hv⟩
  | succ n ih =>
    unfold suffixes
    refine Reads.accept?.bind fun o ↦ ?_
    cases o with
    | none => exact .pure fun c' c h ↦ ⟨[], h.1.symm, fun v hv ↦ by simpa using hv⟩
    | some t =>
      dsimp only
      split
      · next hdot =>
        refine Reads.expect.bind fun name ↦ (ih _).mono ?_
        rintro c₂ e' c' ⟨w, hw, he'⟩ c₁ ⟨hname, hc₁⟩ c ⟨-, hc⟩
        refine ⟨t :: name :: w, by simp [hc, hc₁, hw], fun v hv ↦ ?_⟩
        have h := he' _ (.property hv (by simpa using hdot) hname)
        simpa using h
      · next hdot =>
        refine (parenthesised_reads hp).bind fun ⟨arguments, paren⟩ ↦ (ih _).mono ?_
        rintro c₂ e' c' ⟨w, hw, he'⟩ c₁ ⟨u, hu, harguments⟩ c ⟨ht, hc⟩
        have hopen : t.kind = .leftParen := by cases hk : t.kind <;> simp_all [isSuffix]
        refine ⟨t :: u ++ w, by simp [hc, hu, hw], fun v hv ↦ ?_⟩
        have h := he' _ (.call hv hopen harguments)
        simpa using h

mutual

theorem expression_reads :
    ∀ room, Reads bound (expression bound room) (Consumes (Expression room))
  | room + 7 => by
    rw [expression, Expression]
    exact assignment_reads (operand_reads room) (expression_reads (room + 6))
  | 0 | 1 | 2 | 3 | 4 | 5 | 6 => .tooDeep

theorem operand_reads : ∀ room, Reads bound (operand bound room) (Consumes (Operand room))
  | room + 4 => by
    rw [operand, Operand]
    refine Reads.accept?.bind fun o ↦ ?_
    cases o with
    | some operator =>
      refine (operand_reads (room + 3)).bind fun e ↦ .pure ?_
      rintro c' c₁ ⟨w, hw, he⟩ c ⟨hsign, hc⟩
      refine ⟨operator :: w, by simp [hc, hw], .sign ?_ he⟩
      cases hk : operator.kind <;> simp_all [isSign]
    | none =>
      have hinner := expression_reads room
      refine (primary_reads hinner).bind fun e ↦ (suffixes_reads hinner (Primary (Expression room)) bound e).mono ?_
      rintro c₂ e' c' ⟨w, hw, he'⟩ c₁ ⟨u, hu, he⟩ c ⟨hc, -⟩
      exact ⟨u ++ w, by rw [← hc, hu, hw, List.append_assoc], .call (he' u (.primary he))⟩
  | 0 | 1 | 2 | 3 => .tooDeep

end

end Expressions

section Statements

variable {bound : Nat}

theorem itemsUntil_reads {item : Parse α} {G : Phrase α} {close : Kind}
    (hp : Reads bound item (Consumes G)) (n : Nat) (done : Array α) :
    Reads bound (itemsUntil close item n done) fun c as c' ↦
      ∃ w new, c.rest = w ++ c'.rest ∧ as.toList = done.toList ++ new ∧ Sequence G w new := by
  induction n generalizing done with
  | zero => exact .pure fun c ↦ ⟨[], [], rfl, by simp, .nil⟩
  | succ n ih =>
    unfold itemsUntil
    refine Reads.atEnd.bind fun ended ↦ Reads.check.bind fun closed ↦ ?_
    split
    · refine .pure ?_
      rintro c' c₁ ⟨rfl, -⟩ c ⟨rfl, -⟩
      exact ⟨[], [], rfl, by simp, .nil⟩
    · refine hp.bind fun a ↦ (ih _).mono ?_
      rintro c₃ as c' ⟨w, new, hw, has, hnew⟩ c₂ ⟨u, hu, ha⟩ c₁ ⟨rfl, -⟩ c ⟨rfl, -⟩
      exact ⟨u ++ w, a :: new, by simp [hu, hw], by simp [has], .cons ha hnew⟩

theorem sequence_of_options {G : Phrase α} {w : List Token} {os : List (Option α)}
    (h : Sequence (fun w o ↦ ∃ a, o = some a ∧ G w a) w os) : Sequence G w (os.filterMap id) := by
  induction h with
  | nil => exact .nil
  | cons ha _ ih =>
    obtain ⟨a, rfl, ha⟩ := ha
    exact .cons ha ih

variable {item : Parse (Option Stmt)} {G : Phrase Stmt}

def ReadsItem (bound : Nat) (item : Parse (Option Stmt)) (G : Phrase Stmt) : Prop :=
  Reads bound item (Consumes fun w o ↦ ∃ s, o = some s ∧ G w s)

theorem block_reads (hp : ReadsItem bound item G) :
    Reads bound (block bound item) (Consumes (Body G)) := by
  refine (itemsUntil_reads hp bound #[]).bind fun body ↦ Reads.skip.bind fun _ ↦ .pure ?_
  rintro c' c₁ ⟨brace, hbrace, hc₁⟩ c ⟨w, new, hw, hbody, hnew⟩
  have hbody : body.toList = new := by simpa using hbody
  subst hbody
  exact ⟨w ++ [brace], by simp [hw, hc₁], .close (sequence_of_options hnew) hbrace⟩

theorem function_reads {what : Callable} (hp : ReadsItem bound item G) :
    Reads bound (function bound what item) (Consumes (Function G)) := by
  have hname : Reads bound (expect .identifier .parameterName) (Consumes Name) :=
    Reads.expect.mono fun c t c' h ↦ ⟨[t], h.2, .name h.1⟩
  refine Reads.expect.bind fun name ↦ Reads.skip.bind fun _ ↦
    (parenthesised_reads hname).bind fun ⟨params, paren⟩ ↦ Reads.skip.bind fun _ ↦
    (block_reads hp).bind fun body ↦ .pure ?_
  rintro c' c₄ ⟨v, hv, hbody⟩ c₃ ⟨brace, hbrace, hc₃⟩ c₂ ⟨w, hw, hparams⟩ c₁
    ⟨opening, hopening, hc₁⟩ c ⟨hname, hc⟩
  exact ⟨name :: opening :: w ++ brace :: v, by simp [hc, hc₁, hw, hc₃, hv],
    .mk hname hopening hparams hbrace hbody⟩

theorem classDeclaration_reads {keyword : Token} {I : Phrase Expr}
    {S : Bool → Phrase Stmt} {F : Phrase Stmt} (hk : keyword.kind = .classWord)
    (hp : ReadsItem bound item G) :
    Reads bound (classDeclaration bound item) fun c s c' ↦
      ∃ w, c.rest = w ++ c'.rest ∧ Declared I S F G (keyword :: w) s := by
  refine Reads.expect.bind fun name ↦ Reads.skip.bind fun _ ↦
    (itemsUntil_reads (function_reads hp) bound #[]).bind fun methods ↦ Reads.skip.bind fun _ ↦
    .pure ?_
  rintro c' c₃ ⟨close, hclose, hc₃⟩ c₂ ⟨w, new, hw, hmethods, hnew⟩ c₁ ⟨brace, hbrace, hc₁⟩ c
    ⟨hname, hc⟩
  have hmethods : methods.toList = new := by simpa using hmethods
  subst hmethods
  exact ⟨name :: brace :: (w ++ [close]), by simp [hc, hc₁, hw, hc₃],
    .cls hk hname hbrace (.close hnew hclose)⟩

variable {expression : Parse Expr} {E : Phrase Expr}

theorem varDeclaration_reads (he : Reads bound expression (Consumes E)) :
    Reads bound (varDeclaration expression) (Consumes (Variable E)) := by
  refine Reads.expect.bind fun name ↦ Reads.accept.bind fun initialized ↦ ?_
  cases initialized with
  | true =>
    refine (he.map (S := fun c o c' ↦ ∃ e, o = some e ∧ Consumes E c e c')
      fun c e c' h ↦ ⟨e, rfl, h⟩).bind fun o ↦ Reads.skip.bind fun _ ↦ .pure ?_
    rintro c' c₃ ⟨semicolon, hsemicolon, hc₃⟩ c₂ ⟨e, rfl, w, hw, he⟩ c₁ ⟨equals, hequals, hc₁⟩ c
      ⟨hname, hc⟩
    exact ⟨name :: equals :: w ++ [semicolon], by simp [hc, hc₁, hw, hc₃],
      .initialized hname hequals he hsemicolon⟩
  | false =>
    refine Reads.skip.bind fun _ ↦ .pure ?_
    rintro c' c₂ ⟨semicolon, hsemicolon, hc₂⟩ c₁ ⟨hc₁, -⟩ c ⟨hname, hc⟩
    exact ⟨[name, semicolon], by simp [hc, ← hc₁, hc₂], .bare hname hsemicolon⟩

theorem expressionStatement_reads (he : Reads bound expression (Consumes E)) :
    Reads bound (expressionStatement expression) fun c s c' ↦ ∃ w e semicolon,
      c.rest = w ++ semicolon :: c'.rest ∧ E w e ∧ semicolon.kind = .semicolon ∧
        s = .expression e := by
  refine he.bind fun e ↦ Reads.skip.bind fun _ ↦ .pure ?_
  rintro c' c₁ ⟨semicolon, hsemicolon, hc₁⟩ c ⟨w, hw, he⟩
  exact ⟨w, e, semicolon, by rw [hw, hc₁], he, hsemicolon, rfl⟩

theorem forInitializer_reads (he : Reads bound expression (Consumes E)) :
    Reads bound (forInitializer expression) (Consumes (Initializer E)) := by
  refine Reads.accept.bind fun none ↦ ?_
  cases none with
  | true =>
    refine .pure ?_
    rintro c' c ⟨semicolon, hsemicolon, hc⟩
    exact ⟨[semicolon], hc, .none hsemicolon⟩
  | false =>
    refine Reads.accept.bind fun declares ↦ ?_
    cases declares with
    | true =>
      refine (varDeclaration_reads he).mono ?_
      rintro c₂ s c' ⟨w, hw, hs⟩ c₁ ⟨keyword, hkeyword, hc₁⟩ c ⟨hc, -⟩
      exact ⟨keyword :: w, by rw [← hc, hc₁, hw, List.cons_append], .declares hkeyword hs⟩
    | false =>
      refine (expressionStatement_reads he).mono ?_
      rintro c₂ s c' ⟨w, e, semicolon, hw, he, hsemicolon, rfl⟩ c₁ ⟨hc₁, -⟩ c ⟨hc, -⟩
      exact ⟨w ++ [semicolon], by simp [← hc, ← hc₁, hw], .expression he hsemicolon⟩

theorem forCondition_reads (he : Reads bound expression (Consumes E)) :
    Reads bound (forCondition expression) (Consumes (Condition E)) := by
  refine Reads.check.bind fun none ↦ ?_
  cases none with
  | true =>
    refine Reads.skip.bind fun _ ↦ .pure ?_
    rintro c' c₁ ⟨semicolon, hsemicolon, hc₁⟩ c ⟨rfl, -⟩
    exact ⟨[semicolon], hc₁, .none hsemicolon⟩
  | false =>
    refine he.bind fun e ↦ Reads.skip.bind fun _ ↦ .pure ?_
    rintro c' c₂ ⟨semicolon, hsemicolon, hc₂⟩ c₁ ⟨w, hw, he⟩ c ⟨rfl, -⟩
    exact ⟨w ++ [semicolon], by simp [hw, hc₂], .some he hsemicolon⟩

theorem forIncrement_reads (he : Reads bound expression (Consumes E)) :
    Reads bound (forIncrement expression) (Consumes (Increment E)) := by
  refine Reads.check.bind fun none ↦ ?_
  cases none with
  | true =>
    refine Reads.skip.bind fun _ ↦ .pure ?_
    rintro c' c₁ ⟨paren, hparen, hc₁⟩ c ⟨rfl, -⟩
    exact ⟨[paren], hc₁, .none hparen⟩
  | false =>
    refine (he.map (S := fun c s c' ↦ ∃ e, s = .expression e ∧ Consumes E c e c')
      fun c e c' h ↦ ⟨e, rfl, h⟩).bind fun s ↦ Reads.skip.bind fun _ ↦ .pure ?_
    rintro c' c₂ ⟨paren, hparen, hc₂⟩ c₁ ⟨e, rfl, w, hw, he⟩ c ⟨rfl, -⟩
    exact ⟨w ++ [paren], by simp [hw, hc₂], .some he hparen⟩

def ConsumesStatement (S : Bool → Phrase Stmt) (c : Cursor) (s : Stmt) (c' : Cursor) : Prop :=
  ∃ w dangling, c.rest = w ++ c'.rest ∧ S dangling w s ∧
    (dangling = true → ∀ t ∈ c'.rest.head?, t.kind ≠ .elseWord)

variable {statement : Parse Stmt} {S : Bool → Phrase Stmt} {keyword : Token}

theorem printStatement_reads (hk : keyword.kind = .printWord)
    (he : Reads bound expression (Consumes E)) :
    Reads bound (printStatement expression)
      (ConsumesStatement fun dangling w ↦ Undeclared E S G dangling (keyword :: w)) := by
  refine he.bind fun e ↦ Reads.skip.bind fun _ ↦ .pure ?_
  rintro c' c₁ ⟨semicolon, hsemicolon, hc₁⟩ c ⟨w, hw, he⟩
  exact ⟨w ++ [semicolon], false, by simp [hw, hc₁], .print hk he hsemicolon, by simp⟩

theorem returnStatement_reads (hk : keyword.kind = .returnWord)
    (he : Reads bound expression (Consumes E)) :
    Reads bound (returnStatement keyword expression)
      (ConsumesStatement fun dangling w ↦ Undeclared E S G dangling (keyword :: w)) := by
  refine Reads.check.bind fun bare ↦ ?_
  cases bare with
  | true =>
    refine Reads.skip.bind fun _ ↦ .pure ?_
    rintro c' c₁ ⟨semicolon, hsemicolon, hc₁⟩ c ⟨rfl, -⟩
    exact ⟨[semicolon], false, hc₁, .returns hk hsemicolon, by simp⟩
  | false =>
    refine (he.map (S := fun c o c' ↦ ∃ e, o = some e ∧ Consumes E c e c')
      fun c e c' h ↦ ⟨e, rfl, h⟩).bind fun o ↦ Reads.skip.bind fun _ ↦ .pure ?_
    rintro c' c₂ ⟨semicolon, hsemicolon, hc₂⟩ c₁ ⟨e, rfl, w, hw, he⟩ c ⟨rfl, -⟩
    exact ⟨w ++ [semicolon], false, by simp [hw, hc₂], .returnsValue hk he hsemicolon, by simp⟩

theorem ifStatement_reads (hk : keyword.kind = .ifWord) (he : Reads bound expression (Consumes E))
    (hs : Reads bound statement (ConsumesStatement S)) :
    Reads bound (ifStatement expression statement)
      (ConsumesStatement fun dangling w ↦ Undeclared E S G dangling (keyword :: w)) := by
  refine Reads.skip.bind fun _ ↦ he.bind fun condition ↦ Reads.skip.bind fun _ ↦
    hs.bind fun yes ↦ Reads.accept.bind fun otherwise ↦ ?_
  cases otherwise with
  | true =>
    refine (hs.map (S := fun c o c' ↦ ∃ s, o = some s ∧ ConsumesStatement S c s c')
      fun c s c' h ↦ ⟨s, rfl, h⟩).bind fun o ↦ .pure ?_
    rintro c' c₅ ⟨no, rfl, u, dangling, hu, hno, hfollow⟩ c₄ ⟨word, hword, hc₄⟩ c₃
      ⟨v, dangling', hv, hyes, hfollow'⟩ c₂ ⟨paren, hparen, hc₂⟩ c₁ ⟨w, hw, hcondition⟩ c
      ⟨opening, hopening, hc⟩
    have hclosed : dangling' = false := by
      cases dangling' with
      | false => rfl
      | true => exact absurd hword (hfollow' rfl word (by rw [hc₄]; rfl))
    subst hclosed
    exact ⟨opening :: w ++ paren :: v ++ word :: u, dangling, by simp [hc, hw, hc₂, hv, hc₄, hu],
      .ifElse hk hopening hcondition hparen hyes hword hno, hfollow⟩
  | false =>
    refine .pure ?_
    rintro c' c₄ ⟨hc₄, hnoElse⟩ c₃ ⟨v, dangling, hv, hyes, -⟩ c₂ ⟨paren, hparen, hc₂⟩ c₁
      ⟨w, hw, hcondition⟩ c ⟨opening, hopening, hc⟩
    exact ⟨opening :: w ++ paren :: v, true, by simp [hc, hw, hc₂, hv, hc₄],
      .ifThen hk hopening hcondition hparen hyes, fun _ ↦ by rw [hc₄]; exact hnoElse⟩

theorem whileStatement_reads (hk : keyword.kind = .whileWord)
    (he : Reads bound expression (Consumes E))
    (hs : Reads bound statement (ConsumesStatement S)) :
    Reads bound (whileStatement expression statement)
      (ConsumesStatement fun dangling w ↦ Undeclared E S G dangling (keyword :: w)) := by
  refine Reads.skip.bind fun _ ↦ he.bind fun condition ↦ Reads.skip.bind fun _ ↦
    hs.bind fun body ↦ .pure ?_
  rintro c' c₃ ⟨v, dangling, hv, hbody, hfollow⟩ c₂ ⟨paren, hparen, hc₂⟩ c₁ ⟨w, hw, hcondition⟩ c
    ⟨opening, hopening, hc⟩
  exact ⟨opening :: w ++ paren :: v, dangling, by simp [hc, hw, hc₂, hv],
    .loop hk hopening hcondition hparen hbody, hfollow⟩

theorem forStatement_reads (hk : keyword.kind = .forWord)
    (he : Reads bound expression (Consumes E))
    (hs : Reads bound statement (ConsumesStatement S)) :
    Reads bound (forStatement expression statement)
      (ConsumesStatement fun dangling w ↦ Undeclared E S G dangling (keyword :: w)) := by
  refine Reads.skip.bind fun _ ↦ (forInitializer_reads he).bind fun initial ↦
    (forCondition_reads he).bind fun condition ↦ (forIncrement_reads he).bind fun increment ↦
    hs.bind fun body ↦ .pure ?_
  rintro c' c₄ ⟨x, dangling, hx, hbody, hfollow⟩ c₃ ⟨u, hu, hincrement⟩ c₂ ⟨v, hv, hcondition⟩ c₁
    ⟨w, hw, hinitial⟩ c ⟨opening, hopening, hc⟩
  exact ⟨opening :: w ++ v ++ u ++ x, dangling, by simp [hc, hw, hv, hu, hx],
    .forLoop hk hopening hinitial hcondition hincrement hbody, hfollow⟩

theorem plainStatement_reads (he : Reads bound expression (Consumes E))
    (hs : Reads bound statement (ConsumesStatement S)) (hi : ReadsItem bound item G) :
    Reads bound (plainStatement bound expression statement item)
      (ConsumesStatement (Undeclared E S G)) := by
  refine Reads.accept?.bind fun o ↦ ?_
  cases o with
  | none =>
    refine (expressionStatement_reads he).mono ?_
    rintro c₁ s c' ⟨w, e, semicolon, hw, he, hsemicolon, rfl⟩ c ⟨hc, -⟩
    exact ⟨w ++ [semicolon], false, by simp [← hc, hw], .expression he hsemicolon, by simp⟩
  | some keyword =>
    have behind {p : Parse Stmt}
        (hp : Reads bound p
          (ConsumesStatement fun dangling w ↦ Undeclared E S G dangling (keyword :: w))) :
        Reads bound p fun c₁ s c' ↦ ∀ c : Cursor,
          opensStatement keyword.kind = true ∧ c.rest = keyword :: c₁.rest →
          ConsumesStatement (Undeclared E S G) c s c' := by
      refine hp.mono ?_
      rintro c₁ s c' ⟨w, dangling, hw, hs, hfollow⟩ c ⟨-, hc⟩
      exact ⟨keyword :: w, dangling, by rw [hc, hw, List.cons_append], hs, hfollow⟩
    dsimp only
    split
    · exact behind (printStatement_reads ‹_› he)
    · exact behind (returnStatement_reads ‹_› he)
    · exact behind (forStatement_reads ‹_› he hs)
    · exact behind (ifStatement_reads ‹_› he hs)
    · exact behind (whileStatement_reads ‹_› he hs)
    · refine (block_reads hi).bind fun body ↦ .pure ?_
      rintro c' c₁ ⟨w, hw, hbody⟩ c ⟨hopens, hc⟩
      have hbrace : keyword.kind = .leftBrace := by
        cases hk : keyword.kind <;> simp_all [opensStatement]
      exact ⟨keyword :: w, false, by simp [hc, hw], .block hbrace hbody, by simp⟩

theorem declared_reads {functionItem methodItem : Parse (Option Stmt)} {F M : Phrase Stmt}
    (he : Reads bound expression (Consumes E)) (hs : Reads bound statement (ConsumesStatement S))
    (hf : ReadsItem bound functionItem F) (hm : ReadsItem bound methodItem M) :
    Reads bound (declared bound expression statement functionItem methodItem)
      (Consumes (Declared E S F M)) := by
  refine Reads.accept?.bind fun o ↦ ?_
  cases o with
  | none =>
    refine hs.mono ?_
    rintro c₁ s c' ⟨w, dangling, hw, hs, -⟩ c ⟨hc, -⟩
    exact ⟨w, by rw [← hc, hw], .statement hs⟩
  | some keyword =>
    dsimp only
    split
    · next hk =>
      refine (classDeclaration_reads (I := E) (S := S) (F := F) hk hm).mono ?_
      rintro c₁ s c' ⟨w, hw, hs⟩ c ⟨-, hc⟩
      exact ⟨keyword :: w, by rw [hc, hw, List.cons_append], hs⟩
    · next hk =>
      refine (function_reads hf).map ?_
      rintro c₁ d c' ⟨w, hw, hd⟩ c ⟨-, hc⟩
      exact ⟨keyword :: w, by rw [hc, hw, List.cons_append], .function hk hd⟩
    · refine (varDeclaration_reads he).mono ?_
      rintro c₁ s c' ⟨w, hw, hs⟩ c ⟨hopens, hc⟩
      have hk : keyword.kind = .varWord := by
        cases hk : keyword.kind <;> simp_all [opensDeclaration]
      exact ⟨keyword :: w, by rw [hc, hw, List.cons_append], .declares hk hs⟩

mutual

theorem statement_reads :
    ∀ room, Reads bound (Parse.statement bound room) (ConsumesStatement (Statement room))
  | room + 3 => by
    rw [Parse.statement, Statement]
    exact plainStatement_reads (expression_reads room) (statement_reads (room + 1))
      (declaration_reads (room + 1))
  | 0 | 1 | 2 => .tooDeep

theorem declaration_reads : ∀ room, ReadsItem bound (declaration bound room) (Declaration room)
  | room + 4 => by
    rw [ReadsItem, Parse.declaration, Declaration]
    refine (Reads.recovering (declared_reads (expression_reads (room + 1))
      (statement_reads (room + 3)) (declaration_reads (room + 1)) (declaration_reads room))).mono ?_
    rintro c o c' ⟨s, rfl, w, hw, hs⟩
    exact ⟨w, hw, s, rfl, hs⟩
  | 0 | 1 | 2 | 3 => .tooDeep

end

/-- Whatever happens, no complaint is taken back. -/
theorem declarations_keeps (bound room rounds : Nat) (done : Array Stmt) (c : Cursor) :
    Keeps c (declarations bound room rounds done c).2 := by
  induction rounds generalizing done c with
  | zero => exact .refl _
  | succ rounds ih =>
    unfold declarations
    split
    · exact .refl _
    · split
      · next h => exact ((declaration_reads room).ok h).1.trans (ih _ _)
      · next h => exact ((declaration_reads room).ok h).1.trans (ih _ _)
      · next c₁ h =>
        exact ((declaration_reads room).error h).1.trans
          (.trans (.of_push rfl) (ih _ _))

/-- What is read up to the end without a complaint is derived. -/
theorem declarations_sound {room : Nat} (hG : ∀ w s, Declaration room w s → w ≠ []) (rounds : Nat)
    (done : Array Stmt) (c : Cursor) (hb : c.rest.length ≤ bound) (hr : c.rest.length ≤ rounds)
    (hclean : (declarations bound room rounds done c).2.faults = c.faults) :
    ∃ new, (declarations bound room rounds done c).1.toList = done.toList ++ new ∧
      Sequence (Declaration room) c.rest new := by
  induction rounds generalizing done c with
  | zero =>
    have hnil : c.rest = [] := List.eq_nil_of_length_eq_zero (Nat.le_zero.mp hr)
    exact ⟨[], by simp [declarations], by rw [hnil]; exact .nil⟩
  | succ rounds ih =>
    unfold declarations at hclean ⊢
    split at hclean
    · next hempty =>
      have hnil : c.rest = [] := List.isEmpty_iff.mp hempty
      exact ⟨[], by simp [hnil], by rw [hnil]; exact .nil⟩
    · next hempty =>
      rw [if_neg hempty]
      split at hclean
      · next s c₁ h =>
        obtain ⟨hk, hread⟩ := (declaration_reads room).ok h
        obtain ⟨he₁, he⟩ := hk.eq_of_eq (declarations_keeps _ _ _ _ _) hclean
        obtain ⟨hb₁, w, hw, s', hs', hs⟩ := hread he₁ hb
        cases hs'
        have hpos := List.length_pos_iff.mpr (hG w s hs)
        have hlen := congrArg List.length hw
        simp only [List.length_append] at hlen
        obtain ⟨new, hnew, hseq⟩ := ih (done.push s) c₁ hb₁ (by omega) he
        exact ⟨s :: new, by simp [hnew], by rw [hw]; exact .cons hs hseq⟩
      · next c₁ h =>
        obtain ⟨hk, hread⟩ := (declaration_reads room).ok h
        obtain ⟨he₁, -⟩ := hk.eq_of_eq (declarations_keeps _ _ _ _ _) hclean
        obtain ⟨-, w, -, s', hs', -⟩ := hread he₁ hb
        cases hs'
      · next c₁ h =>
        obtain ⟨hk, -⟩ := (declaration_reads room).error h
        have hpush : Keeps c₁ ⟨afterMistake c₁.rest, c₁.last,
          c₁.faults.push (.atToken c₁.peek .nestingTooDeep)⟩ := .of_push rfl
        have hrest := declarations_keeps bound room rounds done
          ⟨afterMistake c₁.rest, c₁.last, c₁.faults.push (.atToken c₁.peek .nestingTooDeep)⟩
        obtain ⟨-, he⟩ := hk.eq_of_eq (hpush.trans hrest) hclean
        exact absurd (hpush.eq_of_eq hrest he).1 (push_ne _ _)

end Statements

end TreeWalk.Parse
