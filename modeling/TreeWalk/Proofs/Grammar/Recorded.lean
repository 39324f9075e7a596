import TreeWalk.Proofs.Grammar.Relaxed
import TreeWalk.Proofs.Grammar.Sound

namespace TreeWalk.Parse

open Grammar

variable {α β : Type}

def Takes (p : Parse α) (fits : Prop) (r : List Token) (a : α) (k : List Token) : Prop :=
  ∀ last faults, p ⟨r, last, faults⟩ = .ok a ⟨k, last, faults⟩ ∨
    ¬fits ∧ ∃ c, p ⟨r, last, faults⟩ = .error .tooDeep c

/-- From the words `r`, a reading gives a value, complains and leaves the words `k`; or it stops for lack of
room, but not if what it reads fits. -/
def Records (p : Parse α) (fits : Prop) (r : List Token) (a : α) (ds : List Diagnostic) (k : List Token) :
    Prop :=
  ∀ last faults, p ⟨r, last, faults⟩ = .ok a ⟨k, last, faults ++ ds.toArray⟩ ∨
    ¬fits ∧ ∃ c, p ⟨r, last, faults⟩ = .error .tooDeep c

namespace Records

variable {p : Parse α} {fits : Prop} {r k : List Token} {a : α} {ds ds' : List Diagnostic}

theorem mono {fits' : Prop} (h : Records p fits r a ds k) (hf : fits' → fits) :
    Records p fits' r a ds k :=
  fun last faults ↦ (h last faults).imp_right fun ⟨hn, hc⟩ ↦ ⟨fun h' ↦ hn (hf h'), hc⟩

theorem of_takes (h : Takes p fits r a k) : Records p fits r a [] k :=
  fun last faults ↦ (h last faults).imp_left fun h ↦ by simpa using h

theorem takes (h : Records p fits r a [] k) : Takes p fits r a k :=
  fun last faults ↦ (h last faults).imp_left fun h ↦ by simpa using h

theorem bind {f : α → Parse β} {r₁ : List Token} {b : β} (hp : Records p fits r a ds r₁)
    (hf : Records (f a) fits r₁ b ds' k) : Records (p >>= f) fits r b (ds ++ ds') k := by
  intro last faults
  rcases hp last faults with h | ⟨hn, c, h⟩
  · rcases hf last (faults ++ ds.toArray) with h' | ⟨hn, c, h'⟩
    · exact .inl (bind_eq_ok.mpr ⟨a, _, h, by simpa using h'⟩)
    · exact .inr ⟨hn, c, bind_eq_error.mpr (.inr ⟨a, _, h, h'⟩)⟩
  · exact .inr ⟨hn, c, bind_eq_error.mpr (.inl h)⟩

end Records

def Ends (kinds : List Kind) (k : List Token) : Prop := ∀ t ∈ k.head?, t.kind ∉ kinds

namespace Takes

variable {p : Parse α} {fits : Prop} {r k : List Token} {a : α} {t : Token} {kind : Kind}

theorem mono {fits' : Prop} (h : Takes p fits r a k) (hf : fits' → fits) : Takes p fits' r a k :=
  ((Records.of_takes h).mono hf).takes

theorem pure : Takes (pure a) fits k a k := fun _ _ ↦ .inl rfl

theorem bind {f : α → Parse β} {r₁ : List Token} {b : β} (hp : Takes p fits r a r₁)
    (hf : Takes (f a) fits r₁ b k) : Takes (p >>= f) fits r b k :=
  ((Records.of_takes hp).bind (.of_takes hf)).takes

theorem map {f : α → β} (hp : Takes p fits r a k) : Takes (f <$> p) fits r (f a) k := by
  rw [← bind_pure_comp]
  exact hp.bind .pure

theorem accept? {wanted : Kind → Bool} (h : wanted t.kind = true) :
    Takes (accept? wanted) fits (t :: k) (some t) k :=
  fun last faults ↦ .inl (by simp [Parse.accept?, h])

theorem accept?_none {wanted : Kind → Bool} (h : ∀ t ∈ k.head?, wanted t.kind = false) :
    Takes (Parse.accept? wanted) fits k none k := by
  refine fun last faults ↦ .inl ?_
  cases k with
  | nil => rfl
  | cons t k => simp [Parse.accept?, h t rfl]

theorem accept (h : t.kind = kind) : Takes (accept kind) fits (t :: k) true k :=
  (accept? (by simpa using h)).bind .pure

theorem accept_false (h : Ends [kind] k) : Takes (Parse.accept kind) fits k false k :=
  (accept?_none fun t ht ↦ by simpa using h t ht).bind .pure

theorem expect {what : Missing} (h : t.kind = kind) :
    Takes (expect kind what) fits (t :: k) t k :=
  (accept? (by simpa using h)).bind .pure

theorem skip {what : Missing} (h : t.kind = kind) :
    Takes (discard (Parse.expect kind what)) fits (t :: k) () k :=
  (expect h).map

theorem check (h : t.kind = kind) : Takes (check kind) fits (t :: k) true (t :: k) := by
  refine fun last faults ↦ .inl ?_
  change EStateM.Result.ok (t.kind == kind) _ = _
  simp [h]

theorem check_false (h : Ends [kind] k) : Takes (Parse.check kind) fits k false k := by
  refine fun last faults ↦ .inl ?_
  change EStateM.Result.ok (k.head?.any (·.kind == kind)) _ = _
  cases k with
  | nil => rfl
  | cons t k =>
    have ht : t.kind ≠ kind := by simpa using h t rfl
    simp [ht]

theorem atEnd : Takes atEnd fits k k.isEmpty k := fun _ _ ↦ .inl rfl

theorem peek : Takes peek fits (t :: k) t (t :: k) := fun _ _ ↦ .inl rfl

end Takes

namespace Ends

variable {kinds kinds' : List Kind} {k : List Token}

theorem cons {t : Token} (h : t.kind ∉ kinds) : Ends kinds (t :: k) := by
  intro t' ht'
  cases ht'
  exact h

theorem nil : Ends kinds [] := by simp [Ends]

theorem mono (h : Ends kinds' k) (hk : kinds ⊆ kinds') : Ends kinds k :=
  fun t ht hm ↦ h t ht (hk hm)

end Ends

theorem nothing_ends {k : List Token} : Ends [] k := fun _ _ ↦ List.not_mem_nil

def Starts (kinds : List Kind) (G : Phrase α) : Prop :=
  ∀ ⦃w a⦄, G w a → ∃ t v, w = t :: v ∧ t.kind ∈ kinds

theorem Starts.ends {kinds others : List Kind} {G : Phrase α} (hG : Starts kinds G)
    (hk : ∀ x ∈ kinds, x ∉ others) {w k : List Token} {a : α} (h : G w a) :
    Ends others (w ++ k) := by
  obtain ⟨t, v, rfl, ht⟩ := hG h
  exact .cons (hk _ ht)

namespace Records

variable {p : Parse α} {fits : Prop} {r k : List Token} {a : α} {t : Token} {ds : List Diagnostic}

theorem pure : Records (pure a) fits k a [] k := of_takes .pure

theorem tooDeep (hf : ¬fits) : Records (throw .tooDeep : Parse α) fits r a ds k :=
  fun _ _ ↦ .inr ⟨hf, _, rfl⟩

theorem last {f : α → Parse β} {r₁ : List Token} {b : β} (hp : Records p fits r a ds r₁)
    (hf : Takes (f a) fits r₁ b k) : Records (p >>= f) fits r b ds k := by
  simpa using hp.bind (of_takes hf)

theorem behind {f : α → Parse β} {r₁ : List Token} {b : β} (hp : Takes p fits r a r₁)
    (hf : Records (f a) fits r₁ b ds k) : Records (p >>= f) fits r b ds k :=
  (of_takes hp).bind hf

theorem map {f : α → β} (hp : Records p fits r a ds k) : Records (f <$> p) fits r (f a) ds k := by
  rw [← bind_pure_comp]
  exact hp.last .pure

theorem complain {c : Complaint} : Records (complain t c) fits k () [.atToken t c] k :=
  fun _ _ ↦ .inl rfl

theorem recovering (h : Records p fits r a ds k) : Records (recovering p) fits r (some a) ds k := by
  intro last faults
  rcases h last faults with h | ⟨hn, c, h⟩
  · exact .inl (by simp [Parse.recovering, h])
  · exact .inr ⟨hn, c, by simp [Parse.recovering, h]⟩

end Records

/-- A reading takes the words of a language with the complaints it names, if a word of none of these kinds
stands behind them. -/
def Recorded (bound : Nat) (p : Parse α) (fits : Prop) (stops : List Kind) (G : Reading α) : Prop :=
  ∀ ⦃w a ds k⦄, G w a ds → Ends stops k → (w ++ k).length ≤ bound → Records p fits (w ++ k) a ds k

section Expressions

variable {bound : Nat} {fits : Prop} {stops : List Kind}

theorem joined_records {t : Tier} {operators : Kind → Bool} {operand : Parse Expr}
    {G : Reading Expr} (ht : ∀ k, k ∈ t.kinds → operators k = true)
    (hstops : ∀ k ∈ t.kinds, k ∉ stops) (hp : Recorded bound operand fits stops G)
    {w : List Token} {e : Expr} {ds : List Diagnostic} (h : Relaxed.Joined t G w e ds) :
    ∀ {k : List Token}, Ends stops k → (w ++ k).length ≤ bound → ∃ n, k.length ≤ n ∧
      ∀ e' ds' k', Records (joined operators t.join operand n e) fits k e' ds' k' →
        Records (leftAssociative bound operators t.join operand) fits (w ++ k) e' (ds ++ ds') k' := by
  induction h with
  | one h =>
    intro k hk hb
    refine ⟨bound, ?_, fun e' ds' k' hrest ↦ (hp h hk hb).bind hrest⟩
    simp only [List.length_append] at hb
    omega
  | @more w v operator l r dl dr _ hop hr ih =>
    intro k hk hb
    have hlen := hb
    simp only [List.append_assoc, List.cons_append, List.length_append, List.length_cons] at hlen
    obtain ⟨n, hn, hl⟩ := ih (k := operator :: (v ++ k)) (.cons (hstops _ hop)) (by simpa using hb)
    simp only [List.length_append, List.length_cons] at hn
    obtain ⟨n, rfl⟩ : ∃ m, n = m + 1 := ⟨n - 1, by omega⟩
    refine ⟨n, by omega, fun e' ds' k' hrest ↦ ?_⟩
    have h := hl e' (dr ++ ds') k' ?_
    · simpa using h
    · unfold joined
      refine .behind (.accept? (ht _ hop)) ?_
      exact (hp hr hk (by simp only [List.length_append]; omega)).bind hrest

theorem leftAssociative_recorded {t : Tier} {operators : Kind → Bool} {operand : Parse Expr}
    {G : Reading Expr} (ht : ∀ k, k ∈ t.kinds ↔ operators k = true)
    (hstops : ∀ k ∈ t.kinds, k ∉ stops) (hp : Recorded bound operand fits stops G) :
    Recorded bound (leftAssociative bound operators t.join operand) fits (t.kinds ++ stops)
      (Relaxed.Joined t G) := by
  intro w e ds k h hk hb
  obtain ⟨n, -, hn⟩ := joined_records (fun k ↦ (ht k).mp) hstops hp h
    (hk.mono (List.subset_append_right _ _)) hb
  rw [← List.append_nil ds]
  refine hn e [] k (.of_takes ?_)
  cases n with
  | zero => exact .pure
  | succ n =>
    unfold joined
    refine (Takes.accept?_none fun t' ht' ↦ ?_).bind .pure
    have := hk t' ht'
    simp only [List.mem_append, not_or, ht, Bool.not_eq_true] at this
    exact this.1

def operandStops : List Kind := [.leftParen, .dot]

def operationStops : List Kind :=
  disjunction.kinds ++ (conjunction.kinds ++ (equality.kinds ++ (comparison.kinds ++
    (term.kinds ++ (factor.kinds ++ operandStops)))))

def expressionStops : List Kind := .equal :: operationStops

theorem operation_recorded {operand : Parse Expr} {G : Reading Expr}
    (hp : Recorded bound operand fits operandStops G) :
    Recorded bound (operation bound operand) fits operationStops (Relaxed.Operation G) := by
  refine leftAssociative_recorded (fun k ↦ by cases k <;> simp [isOr, disjunction]) (by decide) ?_
  refine leftAssociative_recorded (fun k ↦ by cases k <;> simp [isAnd, conjunction]) (by decide) ?_
  refine leftAssociative_recorded (fun k ↦ by cases k <;> simp [isEquality, equality])
    (by decide) ?_
  refine leftAssociative_recorded (fun k ↦ by cases k <;> simp [isComparison, comparison])
    (by decide) ?_
  refine leftAssociative_recorded (fun k ↦ by cases k <;> simp [isTerm, term]) (by decide) ?_
  exact leftAssociative_recorded (fun k ↦ by cases k <;> simp [isFactor, factor]) (by decide) hp

theorem assignment_recorded {operand value : Parse Expr} {G V : Reading Expr}
    (hp : Recorded bound operand fits operandStops G)
    (hv : Recorded bound value fits expressionStops V) :
    Recorded bound (assignment bound operand value) fits expressionStops
      (Relaxed.Assignment (Relaxed.Operation G) V) := by
  intro w e ds k h hk hb
  have hop := operation_recorded hp
  cases h with
  | operation h =>
    refine (hop h (hk.mono (List.subset_cons_self _ _)) hb).last ?_
    refine (Takes.accept?_none fun t ht ↦ ?_).bind .pure
    have := hk t ht
    simp_all [expressionStops]
  | @assign w v equals name ref e ds ds' h he hvalue =>
    simp only [List.append_assoc, List.cons_append] at hb ⊢
    refine (hop h (.cons (by rw [he]; decide)) hb).bind (.behind (.accept? (by simpa using he)) ?_)
    exact (hv hvalue hk (by simp_all; omega)).last .pure
  | @set w v equals name object e ds ds' h he hvalue =>
    simp only [List.append_assoc, List.cons_append] at hb ⊢
    refine (hop h (.cons (by rw [he]; decide)) hb).bind (.behind (.accept? (by simpa using he)) ?_)
    exact (hv hvalue hk (by simp_all; omega)).last .pure
  | @invalid w v equals target e ds ds' h htarget he hvalue =>
    simp only [List.append_assoc, List.cons_append] at hb ⊢
    refine (hop h (.cons (by rw [he]; decide)) hb).bind (.behind (.accept? (by simpa using he)) ?_)
    refine (hv hvalue hk (by simp_all; omega)).bind ?_
    split
    · cases htarget
    · cases htarget
    · exact Records.complain.last .pure

theorem primary_recorded {inner : Parse Expr} {G : Reading Expr}
    (hp : Recorded bound inner fits expressionStops G) :
    Recorded bound (primary inner) fits [] (Relaxed.Primary G) := by
  intro w e ds k h hk hb
  cases h with
  | word h =>
    refine .of_takes ?_
    cases h with
    | value hk =>
      refine (Takes.accept? (by rcases hk with hk | hk <;> simp [hk, isPrimary])).bind ?_
      rcases hk with hk | hk <;> simp only [hk] <;> exact .pure
    | group _ h => exact h.elim
    | false hk | true hk | nil hk | self hk | name hk =>
      refine (Takes.accept? (by simp [hk, isPrimary])).bind ?_
      simp only [hk]
      exact .pure
  | @group w opening close e ds hopening he hclose =>
    refine .behind (.accept? (by simp [hopening, isPrimary])) ?_
    simp only [hopening, List.append_eq, List.append_assoc, List.cons_append,
      List.nil_append] at hb ⊢
    refine (hp he (.cons (by rw [hclose]; decide)) (Nat.le_of_succ_le hb)).last ?_
    exact (Takes.skip hclose).bind .pure

theorem separated_size_le {kinds : List Kind} {tooMany : Complaint} {G : Reading α}
    (hG : Starts kinds G.phrase) {n : Nat} {w : List Token} {as : List α} {ds : List Diagnostic}
    (h : Relaxed.Separated tooMany G n w as ds) : as.length ≤ w.length := by
  induction h with
  | one h =>
    obtain ⟨t, v, rfl, -⟩ := hG ⟨_, h⟩
    simp
  | more _ _ _ ih =>
    simp only [List.length_append, List.length_cons]
    omega

theorem separated_begins {kinds : List Kind} {tooMany : Complaint} {G : Reading α}
    (hG : Starts kinds G.phrase) (n : Nat) :
    Starts kinds (Reading.phrase (Relaxed.Separated tooMany G n)) := by
  rintro w as ⟨ds, h⟩
  cases h with
  | one h => exact hG ⟨_, h⟩
  | more h =>
    obtain ⟨t, v, rfl, ht⟩ := hG ⟨_, h⟩
    exact ⟨t, _, rfl, ht⟩

theorem commaItems_surplus {item : Parse α} {tooMany : Complaint} {n : Nat} {done as : Array α}
    {t : Token} {v k r : List Token} {ds : List Diagnostic}
    (h : Records (do
      let done := done.push (← item)
      if ← accept .comma then commaItems tooMany item n done else return done) fits
        (t :: v ++ k) as ds r) :
    Records (commaItems tooMany item (n + 1) done) fits (t :: v ++ k) as
      (Relaxed.surplus tooMany done.size (t :: v) ++ ds) r := by
  rw [commaItems, Relaxed.surplus]
  split
  · exact .behind .peek (Records.complain.bind h)
  · exact h

theorem commaItems_recorded {item : Parse α} {kinds : List Kind} {G : Reading α} {tooMany : Complaint}
    (hG : Starts kinds G.phrase) (hp : Recorded bound item fits stops G) (hstops : Kind.comma ∉ stops)
    {n : Nat} {w : List Token} {as : List α} {ds : List Diagnostic}
    (h : Relaxed.Separated tooMany G n w as ds) :
    ∀ {k : List Token} (done : Array α) {m : Nat}, Ends (.comma :: stops) k →
      (w ++ k).length ≤ bound → as.length ≤ m → done.size = n →
      Records (commaItems tooMany item m done) fits (w ++ k) (done ++ as.toArray) ds k := by
  induction h with
  | @one n w a ds ha =>
    intro k done m hk hb hm hsize
    obtain ⟨m, rfl⟩ : ∃ l, m = l + 1 := ⟨m - 1, by simp at hm; omega⟩
    obtain ⟨t, v, rfl, -⟩ := hG ⟨_, ha⟩
    refine hsize ▸ commaItems_surplus ?_
    refine (hp ha (hk.mono (List.subset_cons_self _ _)) hb).last ?_
    exact (Takes.accept_false (hk.mono (by simp))).bind .pure
  | @more n w v comma a as ds ds' ha hcomma _ ih =>
    intro k done m hk hb hm hsize
    simp only [List.length_cons] at hm
    obtain ⟨m, rfl⟩ : ∃ l, m = l + 1 := ⟨m - 1, by omega⟩
    obtain ⟨t, u, rfl, -⟩ := hG ⟨_, ha⟩
    rw [List.append_assoc, List.cons_append] at hb ⊢
    refine hsize ▸ commaItems_surplus ?_
    refine (hp ha (.cons (by rwa [hcomma])) hb).bind (.behind (.accept hcomma) ?_)
    simp only [List.length_append, List.length_cons] at hb
    have h := ih (done.push a) (m := m) hk
      (by simp only [List.length_append]; omega) (by omega) (by rw [Array.size_push, hsize])
    simpa using h

theorem parenthesised_recorded {item : Parse α} {G : Reading α} (tooMany : Complaint)
    (close : Missing) {kinds : List Kind} (hG : Starts kinds G.phrase) (hkinds : Kind.rightParen ∉ kinds)
    (hp : Recorded bound item fits stops G) (hcomma : Kind.comma ∉ stops)
    (hparen : Kind.rightParen ∉ stops) :
    Recorded bound (parenthesised tooMany close item bound) fits [] (Relaxed.Parenthesised tooMany G) := by
  intro w ⟨as, paren⟩ ds k h _ hb
  cases h with
  | none hclose =>
    refine .of_takes ((Takes.check hclose).bind ?_)
    exact Takes.pure.bind ((Takes.expect hclose).bind .pure)
  | @some w as close ds hitems hclose =>
    simp only [List.append_assoc, List.cons_append, List.nil_append] at hb ⊢
    have hopen : Ends [.rightParen] (w ++ paren :: k) :=
      (separated_begins hG 0).ends (fun x hx h ↦ hkinds (by simp at h; exact h ▸ hx)) ⟨_, hitems⟩
    refine .behind (.check_false hopen) ?_
    have hends : Ends (.comma :: stops) (paren :: k) := .cons (by rw [hclose]; simp [hparen])
    have hlen := separated_size_le hG hitems
    have hb' := hb
    simp only [List.length_append, List.length_cons] at hb'
    have h := commaItems_recorded hG hp hcomma hitems #[] (m := bound) hends hb (by omega) rfl
    refine h.last ((Takes.expect hclose).bind ?_)
    simpa using Takes.pure

def primaryStarts : List Kind :=
  [.falseWord, .trueWord, .nilWord, .number, .string, .thisWord, .identifier, .leftParen]

def expressionStarts : List Kind := .bang :: .minus :: primaryStarts

theorem suffixes_records {argument primary : Parse Expr} {A P : Reading Expr}
    (hA : Starts expressionStarts A.phrase) (hp : Recorded bound argument fits expressionStops A)
    (hprimary : Recorded bound primary fits [] P) {w : List Token} {e : Expr} {ds : List Diagnostic}
    (h : Relaxed.Suffixed A P w e ds) :
    ∀ {k : List Token}, (w ++ k).length ≤ bound → ∃ n, k.length ≤ n ∧
      ∀ e' ds' k', Records (suffixes bound argument n e) fits k e' ds' k' →
        Records (primary >>= suffixes bound argument bound) fits (w ++ k) e' (ds ++ ds') k' := by
  have harguments : Recorded bound (parenthesised .tooManyArguments .argumentsEnd argument bound) fits []
      (Relaxed.Parenthesised .tooManyArguments A) :=
    parenthesised_recorded _ _ hA (by decide) hp (by decide) (by decide)
  induction h with
  | primary h =>
    intro k hb
    refine ⟨bound, ?_, fun e' ds' k' hrest ↦ (hprimary h nothing_ends hb).bind hrest⟩
    simp only [List.length_append] at hb
    omega
  | @call w v opening paren callee arguments ds da _ hopening hargs ih =>
    intro k hb
    have hlen := hb
    simp only [List.append_assoc, List.cons_append, List.length_append, List.length_cons] at hlen
    obtain ⟨n, hn, hcallee⟩ := ih (k := opening :: (v ++ k)) (by simpa using hb)
    simp only [List.length_append, List.length_cons] at hn
    obtain ⟨n, rfl⟩ : ∃ m, n = m + 1 := ⟨n - 1, by omega⟩
    refine ⟨n, by omega, fun e' ds' k' hrest ↦ ?_⟩
    have h := hcallee e' (da ++ ds') k' ?_
    · simpa using h
    · unfold suffixes
      refine .behind (.accept? (by simp [hopening, isSuffix])) ?_
      simp only [hopening]
      exact (harguments hargs nothing_ends (by simp only [List.length_append]; omega)).bind hrest
  | @property w dot name object ds _ hdot hname ih =>
    intro k hb
    have hlen := hb
    simp only [List.append_assoc, List.cons_append, List.length_append, List.length_cons] at hlen
    obtain ⟨n, hn, hobject⟩ := ih (k := dot :: name :: k) (by simpa using hb)
    simp only [List.length_cons] at hn
    obtain ⟨n, rfl⟩ : ∃ m, n = m + 1 := ⟨n - 1, by omega⟩
    refine ⟨n, by omega, fun e' ds' k' hrest ↦ ?_⟩
    have h := hobject e' ds' k' ?_
    · simpa using h
    · unfold suffixes
      refine .behind (.accept? (by simp [hdot, isSuffix])) ?_
      simp only [hdot]
      exact .behind (.expect hname) hrest

theorem joined_begins {kinds : List Kind} {t : Tier} {G : Reading Expr} (hG : Starts kinds G.phrase) :
    Starts kinds (Reading.phrase (Relaxed.Joined t G)) := by
  rintro w e ⟨ds, h⟩
  induction h with
  | one h => exact hG ⟨_, h⟩
  | more _ _ _ ih =>
    obtain ⟨t, v, rfl, ht⟩ := ih
    exact ⟨t, _, rfl, ht⟩

theorem operation_begins {kinds : List Kind} {G : Reading Expr} (hG : Starts kinds G.phrase) :
    Starts kinds (Reading.phrase (Relaxed.Operation G)) :=
  joined_begins <| joined_begins <| joined_begins <| joined_begins <| joined_begins <| joined_begins hG

theorem suffixed_begins {kinds : List Kind} {A P : Reading Expr} (hP : Starts kinds P.phrase) :
    Starts kinds (Reading.phrase (Relaxed.Suffixed A P)) := by
  rintro w e ⟨ds, h⟩
  induction h with
  | primary h => exact hP ⟨_, h⟩
  | call _ _ _ ih | property _ _ _ ih =>
    obtain ⟨t, v, rfl, ht⟩ := ih
    exact ⟨t, _, rfl, ht⟩

theorem primary_begins {G : Reading Expr} : Starts primaryStarts (Reading.phrase (Relaxed.Primary G)) := by
  rintro w e ⟨ds, h⟩
  cases h with
  | word h =>
    cases h with
    | value hk => exact ⟨_, _, rfl, by rcases hk with hk | hk <;> rw [hk] <;> decide⟩
    | false hk | true hk | nil hk | self hk | name hk | group hk =>
      exact ⟨_, _, rfl, by rw [hk]; decide⟩
  | group hk => exact ⟨_, _, rfl, by rw [hk]; decide⟩

theorem operand_begins (depth : Nat) : Starts expressionStarts (Relaxed.Operand depth).phrase := by
  rintro w e ⟨ds, h⟩
  match depth with
  | depth + 4 =>
    rw [Relaxed.Operand] at h
    cases h with
    | sign hk _ => exact ⟨_, _, rfl, by rcases hk with hk | hk <;> rw [hk] <;> decide⟩
    | call h =>
      obtain ⟨t, v, rfl, ht⟩ := suffixed_begins primary_begins ⟨_, h⟩
      exact ⟨t, v, rfl, List.mem_cons_of_mem _ (List.mem_cons_of_mem _ ht)⟩
  | 0 | 1 | 2 | 3 => exact h.elim

theorem expression_begins (depth : Nat) : Starts expressionStarts (Relaxed.Expression depth).phrase := by
  rintro w e ⟨ds, h⟩
  match depth with
  | depth + 7 =>
    rw [Relaxed.Expression] at h
    have hop := operation_begins (operand_begins depth)
    cases h with
    | operation h => exact hop ⟨_, h⟩
    | assign h | set h | invalid h =>
      obtain ⟨t, v, rfl, ht⟩ := hop ⟨_, h⟩
      exact ⟨t, _, rfl, ht⟩
  | 0 | 1 | 2 | 3 | 4 | 5 | 6 => exact h.elim

mutual

theorem expression_recorded : ∀ depth room, Recorded bound (expression bound room)
    (depth ≤ room) expressionStops (Relaxed.Expression depth)
  | depth + 7, room + 7 => by
    rw [expression, Relaxed.Expression]
    refine assignment_recorded ?_ ?_
    · exact fun w e ds k h hk hb ↦
        (operand_recorded depth room h hk hb).mono fun h ↦ by omega
    · exact fun w e ds k h hk hb ↦
        (expression_recorded (depth + 6) (room + 6) h hk hb).mono fun h ↦ by omega
  | depth + 7, 0 | depth + 7, 1 | depth + 7, 2 | depth + 7, 3 | depth + 7, 4 | depth + 7, 5
  | depth + 7, 6 => fun _ _ _ _ _ _ _ ↦ .tooDeep (by omega)
  | 0, _ | 1, _ | 2, _ | 3, _ | 4, _ | 5, _ | 6, _ => fun _ _ _ _ h ↦ h.elim

theorem operand_recorded : ∀ depth room, Recorded bound (operand bound room)
    (depth ≤ room) operandStops (Relaxed.Operand depth)
  | depth + 4, room + 4 => by
    rw [operand, Relaxed.Operand]
    intro w e ds k h hk hb
    cases h with
    | @sign w operator e ds hsign he =>
      refine .behind (.accept? (by rcases hsign with h | h <;> simp [h, isSign])) ?_
      have h := operand_recorded (depth + 3) (room + 3) he hk (Nat.le_of_succ_le hb)
      exact (h.mono fun h ↦ by omega).last .pure
    | call he =>
      have hinner : Recorded bound (expression bound room) (depth + 4 ≤ room + 4)
          expressionStops (Relaxed.Expression depth) := fun w e ds k h hk hb ↦
        (expression_recorded depth room h hk hb).mono fun h ↦ by omega
      refine .behind (.accept?_none fun t ht ↦ ?_) ?_
      · obtain ⟨t', v, rfl, ht'⟩ := suffixed_begins primary_begins ⟨_, he⟩
        cases ht
        exact (by decide : ∀ kind ∈ primaryStarts, isSign kind = false) _ ht'
      · obtain ⟨n, -, hn⟩ :=
          suffixes_records (expression_begins depth) hinner (primary_recorded hinner) he hb
        rw [← List.append_nil ds]
        refine hn e [] k (.of_takes ?_)
        cases n with
        | zero => exact .pure
        | succ n =>
          unfold suffixes
          refine (Takes.accept?_none fun t ht ↦ ?_).bind .pure
          have h := hk t ht
          revert h
          generalize t.kind = kind
          cases kind <;> simp [operandStops, isSuffix]
  | depth + 4, 0 | depth + 4, 1 | depth + 4, 2 | depth + 4, 3 =>
    fun _ _ _ _ _ _ _ ↦ .tooDeep (by omega)
  | 0, _ | 1, _ | 2, _ | 3, _ => fun _ _ _ _ h ↦ h.elim

end

end Expressions

section Statements

variable {bound : Nat} {fits : Prop}

theorem sequence_size_le {kinds : List Kind} {G : Reading α} (hG : Starts kinds G.phrase)
    {w : List Token} {as : List α} {ds : List Diagnostic} (h : Relaxed.Sequence G w as ds) :
    as.length ≤ w.length := by
  induction h with
  | nil => exact Nat.le_refl _
  | cons h _ ih =>
    obtain ⟨t, v, rfl, -⟩ := hG ⟨_, h⟩
    simp only [List.length_append, List.length_cons]
    omega

theorem itemsUntil_recorded {item : Parse α} {G : Reading α} {close : Kind}
    {kinds stops : List Kind} (hG : Starts kinds G.phrase) (hclose : close ∉ kinds)
    (hstops : ∀ x ∈ kinds, x ∉ stops) (hp : Recorded bound item fits stops G) {w : List Token}
    {as : List α} {ds : List Diagnostic} (h : Relaxed.Sequence G w as ds) :
    ∀ {k : List Token} {t : Token} (done : Array α) {n : Nat}, t.kind = close →
      close ∉ stops → (w ++ t :: k).length ≤ bound → as.length ≤ n →
      Records (itemsUntil close item n done) fits (w ++ t :: k) (done ++ as.toArray) ds (t :: k) := by
  induction h with
  | nil =>
    intro k t done n ht _ _ _
    cases n with
    | zero => exact .pure
    | succ n =>
      unfold itemsUntil
      exact .of_takes (Takes.atEnd.bind ((Takes.check ht).bind .pure))
  | @cons w v a as ds ds' ha has ih =>
    intro k t done n ht hts hb hn
    simp only [List.length_cons] at hn
    obtain ⟨n, rfl⟩ : ∃ m, n = m + 1 := ⟨n - 1, by omega⟩
    rw [List.append_assoc] at hb ⊢
    unfold itemsUntil
    have hopen : Ends [close] (w ++ (v ++ t :: k)) :=
      hG.ends (fun x hx h ↦ hclose (by simp at h; exact h ▸ hx)) ⟨_, ha⟩
    have hempty : (w ++ (v ++ t :: k)).isEmpty = false := by simp
    refine .behind .atEnd (.behind (.check_false hopen) ?_)
    rw [hempty]
    have hends : Ends stops (v ++ t :: k) := by
      cases has with
      | nil => exact .cons (by rwa [ht])
      | cons h _ =>
        rw [List.append_assoc]
        exact hG.ends hstops ⟨_, h⟩
    refine (hp ha hends hb).bind ?_
    simp only [List.length_append, List.length_cons] at hb
    have h := ih (k := k) (done.push a) (n := n) ht hts
      (by simp only [List.length_append, List.length_cons]; omega) (by omega)
    simpa using h

theorem sequence_some {G : Reading α} {w : List Token} {as : List α} {ds : List Diagnostic}
    (h : Relaxed.Sequence G w as ds) :
    Relaxed.Sequence (fun w o ds ↦ ∃ a, o = some a ∧ G w a ds) w (as.map some) ds := by
  induction h with
  | nil => exact .nil
  | cons ha _ ih => exact .cons ⟨_, rfl, ha⟩ ih

def statementStarts : List Kind :=
  [.printWord, .returnWord, .forWord, .ifWord, .whileWord, .leftBrace] ++ expressionStarts

def declarationStarts : List Kind := [.classWord, .funWord, .varWord] ++ statementStarts

theorem statement_begins (depth : Nat) (dangling : Bool) :
    Starts statementStarts (Relaxed.Statement depth dangling).phrase := by
  rintro w s ⟨ds, h⟩
  match depth with
  | depth + 3 =>
    rw [Relaxed.Statement] at h
    cases h with
    | expression h =>
      obtain ⟨t, v, rfl, ht⟩ := expression_begins depth ⟨_, h⟩
      exact ⟨t, _, rfl, List.mem_append_right _ ht⟩
    | print hk | returns hk | returnsValue hk | block hk | ifThen hk | ifElse hk | loop hk
    | forLoop hk => exact ⟨_, _, rfl, by rw [hk]; decide⟩
  | 0 | 1 | 2 => exact h.elim

theorem declaration_begins (depth : Nat) :
    Starts declarationStarts (Relaxed.Declaration depth).phrase := by
  rintro w s ⟨ds, h⟩
  match depth with
  | depth + 4 =>
    rw [Relaxed.Declaration] at h
    cases h with
    | statement h =>
      obtain ⟨t, v, rfl, ht⟩ := statement_begins _ _ ⟨_, h⟩
      exact ⟨t, v, rfl, List.mem_append_right _ ht⟩
    | cls hk | function hk | declares hk => exact ⟨_, _, rfl, by rw [hk]; decide⟩
  | 0 | 1 | 2 | 3 => exact h.elim

variable {item : Parse (Option Stmt)} {G : Reading Stmt}

def RecordedItem (bound : Nat) (item : Parse (Option Stmt)) (fits : Prop) (G : Reading Stmt) : Prop :=
  Starts declarationStarts G.phrase ∧
    Recorded bound item fits [.elseWord] fun w o ds ↦ ∃ s, o = some s ∧ G w s ds

theorem block_recorded (hp : RecordedItem bound item fits G) :
    Recorded bound (block bound item) fits [] (Relaxed.Body G) := by
  intro w body ds k h _ hb
  cases h with
  | @close w body brace ds hbody hbrace =>
    have hG : Starts declarationStarts
        (Reading.phrase fun w o ds ↦ ∃ s : Stmt, o = some s ∧ G w s ds) :=
      fun w o ⟨_, s, _, hs⟩ ↦ hp.1 ⟨_, hs⟩
    have hlen := sequence_size_le hp.1 hbody
    simp only [List.append_assoc, List.cons_append, List.nil_append] at hb ⊢
    have hb' := hb
    simp only [List.length_append, List.length_cons] at hb'
    have h := itemsUntil_recorded hG (by decide) (by decide) hp.2 (sequence_some hbody) #[] (k := k)
      (n := bound) hbrace (by decide) hb (by simp only [List.length_map]; omega)
    refine h.last ((Takes.skip hbrace).bind ?_)
    simpa using Takes.pure

theorem function_recorded (what : Callable) (hp : RecordedItem bound item fits G) :
    Recorded bound (function bound what item) fits [] (Relaxed.Function G) := by
  have hname : Recorded bound (expect .identifier .parameterName) fits [] Relaxed.Name := by
    intro w t ds k h _ _
    cases h with
    | name h => exact .of_takes (.expect h)
  have hstarts : Starts [.identifier] Relaxed.Name.phrase := by
    rintro w t ⟨ds, h⟩
    cases h with
    | name h => exact ⟨_, _, rfl, by simp [h]⟩
  intro w d ds k h _ hb
  cases h with
  | @mk w v name opening paren brace params body ds ds' hname' hopening hparams hbrace hbody =>
    simp only [List.append_assoc, List.cons_append] at hb ⊢
    simp only [List.length_cons, List.length_append] at hb
    refine .behind (.expect hname') (.behind (.skip hopening) ?_)
    have hparams := parenthesised_recorded .tooManyParameters .parameterEnd
      hstarts (by decide) hname (by decide) (by decide) hparams (k := brace :: (v ++ k))
      nothing_ends (by simp only [List.length_cons, List.length_append]; omega)
    refine hparams.bind (.behind (.skip hbrace) ?_)
    exact (block_recorded hp hbody nothing_ends (by simp only [List.length_append]; omega)).last .pure

theorem function_begins : Starts [.identifier] (Reading.phrase (Relaxed.Function G)) := by
  rintro w d ⟨ds, h⟩
  cases h with
  | mk h => exact ⟨_, _, rfl, by simp [h]⟩

theorem classDeclaration_recorded (hp : RecordedItem bound item fits G) {w k : List Token}
    {name brace : Token} {methods : List FunDecl} {ds : List Diagnostic} (hname : name.kind = .identifier)
    (hbrace : brace.kind = .leftBrace) (h : Relaxed.Body (Relaxed.Function G) w methods ds)
    (hb : (w ++ k).length ≤ bound) :
    Records (classDeclaration bound item) fits (name :: brace :: (w ++ k)) (.cls name methods) ds k := by
  cases h with
  | @close w methods close ds hmethods hclose =>
    have hlen := sequence_size_le function_begins hmethods
    simp only [List.append_assoc, List.cons_append, List.nil_append] at hb ⊢
    have hb' := hb
    simp only [List.length_append, List.length_cons] at hb'
    refine .behind (.expect hname) (.behind (.skip hbrace) ?_)
    have h := itemsUntil_recorded function_begins (by decide) (by decide)
      (function_recorded .method hp) hmethods #[] (k := k) (n := bound) hclose (by decide) hb (by omega)
    refine h.last ((Takes.skip hclose).bind ?_)
    simpa using Takes.pure

variable {expression : Parse Expr} {E : Reading Expr}

theorem expression_records (he : Recorded bound expression fits expressionStops E) {w k : List Token}
    {e : Expr} {t : Token} {ds : List Diagnostic} (h : E w e ds)
    (ht : t.kind = .semicolon ∨ t.kind = .rightParen) (hb : (w ++ t :: k).length ≤ bound) :
    Records expression fits (w ++ t :: k) e ds (t :: k) :=
  he h (.cons (by rcases ht with ht | ht <;> rw [ht] <;> decide)) hb

theorem varDeclaration_recorded (he : Recorded bound expression fits expressionStops E) :
    Recorded bound (varDeclaration expression) fits [] (Relaxed.Variable E) := by
  intro w s ds k h _ hb
  cases h with
  | bare hname hsemicolon =>
    refine .of_takes ((Takes.expect hname).bind ?_)
    refine (Takes.accept_false (.cons (by rw [hsemicolon]; decide))).bind ?_
    exact Takes.pure.bind ((Takes.skip hsemicolon).bind .pure)
  | @initialized w name equals semicolon e ds hname hequals h hsemicolon =>
    simp only [List.append_assoc, List.cons_append, List.nil_append] at hb ⊢
    refine .behind (.expect hname) (.behind (.accept hequals) ?_)
    have h := expression_records he h (.inl hsemicolon) (Nat.le_of_succ_le (Nat.le_of_succ_le hb))
    exact h.map.last ((Takes.skip hsemicolon).bind .pure)

theorem expressionStatement_recorded (he : Recorded bound expression fits expressionStops E)
    {w k : List Token} {e : Expr} {semicolon : Token} {ds : List Diagnostic} (h : E w e ds)
    (hsemicolon : semicolon.kind = .semicolon) (hb : (w ++ semicolon :: k).length ≤ bound) :
    Records (expressionStatement expression) fits (w ++ semicolon :: k) (.expression e) ds k :=
  (expression_records he h (.inl hsemicolon) hb).last ((Takes.skip hsemicolon).bind .pure)

variable (hE : Starts expressionStarts E.phrase)

include hE

theorem forInitializer_recorded (he : Recorded bound expression fits expressionStops E) :
    Recorded bound (forInitializer expression) fits [] (Relaxed.Initializer E) := by
  intro w s ds k h _ hb
  cases h with
  | none hsemicolon => exact .of_takes ((Takes.accept hsemicolon).bind .pure)
  | @declares w keyword s ds hkeyword h =>
    refine .behind (.accept_false (.cons (by rw [hkeyword]; decide))) (.behind (.accept hkeyword) ?_)
    exact varDeclaration_recorded he h nothing_ends (Nat.le_of_succ_le hb)
  | @expression w semicolon e ds h hsemicolon =>
    simp only [List.append_assoc, List.cons_append, List.nil_append] at hb ⊢
    refine .behind (.accept_false (hE.ends (by decide) ⟨_, h⟩)) ?_
    refine .behind (.accept_false (hE.ends (by decide) ⟨_, h⟩)) ?_
    exact expressionStatement_recorded he h hsemicolon hb

theorem forCondition_recorded (he : Recorded bound expression fits expressionStops E) :
    Recorded bound (forCondition expression) fits [] (Relaxed.Condition E) := by
  intro w e ds k h _ hb
  cases h with
  | none hsemicolon =>
    exact .of_takes ((Takes.check hsemicolon).bind (Takes.pure.bind ((Takes.skip hsemicolon).bind .pure)))
  | @some w semicolon e ds h hsemicolon =>
    simp only [List.append_assoc, List.cons_append, List.nil_append] at hb ⊢
    refine .behind (.check_false (hE.ends (by decide) ⟨_, h⟩)) ?_
    exact (expression_records he h (.inl hsemicolon) hb).last ((Takes.skip hsemicolon).bind .pure)

theorem forIncrement_recorded (he : Recorded bound expression fits expressionStops E) :
    Recorded bound (forIncrement expression) fits [] (Relaxed.Increment E) := by
  intro w s ds k h _ hb
  cases h with
  | none hparen =>
    exact .of_takes ((Takes.check hparen).bind (Takes.pure.bind ((Takes.skip hparen).bind .pure)))
  | @some w paren e ds h hparen =>
    simp only [List.append_assoc, List.cons_append, List.nil_append] at hb ⊢
    refine .behind (.check_false (hE.ends (by decide) ⟨_, h⟩)) ?_
    exact (expression_records he h (.inr hparen) hb).map.last ((Takes.skip hparen).bind .pure)

omit hE

def RecordedStatement (bound : Nat) (p : Parse Stmt) (fits : Prop) (S : Bool → Reading Stmt) :
    Prop :=
  ∀ ⦃w s ds k dangling⦄, S dangling w s ds → (dangling = true → Ends [.elseWord] k) →
    (w ++ k).length ≤ bound → Records p fits (w ++ k) s ds k

variable {statement : Parse Stmt} {S : Bool → Reading Stmt}

theorem plainStatement_recorded (hE : Starts expressionStarts E.phrase)
    (he : Recorded bound expression fits expressionStops E)
    (hs : RecordedStatement bound statement fits S) (hi : RecordedItem bound item fits G) :
    RecordedStatement bound (plainStatement bound expression statement item) fits
      (Relaxed.Undeclared E S G) := by
  intro w s ds k dangling h hk hb
  cases h with
  | @expression w semicolon e ds h hsemicolon =>
    simp only [List.append_assoc, List.cons_append, List.nil_append] at hb ⊢
    refine .behind (.accept?_none fun t ht ↦ ?_) (expressionStatement_recorded he h hsemicolon hb)
    obtain ⟨t', v, rfl, ht'⟩ := hE ⟨_, h⟩
    cases ht
    exact (by decide : ∀ kind ∈ expressionStarts, opensStatement kind = false) _ ht'
  | @print w keyword semicolon e ds hkeyword h hsemicolon =>
    simp only [List.append_assoc, List.cons_append, List.nil_append] at hb ⊢
    refine .behind (.accept? (by rw [hkeyword]; rfl)) ?_
    simp only [hkeyword]
    have h := expression_records he h (.inl hsemicolon) (Nat.le_of_succ_le hb)
    exact h.last ((Takes.skip hsemicolon).bind .pure)
  | returns hkeyword hsemicolon =>
    refine .behind (.accept? (by rw [hkeyword]; rfl)) ?_
    simp only [hkeyword]
    exact .of_takes ((Takes.check hsemicolon).bind (Takes.pure.bind ((Takes.skip hsemicolon).bind .pure)))
  | @returnsValue w keyword semicolon e ds hkeyword h hsemicolon =>
    simp only [List.append_assoc, List.cons_append, List.nil_append] at hb ⊢
    refine .behind (.accept? (by rw [hkeyword]; rfl)) ?_
    simp only [hkeyword]
    refine .behind (.check_false (hE.ends (by decide) ⟨_, h⟩)) ?_
    have h := expression_records he h (.inl hsemicolon) (Nat.le_of_succ_le hb)
    exact h.map.last ((Takes.skip hsemicolon).bind .pure)
  | @block w brace body ds hbrace hbody =>
    refine .behind (.accept? (by rw [hbrace]; rfl)) ?_
    simp only [hbrace]
    exact (block_recorded hi hbody nothing_ends (Nat.le_of_succ_le hb)).last .pure
  | @ifThen w v keyword opening paren c yes dangling ds ds' hkeyword hopening hc hparen hyes =>
    simp only [List.append_assoc, List.cons_append] at hb ⊢
    have hb' := hb
    simp only [List.length_cons, List.length_append] at hb'
    refine .behind (.accept? (by rw [hkeyword]; rfl)) ?_
    simp only [hkeyword]
    refine .behind (.skip hopening) ?_
    refine (expression_records he hc (.inr hparen) (Nat.le_of_succ_le (Nat.le_of_succ_le hb))).bind ?_
    refine .behind (.skip hparen) ?_
    refine (hs hyes (fun _ ↦ hk rfl) (by simp only [List.length_append]; omega)).last ?_
    exact (Takes.accept_false (hk rfl)).bind (Takes.pure.bind .pure)
  | @ifElse w v u keyword opening paren otherwise c yes no dangling ds ds' ds'' hkeyword hopening hc
      hparen hyes helse hno =>
    simp only [List.append_assoc, List.cons_append] at hb ⊢
    have hb' := hb
    simp only [List.length_cons, List.length_append] at hb'
    refine .behind (.accept? (by rw [hkeyword]; rfl)) ?_
    simp only [hkeyword]
    refine .behind (.skip hopening) ?_
    refine (expression_records he hc (.inr hparen) (Nat.le_of_succ_le (Nat.le_of_succ_le hb))).bind ?_
    refine .behind (.skip hparen) ?_
    refine (hs hyes (fun h ↦ (by cases h))
      (by simp only [List.length_append, List.length_cons]; omega)).bind ?_
    refine .behind (.accept helse) ?_
    exact (hs hno hk (by simp only [List.length_append]; omega)).map.last .pure
  | @loop w v keyword opening paren c body dangling ds ds' hkeyword hopening hc hparen hbody =>
    simp only [List.append_assoc, List.cons_append] at hb ⊢
    have hb' := hb
    simp only [List.length_cons, List.length_append] at hb'
    refine .behind (.accept? (by rw [hkeyword]; rfl)) ?_
    simp only [hkeyword]
    refine .behind (.skip hopening) ?_
    refine (expression_records he hc (.inr hparen) (Nat.le_of_succ_le (Nat.le_of_succ_le hb))).bind ?_
    refine .behind (.skip hparen) ?_
    exact (hs hbody hk (by simp only [List.length_append]; omega)).last .pure
  | @forLoop w v u x keyword opening initial increment body c dangling ds ds' ds'' dx hkeyword hopening
      hinitial hcondition hincrement hbody =>
    simp only [List.append_assoc, List.cons_append] at hb ⊢
    simp only [List.length_cons, List.length_append] at hb
    refine .behind (.accept? (by rw [hkeyword]; rfl)) ?_
    simp only [hkeyword]
    refine .behind (.skip hopening) ?_
    refine (forInitializer_recorded hE he hinitial nothing_ends
      (by simp only [List.length_append]; omega)).bind ?_
    refine (forCondition_recorded hE he hcondition nothing_ends
      (by simp only [List.length_append]; omega)).bind ?_
    refine (forIncrement_recorded hE he hincrement nothing_ends
      (by simp only [List.length_append]; omega)).bind ?_
    exact (hs hbody hk (by simp only [List.length_append]; omega)).last .pure

theorem declared_recorded {functionItem methodItem : Parse (Option Stmt)} {F M : Reading Stmt}
    (hS : ∀ dangling, Starts statementStarts (S dangling).phrase)
    (he : Recorded bound expression fits expressionStops E)
    (hs : RecordedStatement bound statement fits S) (hf : RecordedItem bound functionItem fits F)
    (hm : RecordedItem bound methodItem fits M) :
    Recorded bound (declared bound expression statement functionItem methodItem) fits [.elseWord]
      (Relaxed.Declared E S F M) := by
  intro w s ds k h hk hb
  cases h with
  | @cls w keyword name brace methods ds hkeyword hname hbrace h =>
    refine .behind (.accept? (by rw [hkeyword]; rfl)) ?_
    simp only [hkeyword]
    simp only [List.cons_append, List.length_cons] at hb
    exact classDeclaration_recorded hm hname hbrace h (by omega)
  | @function w keyword d ds hkeyword h =>
    refine .behind (.accept? (by rw [hkeyword]; rfl)) ?_
    simp only [hkeyword]
    exact (function_recorded _ hf h nothing_ends (Nat.le_of_succ_le hb)).map
  | @declares w keyword s ds hkeyword h =>
    refine .behind (.accept? (by rw [hkeyword]; rfl)) ?_
    simp only [hkeyword]
    exact varDeclaration_recorded he h nothing_ends (Nat.le_of_succ_le hb)
  | statement h =>
    refine .behind (.accept?_none fun t ht ↦ ?_) (hs h (fun _ ↦ hk) hb)
    obtain ⟨t', v, rfl, ht'⟩ := hS _ ⟨_, h⟩
    cases ht
    exact (by decide : ∀ kind ∈ statementStarts, opensDeclaration kind = false) _ ht'

mutual

theorem statement_recorded : ∀ depth room,
    RecordedStatement bound (Parse.statement bound room) (depth ≤ room) (Relaxed.Statement depth)
  | depth + 3, room + 3 => by
    rw [Parse.statement, Relaxed.Statement]
    refine plainStatement_recorded (expression_begins depth) ?_ ?_
      ⟨declaration_begins (depth + 1), ?_⟩
    · exact fun w e ds k h hk hb ↦
        (expression_recorded depth room h hk hb).mono fun h ↦ by omega
    · exact fun w s ds k dangling h hk hb ↦
        (statement_recorded (depth + 1) (room + 1) h hk hb).mono fun h ↦ by omega
    · exact fun w o ds k h hk hb ↦
        (declaration_recorded (depth + 1) (room + 1) h hk hb).mono fun h ↦ by omega
  | depth + 3, 0 | depth + 3, 1 | depth + 3, 2 => fun _ _ _ _ _ _ _ _ ↦ .tooDeep (by omega)
  | 0, _ | 1, _ | 2, _ => fun _ _ _ _ _ h ↦ h.elim

theorem declaration_recorded : ∀ depth room, Recorded bound (declaration bound room)
    (depth ≤ room) [.elseWord] fun w o ds ↦ ∃ s, o = some s ∧ Relaxed.Declaration depth w s ds
  | depth + 4, room + 4 => by
    rw [Parse.declaration, Relaxed.Declaration]
    rintro w _ ds k ⟨s, rfl, h⟩ hk hb
    refine (declared_recorded (statement_begins (depth + 3)) ?_ ?_
      ⟨declaration_begins (depth + 1), ?_⟩ ⟨declaration_begins depth, ?_⟩ h hk hb).recovering
    · exact fun w e ds k h hk hb ↦
        (expression_recorded (depth + 1) (room + 1) h hk hb).mono fun h ↦ by omega
    · exact fun w s ds k dangling h hk hb ↦
        (statement_recorded (depth + 3) (room + 3) h hk hb).mono fun h ↦ by omega
    · exact fun w o ds k h hk hb ↦
        (declaration_recorded (depth + 1) (room + 1) h hk hb).mono fun h ↦ by omega
    · exact fun w o ds k h hk hb ↦
        (declaration_recorded depth room h hk hb).mono fun h ↦ by omega
  | depth + 4, 0 | depth + 4, 1 | depth + 4, 2 | depth + 4, 3 =>
    fun _ _ _ _ _ _ _ ↦ .tooDeep (by omega)
  | 0, _ | 1, _ | 2, _ | 3, _ => fun _ _ _ _ ⟨_, _, h⟩ ↦ h.elim

end

def nests (d : Diagnostic) : Prop := d.complaint = .nestingTooDeep

/-- What is derived is read up to the end with the complaints in it, or there is a complaint that it nests too
deep, which there is not if it fits. -/
theorem declarations_recorded (room : Nat) (last : Token) {depth : Nat} {w : List Token} {ss : List Stmt}
    {ds : List Diagnostic} (h : Relaxed.Sequence (Relaxed.Declaration depth) w ss ds) :
    ∀ (rounds : Nat) (done : Array Stmt) (faults : Array Diagnostic), w.length ≤ bound →
      ss.length ≤ rounds →
      declarations bound room rounds done ⟨w, last, faults⟩ =
          (done ++ ss.toArray, ⟨[], last, faults ++ ds.toArray⟩) ∨
        ¬depth ≤ room ∧ ∃ d ∈ (declarations bound room rounds done ⟨w, last, faults⟩).2.faults,
          nests d := by
  induction h with
  | nil =>
    intro rounds done faults _ _
    cases rounds <;> exact .inl (by simp [declarations])
  | @cons w v s ss ds ds' hs hss ih =>
    intro rounds done faults hb hr
    simp only [List.length_cons] at hr
    obtain ⟨rounds, rfl⟩ : ∃ m, rounds = m + 1 := ⟨rounds - 1, by omega⟩
    obtain ⟨t, u, rfl, -⟩ := declaration_begins depth ⟨_, hs⟩
    have hends : Ends [.elseWord] v := by
      cases hss with
      | nil => exact .nil
      | cons h _ => exact (declaration_begins depth).ends (by decide) ⟨_, h⟩
    have hread := declaration_recorded depth room ⟨s, rfl, hs⟩ hends hb last faults
    simp only [List.length_append, List.length_cons] at hb
    unfold declarations
    rw [if_neg (by simp)]
    rcases hread with h | ⟨hfits, c, h⟩
    · have hrest := ih rounds (done.push s) (faults ++ ds.toArray) (by omega) (by omega)
      simp only [h]
      simpa using hrest
    · refine .inr ⟨hfits, .atToken c.peek .nestingTooDeep, ?_, rfl⟩
      simp only [h]
      have hkeeps := declarations_keeps bound room rounds done
        ⟨afterMistake c.rest, c.last, c.faults.push (.atToken c.peek .nestingTooDeep)⟩
      exact Array.mem_toList_iff.mp (hkeeps.subset (by simp))

end Statements

end TreeWalk.Parse
