import TreeWalk.Proofs.Grammar.Local
import TreeWalk.Proofs.Tree.OfWords

namespace TreeWalk.Parse

variable {α β : Type} {T : Token → Prop}

def Cursor.Holds (T : Token → Prop) (c : Cursor) : Prop := ∀ t ∈ c.rest, T t

/-- From words with a property comes a result with another, and the words left keep theirs, however the reading
ends. -/
structure Gives (T : Token → Prop) (p : Parse α) (P : α → Prop) : Prop where
  ok : ∀ {c a c'}, p c = .ok a c' → c.Holds T → P a ∧ c'.Holds T
  error : ∀ {c e c'}, p c = .error e c' → c.Holds T → c'.Holds T

namespace Gives

variable {p : Parse α} {P : α → Prop} {R : β → Prop}

theorem pure {a : α} (h : P a) : Gives T (pure a) P := by
  refine ⟨fun ho hc ↦ ?_, fun he _ ↦ ?_⟩
  · cases ho
    exact ⟨h, hc⟩
  · cases he

theorem throw {stop : Stop} : Gives T (throw stop : Parse α) P := by
  refine ⟨fun ho _ ↦ ?_, fun he hc ↦ ?_⟩
  · cases ho
  · cases he
    exact hc

theorem bind {f : α → Parse β} (hp : Gives T p P) (hf : ∀ a, P a → Gives T (f a) R) :
    Gives T (p >>= f) R := by
  constructor
  · intro c b c' h hc
    obtain ⟨a, c₁, ha, hb⟩ := bind_eq_ok.mp h
    obtain ⟨hP, hc₁⟩ := hp.ok ha hc
    exact (hf a hP).ok hb hc₁
  · intro c e c' h hc
    rcases bind_eq_error.mp h with h | ⟨a, c₁, ha, hb⟩
    · exact hp.error h hc
    · obtain ⟨hP, hc₁⟩ := hp.ok ha hc
      exact (hf a hP).error hb hc₁

theorem map {f : α → β} (hp : Gives T p P) (h : ∀ a, P a → R (f a)) : Gives T (f <$> p) R := by
  have he : f <$> p = p >>= fun a ↦ Pure.pure (f a) := (bind_pure_comp f p).symm
  rw [he]
  exact hp.bind fun a ha ↦ .pure (h a ha)

theorem step {f : Cursor → α} {g : Cursor → Cursor} (h : ∀ c, p c = .ok (f c) (g c))
    (hg : ∀ c, (g c).rest = c.rest) : Gives T p fun _ ↦ True := by
  refine ⟨fun {c a c'} ho hc ↦ ?_, fun {c e c'} he _ ↦ ?_⟩
  · rw [h] at ho
    cases ho
    exact ⟨trivial, by rwa [Cursor.Holds, hg]⟩
  · rw [h] at he
    cases he

theorem complain {t : Token} {what : Complaint} : Gives T (complain t what) fun _ ↦ True :=
  step (fun _ ↦ rfl) fun _ ↦ rfl

theorem peek : Gives T peek fun _ ↦ True := step (fun _ ↦ rfl) fun _ ↦ rfl

theorem check {kind : Kind} : Gives T (check kind) fun _ ↦ True := step (fun _ ↦ rfl) fun _ ↦ rfl

theorem atEnd : Gives T atEnd fun _ ↦ True := step (fun _ ↦ rfl) fun _ ↦ rfl

theorem fail {what : Missing} : Gives T (fail what : Parse α) P :=
  peek.bind fun _ _ ↦ complain.bind fun _ _ ↦ throw

theorem accept? {wanted : Kind → Bool} :
    Gives T (accept? wanted) fun o ↦ ∀ t ∈ o, t.Is T wanted := by
  have hstay {c : Cursor} (hc : c.Holds T) : (∀ t ∈ (none : Option Token), t.Is T wanted) ∧ c.Holds T :=
    ⟨by simp, hc⟩
  constructor
  · intro c o c' h hc
    unfold Parse.accept? at h
    split at h
    · next t rest hrest =>
      obtain ⟨ht, hleft⟩ := List.forall_mem_cons.mp (hrest ▸ hc : ∀ u ∈ t :: rest, T u)
      split at h
      · next hw =>
        cases h
        exact ⟨by simpa using ⟨ht, hw⟩, hleft⟩
      · cases h
        exact hstay hc
    · cases h
      exact hstay hc
  · intro c e c' h
    unfold Parse.accept? at h
    split at h
    · split at h <;> cases h
    · cases h

theorem accept {kind : Kind} : Gives T (accept kind) fun _ ↦ True :=
  accept?.bind fun _ _ ↦ .pure trivial

theorem expect {kind : Kind} {what : Missing} :
    Gives T (expect kind what) fun t ↦ t.Is T (· == kind) := by
  refine accept?.bind fun o ho ↦ ?_
  cases o with
  | none => exact fail
  | some t => exact .pure (ho t rfl)

theorem skip {kind : Kind} {what : Missing} :
    Gives T (discard (Parse.expect kind what)) fun _ ↦ True :=
  expect.map fun _ _ ↦ trivial

theorem afterMistake_holds {c : Cursor} (hc : c.Holds T) : ∀ t ∈ afterMistake c.rest, T t := by
  unfold afterMistake
  split
  · simp
  · next t rest hrest => exact fun u hu ↦ hc u (hrest ▸ .tail _ ((resume_suffix t rest).subset hu))

theorem recovering (hp : Gives T p P) : Gives T (recovering p) fun o ↦ ∀ a ∈ o, P a := by
  constructor
  · intro c o c' h hc
    unfold Parse.recovering at h
    split at h
    · next ho =>
      cases h
      obtain ⟨hP, hc'⟩ := hp.ok ho hc
      exact ⟨by simpa using hP, hc'⟩
    · next he =>
      cases h
      exact ⟨by simp, afterMistake_holds (hp.error he hc)⟩
    · cases h
  · intro c e c' h hc
    unfold Parse.recovering at h
    split at h
    · cases h
    · cases h
    · next he =>
      cases h
      exact hp.error he hc

end Gives

section Expressions

variable {bound : Nat}

theorem joined_gives {operators : Kind → Bool} {join : Expr → Token → Expr → Expr} {operand : Parse Expr}
    (hjoin : ∀ l t r, Expr.OfWords T l → t.Is T operators → Expr.OfWords T r → (join l t r).OfWords T)
    (hp : Gives T operand (Expr.OfWords T)) (n : Nat) {left : Expr} (hl : left.OfWords T) :
    Gives T (joined operators join operand n left) (Expr.OfWords T) := by
  induction n generalizing left with
  | zero => exact .pure hl
  | succ n ih =>
    unfold joined
    refine Gives.accept?.bind fun o ho ↦ ?_
    cases o with
    | none => exact .pure hl
    | some t => exact hp.bind fun r hr ↦ ih (hjoin _ _ _ hl (ho t rfl) hr)

theorem leftAssociative_gives {operators : Kind → Bool} {join : Expr → Token → Expr → Expr}
    {operand : Parse Expr}
    (hjoin : ∀ l t r, Expr.OfWords T l → t.Is T operators → Expr.OfWords T r → (join l t r).OfWords T)
    (hp : Gives T operand (Expr.OfWords T)) :
    Gives T (leftAssociative bound operators join operand) (Expr.OfWords T) :=
  hp.bind fun _ hl ↦ joined_gives hjoin hp bound hl

theorem operation_gives {operand : Parse Expr} (hp : Gives T operand (Expr.OfWords T)) :
    Gives T (operation bound operand) (Expr.OfWords T) := by
  have hlogical {operators : Kind → Bool} (h : ∀ k, operators k = true → isLogical k = true)
      (l : Expr) (t : Token) (r : Expr) (hl : l.OfWords T) (ht : t.Is T operators) (hr : r.OfWords T) :
      (Expr.logical l t r).OfWords T := .logical hl ⟨ht.word, h _ ht.kind⟩ hr
  have hbinary {operators : Kind → Bool} (h : ∀ k, operators k = true → isBinary k = true)
      (l : Expr) (t : Token) (r : Expr) (hl : l.OfWords T) (ht : t.Is T operators) (hr : r.OfWords T) :
      (Expr.binary l t r).OfWords T := .binary hl ⟨ht.word, h _ ht.kind⟩ hr
  apply leftAssociative_gives (hlogical fun k h ↦ by simp [isLogical, h])
  apply leftAssociative_gives (hlogical fun k h ↦ by simp [isLogical, h])
  apply leftAssociative_gives (hbinary fun k h ↦ by simp [isBinary, h])
  apply leftAssociative_gives (hbinary fun k h ↦ by simp [isBinary, h])
  apply leftAssociative_gives (hbinary fun k h ↦ by simp [isBinary, h])
  exact leftAssociative_gives (hbinary fun k h ↦ by simp [isBinary, h]) hp

theorem assignment_gives {operand value : Parse Expr} (hp : Gives T operand (Expr.OfWords T))
    (hv : Gives T value (Expr.OfWords T)) : Gives T (assignment bound operand value) (Expr.OfWords T) := by
  refine (operation_gives hp).bind fun target ht ↦ Gives.accept?.bind fun o _ ↦ ?_
  cases o with
  | none => exact .pure ht
  | some equals =>
    refine hv.bind fun v hv ↦ ?_
    split
    · cases ht with
      | var hname => exact .pure (.assign hname hv)
    · cases ht with
      | get ho hname => exact .pure (.set ho hname hv)
    · exact Gives.complain.bind fun _ _ ↦ .pure ht

theorem primary_gives {inner : Parse Expr} (hp : Gives T inner (Expr.OfWords T)) :
    Gives T (primary inner) (Expr.OfWords T) := by
  refine Gives.accept?.bind fun o ho ↦ ?_
  cases o with
  | none => exact .fail
  | some t =>
    obtain ⟨hword, hkind⟩ := ho t rfl
    have is {kind : Kind} (h : t.kind = kind) : t.Is T (· == kind) := ⟨hword, by simp [h]⟩
    dsimp only
    split
    · exact .pure (.literal .bool)
    · exact .pure (.literal .bool)
    · exact .pure (.literal .nil)
    · exact .pure (.self (is ‹_›))
    · exact .pure (.var (is ‹_›))
    · exact hp.bind fun e he ↦ Gives.skip.bind fun _ _ ↦ .pure (.group he)
    · exact .pure (.literal (.value ⟨hword, by cases hk : t.kind <;> simp_all [isPrimary, isValue]⟩))

variable {P : α → Prop}

theorem commaItems_gives {item : Parse α} {tooMany : Complaint} (hp : Gives T item P) (n : Nat)
    {done : Array α} (hdone : ∀ a ∈ done, P a) :
    Gives T (commaItems tooMany item n done) fun as ↦ ∀ a ∈ as, P a := by
  induction n generalizing done with
  | zero => exact .pure hdone
  | succ n ih =>
    have hrest : Gives T (item >>= fun a ↦ accept .comma >>= fun more ↦
        if more then commaItems tooMany item n (done.push a) else pure (done.push a))
        fun as ↦ ∀ a ∈ as, P a := by
      refine hp.bind fun a ha ↦ Gives.accept.bind fun more _ ↦ ?_
      have hpush : ∀ b ∈ done.push a, P b := fun b hb ↦
        (Array.mem_push.mp hb).elim (hdone b) fun h ↦ h ▸ ha
      split
      · exact ih hpush
      · exact .pure hpush
    unfold commaItems
    split
    · exact Gives.peek.bind fun _ _ ↦ Gives.complain.bind fun _ _ ↦ hrest
    · exact hrest

theorem parenthesised_gives {item : Parse α} {tooMany : Complaint} {close : Missing}
    (hp : Gives T item P) : Gives T (parenthesised tooMany close item bound)
      fun r ↦ (∀ a ∈ r.1, P a) ∧ r.2.Is T (· == .rightParen) := by
  refine Gives.check.bind fun none _ ↦ ?_
  have hclose {as : Array α} (has : ∀ a ∈ as, P a) :
      Gives T (expect .rightParen close >>= fun paren ↦ pure (as.toList, paren))
        fun r ↦ (∀ a ∈ r.1, P a) ∧ r.2.Is T (· == .rightParen) :=
    Gives.expect.bind fun paren hparen ↦ .pure ⟨by simpa using has, hparen⟩
  cases none with
  | true =>
    have hnone : ∀ a ∈ (#[] : Array α), P a := by simp
    exact hclose hnone
  | false => exact (commaItems_gives hp bound (by simp)).bind fun as has ↦ hclose has

theorem suffixes_gives {argument : Parse Expr} (ha : Gives T argument (Expr.OfWords T)) (steps : Nat)
    {e : Expr} (he : e.OfWords T) : Gives T (suffixes bound argument steps e) (Expr.OfWords T) := by
  induction steps generalizing e with
  | zero => exact .pure he
  | succ steps ih =>
    unfold suffixes
    refine Gives.accept?.bind fun o _ ↦ ?_
    cases o with
    | none => exact .pure he
    | some t =>
      dsimp only
      split
      · exact Gives.expect.bind fun name hname ↦ ih (.get he hname)
      · exact (parenthesised_gives ha).bind fun r hr ↦ ih (.call he hr.2 hr.1)

mutual

theorem expression_gives : ∀ room, Gives T (expression bound room) (Expr.OfWords T)
  | room + 7 => by
    rw [expression]
    exact assignment_gives (operand_gives room) (expression_gives (room + 6))
  | 0 | 1 | 2 | 3 | 4 | 5 | 6 => .throw

theorem operand_gives : ∀ room, Gives T (operand bound room) (Expr.OfWords T)
  | room + 4 => by
    rw [operand]
    refine Gives.accept?.bind fun o ho ↦ ?_
    cases o with
    | none =>
      exact (primary_gives (expression_gives room)).bind fun e he ↦
        suffixes_gives (expression_gives room) bound he
    | some t => exact (operand_gives (room + 3)).bind fun e he ↦ .pure (.unary (ho t rfl) he)
  | 0 | 1 | 2 | 3 => .throw

end

end Expressions

section Statements

variable {bound : Nat} {item : Parse (Option Stmt)} {expression : Parse Expr} {statement : Parse Stmt}
  {P : α → Prop}

abbrev GivesItem (T : Token → Prop) (item : Parse (Option Stmt)) : Prop :=
  Gives T item fun o ↦ ∀ s ∈ o, s.OfWords T

theorem itemsUntil_gives {close : Kind} {item : Parse α} (hp : Gives T item P) (n : Nat) {done : Array α}
    (hdone : ∀ a ∈ done, P a) : Gives T (itemsUntil close item n done) fun as ↦ ∀ a ∈ as, P a := by
  induction n generalizing done with
  | zero => exact .pure hdone
  | succ n ih =>
    unfold itemsUntil
    refine Gives.atEnd.bind fun ended _ ↦ Gives.check.bind fun closed _ ↦ ?_
    split
    · exact .pure hdone
    · exact hp.bind fun a ha ↦ ih fun b hb ↦ (Array.mem_push.mp hb).elim (hdone b) fun h ↦ h ▸ ha

theorem block_gives (hi : GivesItem T item) :
    Gives T (block bound item) fun body ↦ ∀ s ∈ body, s.OfWords T := by
  refine (itemsUntil_gives hi bound (by simp)).bind fun body hbody ↦ Gives.skip.bind fun _ _ ↦ .pure ?_
  intro s hs
  obtain ⟨o, ho, hos⟩ := List.mem_filterMap.mp hs
  exact hbody o (by simpa using ho) s (by simpa using hos)

theorem function_gives {what : Callable} (hi : GivesItem T item) :
    Gives T (function bound what item) fun d ↦ d.OfWords T := by
  refine Gives.expect.bind fun name hname ↦ Gives.skip.bind fun _ _ ↦
    (parenthesised_gives Gives.expect).bind fun r hr ↦ Gives.skip.bind fun _ _ ↦
    (block_gives hi).bind fun body hbody ↦ .pure ?_
  exact ⟨hname, hr.1, hbody⟩

theorem classDeclaration_gives (hi : GivesItem T item) :
    Gives T (classDeclaration bound item) (Stmt.OfWords T) := by
  refine Gives.expect.bind fun name hname ↦ Gives.skip.bind fun _ _ ↦
    (itemsUntil_gives (function_gives hi) bound (by simp)).bind fun methods hmethods ↦
    Gives.skip.bind fun _ _ ↦ .pure ?_
  have hall : ∀ d ∈ methods.toList, d.OfWords T := by simpa using hmethods
  exact .cls hname (fun d hd ↦ (hall d hd).name) (fun d hd ↦ (hall d hd).params) fun d hd ↦ (hall d hd).body

variable (he : Gives T expression (Expr.OfWords T))
include he

theorem some_gives : Gives T (some <$> expression) fun o ↦ ∀ e ∈ o, e.OfWords T :=
  he.map fun e h ↦ by simpa using h

theorem varDeclaration_gives : Gives T (varDeclaration expression) (Stmt.OfWords T) := by
  refine Gives.expect.bind fun name hname ↦ Gives.accept.bind fun initialized _ ↦ ?_
  have hrest {o : Option Expr} (ho : ∀ e ∈ o, e.OfWords T) :
      Gives T (discard (expect .semicolon .variableEnd) >>= fun _ ↦ pure (Stmt.var name o))
        (Stmt.OfWords T) := Gives.skip.bind fun _ _ ↦ .pure (.var hname ho)
  cases initialized with
  | true => exact (some_gives he).bind fun _ ho ↦ hrest ho
  | false => exact hrest (by simp)

theorem expressionStatement_gives : Gives T (expressionStatement expression) (Stmt.OfWords T) :=
  he.bind fun _ he ↦ Gives.skip.bind fun _ _ ↦ .pure (.expression he)

theorem printStatement_gives : Gives T (printStatement expression) (Stmt.OfWords T) :=
  he.bind fun _ he ↦ Gives.skip.bind fun _ _ ↦ .pure (.print he)

theorem returnStatement_gives {keyword : Token} (hk : keyword.Is T (· == .returnWord)) :
    Gives T (returnStatement keyword expression) (Stmt.OfWords T) := by
  refine Gives.check.bind fun bare _ ↦ ?_
  have hrest {o : Option Expr} (ho : ∀ e ∈ o, e.OfWords T) :
      Gives T (discard (expect .semicolon .returnEnd) >>= fun _ ↦ pure (Stmt.returns keyword o))
        (Stmt.OfWords T) := Gives.skip.bind fun _ _ ↦ .pure (.returns hk ho)
  cases bare with
  | true => exact hrest (by simp)
  | false => exact (some_gives he).bind fun _ ho ↦ hrest ho

theorem forInitializer_gives : Gives T (forInitializer expression) (Stmt.OfWords T) := by
  refine Gives.accept.bind fun none _ ↦ ?_
  split
  · exact .pure .empty
  · refine Gives.accept.bind fun declares _ ↦ ?_
    split
    · exact varDeclaration_gives he
    · exact expressionStatement_gives he

theorem forCondition_gives : Gives T (forCondition expression) (Expr.OfWords T) := by
  refine Gives.check.bind fun none _ ↦ ?_
  have hrest {c : Expr} (hc : c.OfWords T) :
      Gives T (discard (expect .semicolon .loopConditionEnd) >>= fun _ ↦ pure c) (Expr.OfWords T) :=
    Gives.skip.bind fun _ _ ↦ .pure hc
  cases none with
  | true => exact hrest (.literal .bool)
  | false => exact he.bind fun _ hc ↦ hrest hc

theorem forIncrement_gives : Gives T (forIncrement expression) (Stmt.OfWords T) := by
  refine Gives.check.bind fun none _ ↦ ?_
  have hrest {s : Stmt} (hs : s.OfWords T) :
      Gives T (discard (expect .rightParen .forHeaderEnd) >>= fun _ ↦ pure s) (Stmt.OfWords T) :=
    Gives.skip.bind fun _ _ ↦ .pure hs
  cases none with
  | true => exact hrest .empty
  | false => exact (he.map (R := Stmt.OfWords T) fun _ h ↦ .expression h).bind fun _ hs ↦ hrest hs

variable (hs : Gives T statement (Stmt.OfWords T))
include hs

theorem ifStatement_gives : Gives T (ifStatement expression statement) (Stmt.OfWords T) := by
  refine Gives.skip.bind fun _ _ ↦ he.bind fun c hc ↦ Gives.skip.bind fun _ _ ↦
    hs.bind fun yes hyes ↦ Gives.accept.bind fun otherwise _ ↦ ?_
  cases otherwise with
  | true =>
    exact (hs.map (R := fun o ↦ ∀ s ∈ o, s.OfWords T) fun s h ↦ by simpa using h).bind fun no hno ↦
      .pure (.branch hc hyes hno)
  | false => exact .pure (.branch hc hyes (by simp))

theorem whileStatement_gives : Gives T (whileStatement expression statement) (Stmt.OfWords T) :=
  Gives.skip.bind fun _ _ ↦ he.bind fun _ hc ↦ Gives.skip.bind fun _ _ ↦
    hs.bind fun _ hbody ↦ .pure (.loop hc hbody)

theorem forStatement_gives : Gives T (forStatement expression statement) (Stmt.OfWords T) := by
  refine Gives.skip.bind fun _ _ ↦ (forInitializer_gives he).bind fun initializer hi ↦
    (forCondition_gives he).bind fun condition hc ↦ (forIncrement_gives he).bind fun increment hn ↦
    hs.bind fun body hbody ↦ .pure ?_
  have hround : (Stmt.block [body, increment]).OfWords T := .block (by simpa using ⟨hbody, hn⟩)
  exact .block (by simpa using ⟨hi, .loop hc hround⟩)

theorem plainStatement_gives (hi : GivesItem T item) :
    Gives T (plainStatement bound expression statement item) (Stmt.OfWords T) := by
  refine Gives.accept?.bind fun o ho ↦ ?_
  cases o with
  | none => exact expressionStatement_gives he
  | some keyword =>
    dsimp only
    split
    · exact printStatement_gives he
    · next hk => exact returnStatement_gives he ⟨(ho keyword rfl).word, by simp [hk]⟩
    · exact forStatement_gives he hs
    · exact ifStatement_gives he hs
    · exact whileStatement_gives he hs
    · exact (block_gives hi).bind fun _ hbody ↦ .pure (.block hbody)

theorem declared_gives {functionItem methodItem : Parse (Option Stmt)} (hf : GivesItem T functionItem)
    (hm : GivesItem T methodItem) :
    Gives T (declared bound expression statement functionItem methodItem) (Stmt.OfWords T) := by
  refine Gives.accept?.bind fun o _ ↦ ?_
  cases o with
  | none => exact hs
  | some keyword =>
    dsimp only
    split
    · exact classDeclaration_gives hm
    · exact (function_gives hf).map fun d hd ↦ .function hd.name hd.params hd.body
    · exact varDeclaration_gives he

end Statements

section Program

variable {bound : Nat}

mutual

theorem statement_gives : ∀ room, Gives T (statement bound room) (Stmt.OfWords T)
  | room + 3 => by
    rw [statement]
    exact plainStatement_gives (expression_gives room) (statement_gives (room + 1))
      (declaration_gives (room + 1))
  | 0 | 1 | 2 => .throw

theorem declaration_gives : ∀ room, GivesItem T (declaration bound room)
  | room + 4 => by
    rw [declaration]
    exact (declared_gives (expression_gives (room + 1)) (statement_gives (room + 3))
      (declaration_gives (room + 1)) (declaration_gives room)).recovering
  | 0 | 1 | 2 | 3 => .throw

end

theorem declarations_ofWords (room rounds : Nat) {done : Array Stmt} {c : Cursor} (hc : c.Holds T)
    (hdone : ∀ s ∈ done, s.OfWords T) : ∀ s ∈ (declarations bound room rounds done c).1, s.OfWords T := by
  induction rounds generalizing done c with
  | zero => exact hdone
  | succ rounds ih =>
    have hitem : GivesItem T (declaration bound room) := declaration_gives room
    unfold declarations
    split
    · exact hdone
    · split
      · next h =>
        obtain ⟨hs, hc'⟩ := hitem.ok h hc
        exact ih hc' fun b hb ↦ (Array.mem_push.mp hb).elim (hdone b) fun h ↦ h ▸ hs _ rfl
      · next h => exact ih (hitem.ok h hc).2 hdone
      · next h => exact ih (Gives.afterMistake_holds (hitem.error h hc)) hdone

end Program

end TreeWalk.Parse

namespace TreeWalk

/-- What is read of some words is made of them, whether or not there are mistakes among them. -/
theorem Program.statements_ofWords {T : Token → Prop} (room : Nat) {words : List Token}
    (h : ∀ t ∈ words, T t) (last : Token) :
    ∀ s ∈ (Program.ofWords room words last).statements, s.OfWords T := by
  have hall : ∀ s ∈ (Parse.declarations words.length room words.length #[] ⟨words, last, #[]⟩).1,
      s.OfWords T := Parse.declarations_ofWords room words.length h (by simp)
  simpa [Program.ofWords] using hall

end TreeWalk
