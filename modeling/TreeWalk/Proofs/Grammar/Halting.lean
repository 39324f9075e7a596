import Mathlib.Data.List.TakeWhile
import TreeWalk.Proofs.Grammar.Places

namespace TreeWalk.Parse.Places

open Filter

variable {α β : Type} {tokens : List Token} {i j : Nat} {fs gs : Array Diagnostic} {s s' : Bool}

/-- A reading that begins at a place does not go back, and gives something only from farther on if something
must be taken. -/
def Ending.Takes (strict : Bool) (i : Nat) : Ending α → Prop
  | .ok _ j _ => i ≤ j ∧ (strict = true → i < j)
  | .left _ j _ => i ≤ j
  | .outside => True

theorem Ending.Takes.weaken {e : Ending α} (h : e.Takes s i) (hs : s' = true → s = true) :
    e.Takes s' i := by
  cases e with
  | ok => exact ⟨h.1, fun h' ↦ h.2 (hs h')⟩
  | left => exact h
  | outside => exact h

theorem Ending.Takes.of_lt {e : Ending α} (h : e.Takes s j) (hij : i < j) : e.Takes s' i := by
  cases e with
  | ok => exact ⟨hij.le.trans h.1, fun _ ↦ hij.trans_le h.1⟩
  | left => exact hij.le.trans h
  | outside => trivial

def HaltsAt (tokens : List Token) (strict : Bool) (p : Nat → Parse α) (i : Nat) (fs : Array Diagnostic) :
    Prop :=
  ∃ e, Runs tokens p i fs e ∧ e.Takes strict i

namespace HaltsAt

variable {p q : Nat → Parse α} {f : Nat → α → Parse β}

theorem weaken (h : HaltsAt tokens s p i fs) (hs : s' = true → s = true) : HaltsAt tokens s' p i fs :=
  h.imp fun _ ⟨hrun, htakes⟩ ↦ ⟨hrun, htakes.weaken hs⟩

theorem large (h : ∀ᶠ b in atTop, q b = p b) (hp : HaltsAt tokens s p i fs) : HaltsAt tokens s q i fs :=
  hp.imp fun _ ⟨hrun, htakes⟩ ↦ ⟨.large h hrun, htakes⟩

theorem pure (a : α) : HaltsAt tokens false (fun _ ↦ Pure.pure a) i fs :=
  ⟨_, .pure a i fs, Nat.le_refl i, nofun⟩

theorem throw (stop : Stop) : HaltsAt tokens s (fun _ ↦ (throw stop : Parse α)) i fs :=
  ⟨_, .throw stop i fs, Nat.le_refl i⟩

theorem both (hp : HaltsAt tokens s p i fs)
    (hf : ∀ a j gs, i ≤ j → (s = true → i < j) → HaltsAt tokens s' (f · a) j gs) :
    HaltsAt tokens (s || s') (fun b ↦ p b >>= f b) i fs := by
  obtain ⟨e, hrun, htakes⟩ := hp
  cases e with
  | left => exact ⟨_, .bindLeft hrun, htakes⟩
  | outside => exact ⟨_, .bindOutside hrun, trivial⟩
  | ok a j gs =>
    obtain ⟨e', hrun', htakes'⟩ := hf a j gs htakes.1 htakes.2
    refine ⟨e', .bind hrun hrun', ?_⟩
    rcases Nat.lt_or_eq_of_le htakes.1 with hlt | rfl
    · exact htakes'.of_lt hlt
    · refine htakes'.weaken fun hs ↦ (Bool.or_eq_true_iff.mp hs).resolve_left fun hs ↦ ?_
      exact Nat.lt_irrefl _ (htakes.2 hs)

theorem bind (hp : HaltsAt tokens s p i fs)
    (hf : ∀ a j gs, i ≤ j → (s = true → i < j) → HaltsAt tokens s' (f · a) j gs) :
    HaltsAt tokens s' (fun b ↦ p b >>= f b) i fs :=
  (hp.both hf).weaken fun hs ↦ by simp [hs]

theorem ite {c : Prop} [Decidable c] (hp : c → HaltsAt tokens s p i fs)
    (hq : ¬c → HaltsAt tokens s q i fs) : HaltsAt tokens s (fun b ↦ if c then p b else q b) i fs := by
  by_cases hc : c
  · exact .large (.of_forall fun b ↦ if_pos hc) (hp hc)
  · exact .large (.of_forall fun b ↦ if_neg hc) (hq hc)

theorem stay {p : Parse α} {o : Option α}
    (hrun : Runs tokens (fun _ ↦ p) i fs (.ofStep (o.map (·, i)) fs)) :
    HaltsAt tokens false (fun _ ↦ p) i fs := by
  refine ⟨_, hrun, ?_⟩
  cases o with
  | none => trivial
  | some a => exact ⟨Nat.le_refl i, nofun⟩

theorem look {p : Parse α} {o : Option α}
    (hrun : Runs tokens (fun _ ↦ p) i fs (.ofStep (o.map (·, i)) fs))
    (hf : ∀ a, o = some a → HaltsAt tokens s (f · a) i fs) :
    HaltsAt tokens s (fun b ↦ p >>= f b) i fs := by
  cases o with
  | none => exact ⟨_, .bindOutside hrun, trivial⟩
  | some a => exact (hf a rfl).imp fun _ ⟨hrest, htakes⟩ ↦ ⟨.bind hrun hrest, htakes⟩

theorem accept? {wanted : Kind → Bool} {f : Nat → Option Token → Parse β}
    (hsome : ∀ t, i < tokens.length → HaltsAt tokens false (f · (some t)) (i + 1) fs)
    (hnone : HaltsAt tokens s (f · none) i fs) :
    HaltsAt tokens s (fun b ↦ Parse.accept? wanted >>= f b) i fs := by
  have hrun : Runs tokens (fun _ ↦ Parse.accept? wanted) i fs (.ofStep _ fs) := .accept wanted i fs
  have hstay (h : Places.accept? tokens wanted i = some (none, i)) :
      HaltsAt tokens s (fun b ↦ Parse.accept? wanted >>= f b) i fs := by
    rw [h] at hrun
    exact hnone.imp fun _ ⟨hrest, htakes⟩ ↦ ⟨.bind hrun hrest, htakes⟩
  cases hget : tokens[i]? with
  | none =>
    rw [Places.accept?, atEnd?, hget] at hrun
    exact ⟨_, .bindOutside hrun, trivial⟩
  | some t =>
    by_cases hkind : t.kind = .eof
    · exact hstay (by simp [Places.accept?, atEnd?, hget, hkind])
    · cases hwanted : wanted t.kind with
      | false => exact hstay (by simp [Places.accept?, atEnd?, hget, hwanted])
      | true =>
        have htaken : Places.accept? tokens wanted i = some (some t, i + 1) := by
          simp [Places.accept?, advance?, previous?, atEnd?, hget, hkind, hwanted]
        rw [htaken] at hrun
        obtain ⟨e, hrest, htakes⟩ := hsome t (List.getElem?_eq_some_iff.mp hget).1
        exact ⟨e, .bind hrun hrest, htakes.of_lt (Nat.lt_succ_self i)⟩

theorem accept {kind : Kind} {f : Nat → Bool → Parse β}
    (htrue : i < tokens.length → HaltsAt tokens false (f · true) (i + 1) fs)
    (hfalse : HaltsAt tokens s (f · false) i fs) :
    HaltsAt tokens s (fun b ↦ Parse.accept kind >>= f b) i fs :=
  .large (.of_forall fun b ↦ accept_bind kind (f b)) (.accept? (fun _ hi ↦ htrue hi) hfalse)

end HaltsAt

/-- A production has an ending from every place on. -/
def Halts (tokens : List Token) (strict : Bool) (p : Nat → Parse α) : Prop :=
  ∀ i fs, HaltsAt tokens strict p i fs

namespace Halts

variable {p q : Nat → Parse α} {f : Nat → α → Parse β}

theorem weaken (h : Halts tokens true p) : Halts tokens s p := fun i fs ↦ (h i fs).weaken fun _ ↦ rfl

theorem large (h : ∀ᶠ b in atTop, q b = p b) (hp : Halts tokens s p) : Halts tokens s q :=
  fun i fs ↦ (hp i fs).large h

theorem pure (a : α) : Halts tokens false fun _ ↦ Pure.pure a := fun _ _ ↦ .pure a

theorem throw (stop : Stop) : Halts tokens s fun _ ↦ (throw stop : Parse α) := fun _ _ ↦ .throw stop

theorem bind (hp : Halts tokens s p) (hf : ∀ a, Halts tokens s' (f · a)) :
    Halts tokens s' fun b ↦ p b >>= f b :=
  fun i fs ↦ (hp i fs).bind fun a j gs _ _ ↦ hf a j gs

theorem first (hp : Halts tokens true p) (hf : ∀ a, Halts tokens false (f · a)) :
    Halts tokens true fun b ↦ p b >>= f b :=
  fun i fs ↦ (hp i fs).both fun a j gs _ _ ↦ hf a j gs

theorem map {g : α → β} (hp : Halts tokens s p) : Halts tokens s fun b ↦ g <$> p b := by
  have he (b : Nat) : g <$> p b = p b >>= fun a ↦ Pure.pure (g a) := (bind_pure_comp g (p b)).symm
  refine .large (.of_forall he) fun i fs ↦ ?_
  rw [← Bool.or_false s]
  exact (hp i fs).both fun a _ _ _ _ ↦ .pure (g a)

theorem discard (hp : Halts tokens s p) : Halts tokens s fun b ↦ discard (p b) := hp.map

theorem ite {c : Prop} [Decidable c] (hp : Halts tokens s p) (hq : Halts tokens s q) :
    Halts tokens s fun b ↦ if c then p b else q b := fun i fs ↦ .ite (fun _ ↦ hp i fs) fun _ ↦ hq i fs

theorem peek : Halts tokens false fun _ ↦ peek := fun i fs ↦ .stay (.peek i fs)

theorem check (kind : Kind) : Halts tokens false fun _ ↦ check kind := fun i fs ↦ .stay (.check kind i fs)

theorem complain (t : Token) (c : Complaint) : Halts tokens false fun _ ↦ complain t c :=
  fun i fs ↦ ⟨_, .complain t c i fs, Nat.le_refl i, nofun⟩

theorem fail (what : Missing) : Halts tokens s fun _ ↦ (fail what : Parse α) :=
  peek.bind fun t ↦ (complain t _).bind fun _ ↦ throw .mistake

theorem accept? {wanted : Kind → Bool} {f : Nat → Option Token → Parse β}
    (hsome : ∀ t, Halts tokens false (f · (some t))) (hnone : Halts tokens s (f · none)) :
    Halts tokens s fun b ↦ Parse.accept? wanted >>= f b :=
  fun i fs ↦ .accept? (fun t _ ↦ hsome t (i + 1) fs) (hnone i fs)

theorem accept (kind : Kind) : Halts tokens false fun _ ↦ accept kind := accept? (fun _ ↦ pure _) (pure _)

theorem expect (kind : Kind) (what : Missing) : Halts tokens true fun _ ↦ expect kind what :=
  accept? (fun t ↦ pure t) (fail what)

theorem closing (kind : Kind) (what : Missing) (a : α) :
    Halts tokens true fun _ ↦ Functor.discard (Parse.expect kind what) >>= fun _ ↦ (Pure.pure a : Parse α) :=
  (expect kind what).discard.first fun _ ↦ pure a

end Halts

/-- A loop comes to an end if each of its rounds takes a token in the list. It is given by what it has got so
far, the bound for the loops in it, and the number of rounds that it may make. -/
theorem halts_of_rounds {σ : Type} (loop : σ → Nat → Nat → Parse α)
    (hround : ∀ k x i fs, (∀ y j gs, i < tokens.length → i < j →
        HaltsAt tokens false (fun b ↦ loop y b (b - (k + 1))) j gs) →
      HaltsAt tokens false (fun b ↦ loop x b (b - (k + 1) + 1)) i fs) (x : σ) :
    Halts tokens false fun b ↦ loop x b b := by
  -- `k` rounds have been made; what gets less with each one is not the bound but what is left of the list
  have hall (k : Nat) (x : σ) : Halts tokens false fun b ↦ loop x b (b - k) := by
    intro i fs
    induction hn : tokens.length - i using Nat.strong_induction_on generalizing k x i fs with
    | _ n ih =>
      refine .large ((eventually_sub k).mono fun b hb ↦ congrArg (loop x b) hb) (hround k x i fs ?_)
      exact fun y j gs hi hij ↦ ih (tokens.length - j) (by omega) (k + 1) y j gs rfl
  exact hall 0 x

section Expressions

variable {part inner : Nat → Parse Expr}

theorem joined_halts (operators : Kind → Bool) (join : Expr → Token → Expr → Expr)
    (hp : Halts tokens false part) (left : Expr) :
    Halts tokens false fun b ↦ joined operators join (part b) b left := by
  refine halts_of_rounds (fun left b n ↦ joined operators join (part b) n left)
    (fun k left i fs ih ↦ ?_) left
  refine .accept? (fun operator hi ↦ ?_) (.pure left)
  exact (hp (i + 1) fs).bind fun right j gs hj _ ↦ ih (join left operator right) j gs hi hj

theorem leftAssociative_halts (operators : Kind → Bool) (join : Expr → Token → Expr → Expr)
    (hp : Halts tokens false part) :
    Halts tokens false fun b ↦ leftAssociative b operators join (part b) :=
  hp.bind fun left ↦ joined_halts operators join hp left

theorem operation_halts (hp : Halts tokens false part) :
    Halts tokens false fun b ↦ operation b (part b) :=
  leftAssociative_halts isOr _ <| leftAssociative_halts isAnd _ <| leftAssociative_halts isEquality _ <|
    leftAssociative_halts isComparison _ <| leftAssociative_halts isTerm _ <|
    leftAssociative_halts isFactor _ hp

theorem assignment_halts {value : Nat → Parse Expr} (hp : Halts tokens false part)
    (hv : Halts tokens false value) :
    Halts tokens false fun b ↦ assignment b (part b) (value b) := by
  refine (operation_halts hp).bind fun target ↦ .accept? (fun equals ↦ hv.bind fun v ↦ ?_) (.pure target)
  cases target
  case var => exact .pure _
  case get => exact .pure _
  all_goals exact (Halts.complain equals _).bind fun _ ↦ .pure _

theorem primary_halts (hp : Halts tokens false inner) : Halts tokens false fun b ↦ primary (inner b) := by
  refine .accept? (fun t ↦ ?_) (.fail .expression)
  dsimp only
  cases t.kind
  case leftParen => exact hp.bind fun _ ↦ (Halts.closing _ _ _).weaken
  all_goals exact .pure _

theorem commaItems_halts {item : Nat → Parse α} (tooMany : Complaint) (hp : Halts tokens false item)
    (done : Array α) : Halts tokens false fun b ↦ commaItems tooMany (item b) b done := by
  refine halts_of_rounds (fun done b n ↦ commaItems tooMany (item b) n done)
    (fun k done i fs ih ↦ ?_) done
  have rest {j : Nat} (hj : i ≤ j) (gs : Array Diagnostic) : HaltsAt tokens false
      (fun b ↦ item b >>= fun a ↦ accept .comma >>= fun more ↦
        if more = true then commaItems tooMany (item b) (b - (k + 1)) (done.push a)
        else Pure.pure (done.push a)) j gs := by
    refine (hp j gs).bind fun a j' gs' hj' _ ↦ .accept (fun hi ↦ ?_) (.pure _)
    exact ih _ _ _ (by omega) (by omega)
  refine .ite (fun _ ↦ ?_) fun _ ↦ rest (Nat.le_refl i) fs
  refine (Halts.peek i fs).bind fun t j gs hj _ ↦ ?_
  exact (Halts.complain t tooMany j gs).bind fun _ j' gs' hj' _ ↦ rest (hj.trans hj') gs'

theorem parenthesised_halts {item : Nat → Parse α} (tooMany : Complaint) (close : Missing)
    (hp : Halts tokens false item) :
    Halts tokens true fun b ↦ parenthesised tooMany close (item b) b := by
  have rest (items : Array α) : Halts tokens true fun _ ↦
      (do return (items.toList, ← Parse.expect .rightParen close) : Parse (List α × Token)) :=
    (Halts.expect _ _).first fun _ ↦ .pure _
  refine (Halts.check _).bind fun empty ↦ .ite ?_ ?_
  · exact (Halts.pure _).bind rest
  · exact (commaItems_halts tooMany hp #[]).bind rest

theorem suffixes_halts {argument : Nat → Parse Expr} (hp : Halts tokens false argument) (e : Expr) :
    Halts tokens false fun b ↦ suffixes b (argument b) b e := by
  refine halts_of_rounds (fun e b n ↦ suffixes b (argument b) n e) (fun k e i fs ih ↦ ?_) e
  refine .accept? (fun t hi ↦ .ite (fun _ ↦ ?_) fun _ ↦ ?_) (.pure e)
  · exact (Halts.expect .identifier .propertyName _ fs).bind fun name j gs hj _ ↦ ih _ j gs hi hj
  · have harguments := parenthesised_halts .tooManyArguments .argumentsEnd hp (i + 1) fs
    exact harguments.bind fun ⟨arguments, paren⟩ j gs hj _ ↦ ih _ j gs hi hj

mutual

theorem expression_halts : ∀ room, Halts tokens false (expression · room)
  | room + 7 => by
    refine .large (.of_forall fun b ↦ expression.eq_def b (room + 7)) ?_
    exact assignment_halts (operand_halts room) (expression_halts (room + 6))
  | 0 | 1 | 2 | 3 | 4 | 5 | 6 => .throw .tooDeep

theorem operand_halts : ∀ room, Halts tokens false (operand · room)
  | room + 4 => by
    refine .large (.of_forall fun b ↦ operand.eq_def b (room + 4)) ?_
    refine .accept? (fun operator ↦ (operand_halts (room + 3)).bind fun e ↦ .pure _) ?_
    exact (primary_halts (expression_halts room)).bind fun e ↦ suffixes_halts (expression_halts room) e
  | 0 | 1 | 2 | 3 => .throw .tooDeep

end

end Expressions

section Statements

theorem le_of_resume? {k : Nat} (h : resume? tokens i = some k) : i ≤ k := by
  fun_induction resume? tokens i with
  | case1 => cases h
  | case2 => cases h; exact Nat.le_refl _
  | case3 => cases h
  | case4 => cases h; exact Nat.le_refl _
  | case5 i _ _ _ _ _ _ ih => exact (Nat.le_succ i).trans (ih h)

theorem lt_of_atEnd? {marked : Bool} (h : atEnd? tokens i = some marked) : i < tokens.length := by
  obtain ⟨t, ht, -⟩ := Option.map_eq_some_iff.mp h
  exact (List.getElem?_eq_some_iff.mp ht).1

theorem le_of_synchronize? {k : Nat} (h : synchronize? tokens i = some k) :
    i ≤ k ∧ (atEnd? tokens i = some false → i < k) := by
  obtain ⟨⟨t, j⟩, hadvance, hresume⟩ := Option.bind_eq_some_iff.mp h
  obtain ⟨marked, hmarked, hstep⟩ := Option.bind_eq_some_iff.mp hadvance
  obtain ⟨previous, -, hj⟩ := Option.bind_eq_some_iff.mp hstep
  obtain ⟨-, rfl⟩ := Prod.mk.inj (Option.some.inj hj)
  have hle := le_of_resume? hresume
  cases marked with
  | true => exact ⟨hle, fun hmore ↦ by simp [hmore] at hmarked⟩
  | false => exact ⟨(Nat.le_succ i).trans hle, fun _ ↦ hle⟩

theorem lt_of_synchronize? {k : Nat} (hmore : atEnd? tokens i = some false) (hij : i ≤ j)
    (h : synchronize? tokens j = some k) : i < k := by
  obtain ⟨hle, hlt⟩ := le_of_synchronize? h
  rcases Nat.lt_or_eq_of_le hij with hij | rfl
  · exact hij.trans_le hle
  · exact hlt hmore

def Advances (tokens : List Token) (item : Nat → Parse α) : Prop :=
  ∀ i fs, atEnd? tokens i = some false → HaltsAt tokens true item i fs

theorem recovering_advances {p : Nat → Parse α} (hp : Halts tokens true p) :
    Advances tokens fun b ↦ recovering (p b) := by
  intro i fs hmore
  obtain ⟨e, hrun, htakes⟩ := hp i fs
  refine ⟨_, .recovering hrun, ?_⟩
  rcases e with ⟨a, j, gs⟩ | ⟨_ | _, j, gs⟩ | _
  · exact htakes
  · show (Ending.ofStep _ gs).Takes true i
    cases hsync : synchronize? tokens j with
    | none => trivial
    | some k =>
      have hlt := lt_of_synchronize? hmore htakes hsync
      exact ⟨hlt.le, fun _ ↦ hlt⟩
  · exact htakes
  · trivial

theorem itemsUntil_halts {item : Nat → Parse α} (close : Kind) (hp : Advances tokens item) (done : Array α) :
    Halts tokens false fun b ↦ itemsUntil close (item b) b done := by
  refine halts_of_rounds (fun done b n ↦ itemsUntil close (item b) n done) (fun k done i fs ih ↦ ?_) done
  refine .look (.atEnd i fs) fun marked hmarked ↦ .look (.check close i fs) fun found _ ↦ ?_
  refine .ite (fun _ ↦ .pure done) fun hmore ↦ ?_
  obtain rfl : marked = false := by
    cases marked with
    | true => exact absurd rfl hmore
    | false => rfl
  exact (hp i fs hmarked).bind fun a j gs _ hij ↦ ih (done.push a) j gs (lt_of_atEnd? hmarked) (hij rfl)

variable {e : Nat → Parse Expr} {body : Nat → Parse Stmt} {item method : Nat → Parse (Option Stmt)}

theorem block_halts (hi : Advances tokens item) : Halts tokens false fun b ↦ block b (item b) :=
  (itemsUntil_halts .rightBrace hi #[]).bind fun _ ↦ (Halts.closing _ _ _).weaken

theorem function_halts (what : Callable) (hi : Advances tokens item) :
    Halts tokens true fun b ↦ function b what (item b) := by
  refine (Halts.expect _ _).first fun name ↦ (Halts.expect _ _).discard.bind fun _ ↦ ?_
  refine (parenthesised_halts _ _ (Halts.expect .identifier .parameterName).weaken).bind fun params ↦ ?_
  exact (Halts.expect _ _).discard.bind fun _ ↦ (block_halts hi).bind fun _ ↦ .pure _

theorem classDeclaration_halts (hi : Advances tokens item) :
    Halts tokens true fun b ↦ classDeclaration b (item b) := by
  refine (Halts.expect _ _).first fun name ↦ (Halts.expect _ _).discard.bind fun _ ↦ ?_
  have hmethod : Advances tokens fun b ↦ function b .method (item b) :=
    fun i fs _ ↦ function_halts .method hi i fs
  exact (itemsUntil_halts .rightBrace hmethod #[]).bind fun _ ↦ (Halts.closing _ _ _).weaken

section Parts

variable (he : Halts tokens false e)
include he

theorem varDeclaration_halts : Halts tokens true fun b ↦ varDeclaration (e b) := by
  have rest (name : Token) (initializer : Option Expr) : Halts tokens false fun _ ↦
      (do
        discard <| Parse.expect .semicolon .variableEnd
        return .var name initializer : Parse Stmt) :=
    (Halts.closing _ _ _).weaken
  refine (Halts.expect _ _).first fun name ↦ (Halts.accept _).bind fun found ↦ .ite ?_ ?_
  · exact he.map.bind (rest name)
  · exact (Halts.pure none).bind (rest name)

theorem expressionStatement_halts : Halts tokens true fun b ↦ expressionStatement (e b) :=
  he.bind fun _ ↦ .closing _ _ _

theorem printStatement_halts : Halts tokens true fun b ↦ printStatement (e b) :=
  he.bind fun _ ↦ .closing _ _ _

theorem returnStatement_halts (keyword : Token) :
    Halts tokens true fun b ↦ returnStatement keyword (e b) := by
  refine (Halts.check _).bind fun found ↦ .ite ?_ ?_
  · exact (Halts.pure none).bind fun _ ↦ .closing _ _ _
  · exact he.map.bind fun _ ↦ .closing _ _ _

theorem forInitializer_halts : Halts tokens false fun b ↦ forInitializer (e b) := by
  refine (Halts.accept _).bind fun found ↦ .ite (.pure _) ?_
  exact (Halts.accept _).bind fun found ↦
    .ite (varDeclaration_halts he).weaken (expressionStatement_halts he).weaken

theorem forCondition_halts : Halts tokens false fun b ↦ forCondition (e b) := by
  refine (Halts.check _).bind fun found ↦ .ite ?_ ?_
  · exact (Halts.pure _).bind fun _ ↦ (Halts.closing _ _ _).weaken
  · exact he.bind fun _ ↦ (Halts.closing _ _ _).weaken

theorem forIncrement_halts : Halts tokens false fun b ↦ forIncrement (e b) := by
  refine (Halts.check _).bind fun found ↦ .ite ?_ ?_
  · exact (Halts.pure _).bind fun _ ↦ (Halts.closing _ _ _).weaken
  · exact he.map.bind fun _ ↦ (Halts.closing _ _ _).weaken

variable (hs : Halts tokens true body)
include hs

theorem ifStatement_halts : Halts tokens false fun b ↦ ifStatement (e b) (body b) := by
  refine (Halts.expect _ _).discard.bind fun _ ↦ he.bind fun condition ↦ ?_
  refine (Halts.expect _ _).discard.bind fun _ ↦ hs.bind fun yes ↦ (Halts.accept _).bind fun found ↦ ?_
  exact .ite (hs.map.bind fun _ ↦ .pure _) ((Halts.pure none).bind fun _ ↦ .pure _)

theorem whileStatement_halts : Halts tokens false fun b ↦ whileStatement (e b) (body b) := by
  refine (Halts.expect _ _).discard.bind fun _ ↦ he.bind fun condition ↦ ?_
  exact (Halts.expect _ _).discard.bind fun _ ↦ hs.bind fun _ ↦ .pure _

theorem forStatement_halts : Halts tokens false fun b ↦ forStatement (e b) (body b) := by
  refine (Halts.expect _ _).discard.bind fun _ ↦ (forInitializer_halts he).bind fun initial ↦ ?_
  refine (forCondition_halts he).bind fun condition ↦ (forIncrement_halts he).bind fun increment ↦ ?_
  exact hs.bind fun _ ↦ .pure _

theorem plainStatement_halts (hi : Advances tokens item) :
    Halts tokens true fun b ↦ plainStatement b (e b) (body b) (item b) := by
  refine .accept? (fun t ↦ ?_) (expressionStatement_halts he)
  dsimp only
  cases t.kind
  case printWord => exact (printStatement_halts he).weaken
  case returnWord => exact (returnStatement_halts he t).weaken
  case forWord => exact forStatement_halts he hs
  case ifWord => exact ifStatement_halts he hs
  case whileWord => exact whileStatement_halts he hs
  all_goals exact (block_halts hi).bind fun _ ↦ .pure _

theorem declared_halts (hi : Advances tokens item) (hm : Advances tokens method) :
    Halts tokens true fun b ↦ declared b (e b) (body b) (item b) (method b) := by
  refine .accept? (fun t ↦ ?_) hs
  dsimp only
  cases t.kind
  case classWord => exact (classDeclaration_halts hm).weaken
  case funWord => exact (function_halts .function hi).weaken.map
  all_goals exact (varDeclaration_halts he).weaken

end Parts

mutual

theorem statement_halts : ∀ room, Halts tokens true (statement · room)
  | room + 3 => by
    refine .large (.of_forall fun b ↦ statement.eq_def b (room + 3)) ?_
    exact plainStatement_halts (expression_halts room) (statement_halts (room + 1))
      (declaration_advances (room + 1))
  | 0 | 1 | 2 => .throw .tooDeep

theorem declaration_advances : ∀ room, Advances tokens (declaration · room)
  | room + 4 => by
    have hdeclared := declared_halts (expression_halts (room + 1)) (statement_halts (room + 3))
      (declaration_advances (room + 1)) (declaration_advances room)
    exact fun i fs hmore ↦ (recovering_advances hdeclared i fs hmore).large
      (.of_forall fun b ↦ declaration.eq_def b (room + 4))
  | 0 | 1 | 2 | 3 => fun _ _ _ ↦ .throw .tooDeep

end

/-- The rounds at top level come to an end, from every place on. -/
theorem exists_rounds (room i : Nat) (ss : Array Stmt) (fs : Array Diagnostic) :
    ∃ o, Rounds tokens room i ss fs o := by
  induction hn : tokens.length - i using Nat.strong_induction_on generalizing i ss fs with
  | _ n ih =>
    match hend : atEnd? tokens i with
    | none => exact ⟨_, .outside hend⟩
    | some true => exact ⟨_, .done hend⟩
    | some false =>
      have hlt := lt_of_atEnd? hend
      obtain ⟨e, hrun, htakes⟩ := declaration_advances room i fs hend
      rcases e with ⟨s, j, gs⟩ | ⟨_ | _, j, gs⟩ | _
      · have hij := htakes.2 rfl
        obtain ⟨o, ho⟩ := ih (tokens.length - j) (by omega) j (ss ++ s.toArray) gs rfl
        exact ⟨o, .entry hend hrun ho⟩
      · exact ⟨_, .mistake hend hrun⟩
      · cases hget : tokens[j]? with
        | none => exact ⟨_, .tooDeepOutside hend hrun (.inl hget)⟩
        | some t =>
          cases hsync : synchronize? tokens j with
          | none => exact ⟨_, .tooDeepOutside hend hrun (.inr hsync)⟩
          | some k =>
            have hik := lt_of_synchronize? hend htakes hsync
            obtain ⟨o, ho⟩ := ih (tokens.length - k) (by omega) k ss _ rfl
            exact ⟨o, .tooDeep hend hrun hget hsync ho⟩
      · exact ⟨_, .entryOutside hend hrun⟩

end Statements

end TreeWalk.Parse.Places

namespace TreeWalk.Program

open Parse.Places

variable {room : Nat} {words : List Token} {last : Token}

theorem comesTo_iff {tokens : List Token} (h : Before words last tokens) {o : Outcome} :
    ComesTo tokens room o ↔
      o = if tokens[words.length]? = none then .outside else .program (ofWords room words last) := by
  refine ⟨fun ho ↦ ho.eq h, ?_⟩
  rintro rfl
  obtain ⟨o, ho⟩ : ∃ o, ComesTo tokens room o := exists_rounds room 0 #[] #[]
  rwa [← ComesTo.eq h ho]

theorem comesTo_outside (hwords : ∀ t ∈ words, t.kind ≠ .eof) {o : Outcome} :
    ComesTo words room o ↔ o = .outside := by
  have h : Before words ⟨.eof, "", .nil, 1⟩ words := ⟨List.prefix_rfl, hwords, by simp⟩
  rw [comesTo_iff h, if_pos (by simp)]

theorem comesTo_program (hwords : ∀ t ∈ words, t.kind ≠ .eof) (hlast : last.kind = .eof)
    (after : List Token) {o : Outcome} :
    ComesTo (words ++ last :: after) room o ↔ o = .program (ofWords room words last) := by
  have h : Before words last (words ++ last :: after) :=
    ⟨List.prefix_append _ _, hwords, by simp [hlast]⟩
  rw [comesTo_iff h, if_neg (by simp)]

theorem ofTokens?_of_unended (hwords : ∀ t ∈ words, t.kind ≠ .eof) : ofTokens? room words = none := by
  have hspan : words.span (·.kind ≠ .eof) = (words, []) := by
    rw [List.span_eq_takeWhile_dropWhile, List.takeWhile_eq_self_iff.mpr (by simpa using hwords),
      List.dropWhile_eq_nil_iff.mpr (by simpa using hwords)]
  simp only [ofTokens?, hspan]

theorem unended_or_first (tokens : List Token) : (∀ t ∈ tokens, t.kind ≠ .eof) ∨
    ∃ words last after, tokens = words ++ last :: after ∧
      (∀ t ∈ words, t.kind ≠ .eof) ∧ last.kind = .eof := by
  cases hfind : tokens.find? (·.kind == .eof) with
  | none => exact .inl (by simpa using List.find?_eq_none.mp hfind)
  | some last =>
    obtain ⟨hlast, words, after, rfl, hwords⟩ := List.find?_eq_some_iff_append.mp hfind
    exact .inr ⟨words, last, after, rfl, by simpa using hwords, by simpa using hlast⟩

/-- Reading any tokens by places comes to an end in just one way, and no mistake leaves its declaration. Without
an end marker that is a look outside the list, and with one it is the program that is read, whatever is
behind. -/
theorem ofTokens?_comesTo (room : Nat) :
    (∀ tokens, ∃! o, ComesTo tokens room o) ∧
    (∀ tokens, (∀ t ∈ tokens, t.kind ≠ .eof) →
      ofTokens? room tokens = none ∧ ComesTo tokens room .outside) ∧
    ∀ words last, last.kind = .eof → ∃ p, ∀ after,
      ofTokens? room (words ++ last :: after) = some p ∧
        ComesTo (words ++ last :: after) room (.program p) := by
  refine ⟨fun tokens ↦ ?_, fun tokens htokens ↦ ?_, fun words last hlast ↦ ?_⟩
  · rcases unended_or_first tokens with htokens | ⟨words, last, after, rfl, hwords, hlast⟩
    · exact ⟨_, (comesTo_outside htokens).mpr rfl, fun _ ↦ (comesTo_outside htokens).mp⟩
    · exact ⟨_, (comesTo_program hwords hlast after).mpr rfl, fun _ ↦ (comesTo_program hwords hlast after).mp⟩
  · exact ⟨ofTokens?_of_unended htokens, (comesTo_outside htokens).mpr rfl⟩
  · rcases unended_or_first (words ++ [last]) with htokens | ⟨w, l, rest, hsplit, hw, hl⟩
    · exact absurd hlast (htokens last (by simp))
    · refine ⟨ofWords room w l, fun after ↦ ?_⟩
      have hall : words ++ last :: after = w ++ l :: (rest ++ after) := by
        rw [← List.cons_append, ← List.append_assoc, ← hsplit]
        simp
      rw [hall]
      exact ⟨ofTokens?_append_cons hw hl _, (comesTo_program hw hl _).mpr rfl⟩

def astray : List Token :=
  [⟨.rightParen, ")", .nil, 1⟩, ⟨.semicolon, ";", .nil, 1⟩, ⟨.printWord, "print", .nil, 1⟩,
    ⟨.nilWord, "nil", .nil, 1⟩, ⟨.semicolon, ";", .nil, 1⟩]

theorem astray_comesTo :
    let last : Token := ⟨.eof, "", .nil, 1⟩
    (∀ t ∈ astray, t.kind ≠ .eof) ∧ ComesTo astray 20 .outside ∧ last.kind = .eof ∧
      ∀ after, ComesTo (astray ++ last :: after) 20
        (.program ⟨[.print (.literal .nil)], [⟨1, .atLexeme ")", .expected .expression⟩]⟩) := by
  intro last
  obtain ⟨-, hunended, hended⟩ := ofTokens?_comesTo 20
  have hwords : ∀ t ∈ astray, t.kind ≠ .eof := by decide
  obtain ⟨p, hp⟩ := hended astray last rfl
  have hread : ofTokens? 20 (astray ++ [last]) =
      some ⟨[.print (.literal .nil)], [⟨1, .atLexeme ")", .expected .expression⟩]⟩ := by rfl
  obtain rfl := Option.some.inj (hread.symm.trans (hp []).1)
  exact ⟨hwords, (hunended astray hwords).2, rfl, fun after ↦ (hp after).2⟩

end TreeWalk.Program
