import TreeWalk.Proofs.Grammar.Recorded

namespace TreeWalk.Parse

open Grammar Relaxed

variable {α : Type}

/-- A reading takes the words of a language, if a word of none of these kinds stands behind them. -/
def Completes (bound : Nat) (p : Parse α) (fits : Prop) (stops : List Kind) (G : Phrase α) :
    Prop :=
  ∀ ⦃w a k⦄, G w a → Ends stops k → (w ++ k).length ≤ bound → Takes p fits (w ++ k) a k

def clean (G : Phrase α) : Reading α := fun w a ds ↦ ds = [] ∧ G w a

theorem clean_includes {G : Phrase α} : Includes (clean G) G := fun _ _ h ↦ ⟨rfl, h⟩

section Clean

variable {bound : Nat} {p : Parse α} {fits : Prop} {stops kinds : List Kind} {G : Phrase α}
  {R : Reading α}

theorem Starts.clean (h : Starts kinds G) : Starts kinds (clean G).phrase := fun _ _ ⟨_, _, hw⟩ ↦ h hw

theorem Starts.of_includes (h : Starts kinds R.phrase) (hR : Includes R G) : Starts kinds G :=
  fun _ _ hw ↦ h ⟨_, hR hw⟩

theorem Completes.recorded (h : Completes bound p fits stops G) :
    Recorded bound p fits stops (Parse.clean G) := by
  rintro w a _ k ⟨rfl, hw⟩ hk hb
  exact .of_takes (h hw hk hb)

theorem Completes.of_recorded (h : Recorded bound p fits stops R) (hR : Includes R G) :
    Completes bound p fits stops G :=
  fun _ _ _ hw hk hb ↦ (h (hR hw) hk hb).takes

end Clean

section Expressions

variable {bound : Nat} {fits : Prop} {stops : List Kind}

theorem expression_starts (depth : Nat) : Starts expressionStarts (Grammar.Expression depth) :=
  (expression_begins depth).of_includes (expression_includes depth)

theorem parenthesised_complete {item : Parse α} {G : Phrase α} (tooMany : Complaint)
    (close : Missing) {kinds : List Kind} (hG : Starts kinds G) (hkinds : Kind.rightParen ∉ kinds)
    (hp : Completes bound item fits stops G) (hcomma : Kind.comma ∉ stops)
    (hparen : Kind.rightParen ∉ stops) :
    Completes bound (parenthesised tooMany close item bound) fits [] (Grammar.Parenthesised G) :=
  .of_recorded (parenthesised_recorded tooMany close hG.clean hkinds hp.recorded hcomma hparen)
    (parenthesised_includes tooMany clean_includes)

theorem expression_complete (depth room : Nat) : Completes bound (expression bound room)
    (depth ≤ room) expressionStops (Grammar.Expression depth) :=
  .of_recorded (expression_recorded depth room) (expression_includes depth)

end Expressions

section Statements

variable {bound : Nat} {fits : Prop} {item : Parse (Option Stmt)} {G : Phrase Stmt}

theorem sequence_length_le {kinds : List Kind} {G : Phrase α} (hG : Starts kinds G)
    {w : List Token} {as : List α} (h : Grammar.Sequence G w as) : as.length ≤ w.length :=
  sequence_size_le hG.clean (sequence_includes clean_includes h)

theorem sequence_map_some {G : Phrase α} {w : List Token} {as : List α} (h : Grammar.Sequence G w as) :
    Grammar.Sequence (fun w o ↦ ∃ a, o = some a ∧ G w a) w (as.map some) := by
  induction h with
  | nil => exact .nil
  | cons ha _ ih => exact .cons ⟨_, rfl, ha⟩ ih

theorem statement_starts (depth : Nat) (dangling : Bool) :
    Starts statementStarts (Grammar.Statement depth dangling) :=
  (statement_begins depth dangling).of_includes (statement_includes depth dangling)

theorem declaration_starts (depth : Nat) : Starts declarationStarts (Grammar.Declaration depth) :=
  (declaration_begins depth).of_includes (declaration_includes depth)

theorem function_starts : Starts [.identifier] (Grammar.Function G) :=
  (function_begins (G := clean G)).of_includes (function_includes clean_includes)

def CompletesItem (bound : Nat) (item : Parse (Option Stmt)) (fits : Prop) (G : Phrase Stmt) :
    Prop :=
  Starts declarationStarts G ∧
    Completes bound item fits [.elseWord] fun w o ↦ ∃ s, o = some s ∧ G w s

theorem CompletesItem.recorded (h : CompletesItem bound item fits G) :
    RecordedItem bound item fits (clean G) := by
  refine ⟨h.1.clean, ?_⟩
  rintro w o _ k ⟨s, rfl, rfl, hs⟩ hk hb
  exact .of_takes (h.2 ⟨s, rfl, hs⟩ hk hb)

theorem function_complete (what : Callable) (hp : CompletesItem bound item fits G) :
    Completes bound (function bound what item) fits [] (Grammar.Function G) :=
  .of_recorded (function_recorded what hp.recorded) (function_includes clean_includes)

section Header

variable {expression : Parse Expr} {E : Phrase Expr} (hE : Starts expressionStarts E)
  (he : Completes bound expression fits expressionStops E)
include hE he

theorem forInitializer_complete :
    Completes bound (forInitializer expression) fits [] (Grammar.Initializer E) :=
  .of_recorded (forInitializer_recorded hE.clean he.recorded) (initializer_includes clean_includes)

theorem forCondition_complete : Completes bound (forCondition expression) fits [] (Grammar.Condition E) :=
  .of_recorded (forCondition_recorded hE.clean he.recorded) (condition_includes clean_includes)

theorem forIncrement_complete : Completes bound (forIncrement expression) fits [] (Grammar.Increment E) :=
  .of_recorded (forIncrement_recorded hE.clean he.recorded) (increment_includes clean_includes)

end Header

def CompletesStatement (bound : Nat) (p : Parse Stmt) (fits : Prop) (S : Bool → Phrase Stmt) :
    Prop :=
  ∀ ⦃w s k dangling⦄, S dangling w s → (dangling = true → Ends [.elseWord] k) →
    (w ++ k).length ≤ bound → Takes p fits (w ++ k) s k

theorem statement_complete (depth room : Nat) :
    CompletesStatement bound (Parse.statement bound room) (depth ≤ room) (Grammar.Statement depth) :=
  fun _ _ _ dangling h hk hb ↦
    (statement_recorded depth room (statement_includes depth dangling h) hk hb).takes

theorem declaration_complete (depth room : Nat) : Completes bound (declaration bound room)
    (depth ≤ room) [.elseWord] fun w o ↦ ∃ s, o = some s ∧ Grammar.Declaration depth w s :=
  .of_recorded (declaration_recorded depth room) fun _ _ ⟨s, ho, h⟩ ↦
    ⟨s, ho, declaration_includes depth h⟩

/-- What is derived is read up to the end, or there is a complaint that it nests too deep, which there
is not if it fits. -/
theorem declarations_complete (room : Nat) (last : Token) {depth : Nat} {w : List Token} {ss : List Stmt}
    (h : Grammar.Sequence (Grammar.Declaration depth) w ss) (rounds : Nat) (done : Array Stmt)
    (faults : Array Diagnostic) (hb : w.length ≤ bound) (hr : ss.length ≤ rounds) :
    declarations bound room rounds done ⟨w, last, faults⟩ = (done ++ ss.toArray, ⟨[], last, faults⟩) ∨
      ¬depth ≤ room ∧ ∃ d ∈ (declarations bound room rounds done ⟨w, last, faults⟩).2.faults,
        nests d := by
  simpa using declarations_recorded room last (sequence_includes (declaration_includes depth) h)
    rounds done faults hb hr

end Statements

end TreeWalk.Parse
