import Mathlib.Order.Filter.AtTopBot.Basic
import TreeWalk.Proofs.Grammar.Contained

namespace TreeWalk.Parse.Places

open Filter

section Steps

variable (tokens : List Token)

def atEnd? (i : Nat) : Option Bool := (tokens[i]?).map (·.kind == .eof)

/-- The token before a place. What is before the first one is the last of the list. -/
def previous? (i : Nat) : Option Token := if i = 0 then tokens.getLast? else tokens[i - 1]?

/-- Goes one place on, but not past an end marker. Gives the token before the place where that ends. -/
def advance? (i : Nat) : Option (Token × Nat) := do
  let j := if ← atEnd? tokens i then i else i + 1
  return (← previous? tokens j, j)

/-- Whether the token at a place is of a kind, which no end marker is. -/
def check? (kind : Kind) (i : Nat) : Option Bool := do
  if ← atEnd? tokens i then return false else return (← tokens[i]?).kind == kind

def accept? (wanted : Kind → Bool) (i : Nat) : Option (Option Token × Nat) := do
  if ← atEnd? tokens i then return (none, i)
  else if wanted (← tokens[i]?).kind then
    let (t, j) ← advance? tokens i
    return (some t, j)
  else return (none, i)

def resume? (tokens : List Token) (i : Nat) : Option Nat :=
  match _h : tokens[i]? with
  | none => none
  | some t =>
    if t.kind == .eof then some i
    else match previous? tokens i with
      | none => none
      | some previous =>
        if previous.kind == .semicolon || startsStatement t.kind then some i else resume? tokens (i + 1)
termination_by tokens.length - i
decreasing_by
  have := (List.getElem?_eq_some_iff.mp _h).1
  omega

def synchronize? (i : Nat) : Option Nat := do resume? tokens (← advance? tokens i).2

end Steps

/-- How a reading ends: with what it gives and the place behind it, left for a reason at a place, or with a
look outside the list. -/
inductive Ending (α : Type) where
  | ok (a : α) (place : Nat) (faults : Array Diagnostic)
  | left (stop : Stop) (place : Nat) (faults : Array Diagnostic)
  | outside

def Ending.ofStep {α : Type} (o : Option (α × Nat)) (faults : Array Diagnostic) : Ending α :=
  match o with
  | some (a, i) => .ok a i faults
  | none => .outside

def Ending.recovered {α : Type} (tokens : List Token) : Ending α → Ending (Option α)
  | .ok a i faults => .ok (some a) i faults
  | .left .mistake i faults => .ofStep ((synchronize? tokens i).map (none, ·)) faults
  | .left .tooDeep i faults => .left .tooDeep i faults
  | .outside => .outside

/-- What a production does from a place on. It is taken with all bounds for its loops at once, and only large
ones count. So a loop has an ending only if it comes to it by itself: no number of rounds uses up all bounds. -/
inductive Runs (tokens : List Token) :
    {α : Type} → (Nat → Parse α) → Nat → Array Diagnostic → Ending α → Prop
  | pure {α} (a : α) (i fs) : Runs tokens (fun _ ↦ pure a) i fs (.ok a i fs)
  | throw {α} (stop i fs) : Runs tokens (fun _ ↦ (throw stop : Parse α)) i fs (.left stop i fs)
  | bind {α β i fs j gs} {p : Nat → Parse α} {f : Nat → α → Parse β} {a e} :
      Runs tokens p i fs (.ok a j gs) → Runs tokens (fun b ↦ f b a) j gs e →
        Runs tokens (fun b ↦ p b >>= f b) i fs e
  | bindLeft {α β i fs j gs} {p : Nat → Parse α} {f : Nat → α → Parse β} {stop} :
      Runs tokens p i fs (.left stop j gs) → Runs tokens (fun b ↦ p b >>= f b) i fs (.left stop j gs)
  | bindOutside {α β i fs} {p : Nat → Parse α} {f : Nat → α → Parse β} :
      Runs tokens p i fs .outside → Runs tokens (fun b ↦ p b >>= f b) i fs .outside
  | complain (t c i fs) : Runs tokens (fun _ ↦ complain t c) i fs (.ok () i (fs.push (.atToken t c)))
  | peek (i fs) : Runs tokens (fun _ ↦ peek) i fs (.ofStep ((tokens[i]?).map (·, i)) fs)
  | atEnd (i fs) : Runs tokens (fun _ ↦ atEnd) i fs (.ofStep ((atEnd? tokens i).map (·, i)) fs)
  | check (kind i fs) : Runs tokens (fun _ ↦ check kind) i fs (.ofStep ((check? tokens kind i).map (·, i)) fs)
  | accept (wanted i fs) :
      Runs tokens (fun _ ↦ Parse.accept? wanted) i fs (.ofStep (accept? tokens wanted i) fs)
  | recovering {α i fs} {p : Nat → Parse α} {e} :
      Runs tokens p i fs e → Runs tokens (fun b ↦ recovering (p b)) i fs (e.recovered tokens)
  | large {α i fs} {p q : Nat → Parse α} {e} :
      (∀ᶠ b in atTop, q b = p b) → Runs tokens p i fs e → Runs tokens q i fs e

/-- How the reading of all tokens ends: with a program, with a mistake that is in no declaration, or with a look
outside the list. -/
inductive Outcome where
  | program (p : Program)
  | mistake
  | outside

/-- The rounds at top level from a place on, after some statements and complaints. A declaration that nests
too deep is complained about at the token where it was left. -/
inductive Rounds (tokens : List Token) (room : Nat) :
    Nat → Array Stmt → Array Diagnostic → Outcome → Prop
  | done {i ss fs} : atEnd? tokens i = some true → Rounds tokens room i ss fs (.program ⟨ss.toList, fs.toList⟩)
  | outside {i ss fs} : atEnd? tokens i = none → Rounds tokens room i ss fs .outside
  | entry {i ss fs s j gs o} : atEnd? tokens i = some false →
      Runs tokens (declaration · room) i fs (.ok s j gs) →
      Rounds tokens room j (ss ++ s.toArray) gs o → Rounds tokens room i ss fs o
  | tooDeep {i ss fs j gs t k o} : atEnd? tokens i = some false →
      Runs tokens (declaration · room) i fs (.left .tooDeep j gs) →
      tokens[j]? = some t → synchronize? tokens j = some k →
      Rounds tokens room k ss (gs.push (.atToken t .nestingTooDeep)) o → Rounds tokens room i ss fs o
  | tooDeepOutside {i ss fs j gs} : atEnd? tokens i = some false →
      Runs tokens (declaration · room) i fs (.left .tooDeep j gs) →
      tokens[j]? = none ∨ synchronize? tokens j = none → Rounds tokens room i ss fs .outside
  | mistake {i ss fs j gs} : atEnd? tokens i = some false →
      Runs tokens (declaration · room) i fs (.left .mistake j gs) → Rounds tokens room i ss fs .mistake
  | entryOutside {i ss fs} : atEnd? tokens i = some false →
      Runs tokens (declaration · room) i fs .outside → Rounds tokens room i ss fs .outside

/-- What comes of tokens that are read from the first place on. -/
def ComesTo (tokens : List Token) (room : Nat) (o : Outcome) : Prop := Rounds tokens room 0 #[] #[] o

/-- Some words are all there is before the first end marker, or all there is. -/
structure Before (words : List Token) (last : Token) (tokens : List Token) : Prop where
  lead : words <+: tokens
  unended : ∀ t ∈ words, t.kind ≠ .eof
  ends : ∀ t ∈ tokens[words.length]?, t = last ∧ t.kind = .eof

variable {α β : Type} {tokens words : List Token} {last : Token} {i j : Nat} {fs gs : Array Diagnostic}

/-- What is at a place that is not behind the words. -/
inductive At (words : List Token) (last : Token) (tokens : List Token) (i : Nat) : Prop
  | word {t : Token} : i < words.length → tokens[i]? = some t → t.kind ≠ .eof →
      words.drop i = t :: words.drop (i + 1) → At words last tokens i
  | marker : i = words.length → tokens[i]? = some last → last.kind = .eof → words.drop i = [] →
      At words last tokens i
  | nothing : i = words.length → tokens[i]? = none → At words last tokens i

theorem Before.at (h : Before words last tokens) (hi : i ≤ words.length) : At words last tokens i := by
  rcases Nat.lt_or_eq_of_le hi with hlt | rfl
  · have hget : tokens[i]? = some words[i] := by
      obtain ⟨after, rfl⟩ := h.lead
      rw [List.getElem?_append_left hlt, List.getElem?_eq_getElem hlt]
    exact .word hlt hget (h.unended _ (List.getElem_mem hlt)) (List.drop_eq_getElem_cons hlt)
  · cases hget : tokens[words.length]? with
    | none => exact .nothing rfl hget
    | some t =>
      obtain ⟨rfl, hkind⟩ := h.ends t hget
      exact .marker rfl hget hkind (List.drop_length)

/-- The productions end with the words up to the end marker as the reading by places does. -/
def Ending.Agrees (words : List Token) (last : Token) (tokens : List Token) (p : Nat → Parse α) (i : Nat)
    (fs : Array Diagnostic) : Ending α → Prop
  | .ok a j gs => j ≤ words.length ∧
      ∀ᶠ b in atTop, p b ⟨words.drop i, last, fs⟩ = .ok a ⟨words.drop j, last, gs⟩
  | .left stop j gs => j ≤ words.length ∧
      ∀ᶠ b in atTop, p b ⟨words.drop i, last, fs⟩ = .error stop ⟨words.drop j, last, gs⟩
  | .outside => tokens[words.length]? = none

section Steps

variable (h : Before words last tokens) (hi : i ≤ words.length)
include h hi

theorem peek_of_place {t : Token} (ht : tokens[i]? = some t) : Cursor.peek ⟨words.drop i, last, fs⟩ = t := by
  rcases h.at hi with ⟨-, hget, -, hdrop⟩ | ⟨-, hget, -, hdrop⟩ | ⟨-, hget⟩
  · rw [Cursor.peek, hdrop, List.headD_cons]
    exact Option.some.inj (hget.symm.trans ht)
  · rw [Cursor.peek, hdrop, List.headD_nil]
    exact Option.some.inj (hget.symm.trans ht)
  · cases hget.symm.trans ht

theorem none_of_place (ht : tokens[i]? = none) : tokens[words.length]? = none := by
  rcases h.at hi with ⟨-, hget, -⟩ | ⟨-, hget, -⟩ | ⟨rfl, hget⟩
  · cases hget.symm.trans ht
  · cases hget.symm.trans ht
  · exact hget

theorem peek_agrees :
    (Ending.ofStep ((tokens[i]?).map (·, i)) fs).Agrees words last tokens (fun _ ↦ peek) i fs := by
  cases ht : tokens[i]? with
  | none => exact none_of_place h hi ht
  | some t =>
    refine ⟨hi, .of_forall fun _ ↦ ?_⟩
    show EStateM.Result.ok (Cursor.peek _) _ = _
    rw [peek_of_place h hi ht]

theorem atEnd_agrees :
    (Ending.ofStep ((atEnd? tokens i).map (·, i)) fs).Agrees words last tokens (fun _ ↦ atEnd) i fs := by
  rcases h.at hi with ⟨-, hget, hkind, hdrop⟩ | ⟨-, hget, hkind, hdrop⟩ | ⟨rfl, hget⟩
  · simp only [atEnd?, hget]
    refine ⟨hi, .of_forall fun _ ↦ ?_⟩
    show EStateM.Result.ok (List.isEmpty _) _ = _
    simp [hdrop, hkind]
  · simp only [atEnd?, hget]
    refine ⟨hi, .of_forall fun _ ↦ ?_⟩
    show EStateM.Result.ok (List.isEmpty _) _ = _
    simp [hdrop, hkind]
  · simp only [atEnd?, hget]
    exact hget

theorem check_agrees (kind : Kind) :
    (Ending.ofStep ((check? tokens kind i).map (·, i)) fs).Agrees words last tokens
      (fun _ ↦ check kind) i fs := by
  rcases h.at hi with ⟨-, hget, hkind, hdrop⟩ | ⟨-, hget, hkind, hdrop⟩ | ⟨rfl, hget⟩
  · rename_i t
    have hfound : check? tokens kind i = some (t.kind == kind) := by simp [check?, atEnd?, hget, hkind]
    rw [hfound]
    refine ⟨hi, .of_forall fun _ ↦ ?_⟩
    show EStateM.Result.ok (Option.any _ _) _ = _
    simp [hdrop]
  · have hfound : check? tokens kind i = some false := by simp [check?, atEnd?, hget, hkind]
    rw [hfound]
    refine ⟨hi, .of_forall fun _ ↦ ?_⟩
    show EStateM.Result.ok (Option.any _ _) _ = _
    simp [hdrop]
  · have hfound : check? tokens kind words.length = none := by simp [check?, atEnd?, hget]
    rw [hfound]
    exact hget

theorem accept_agrees (wanted : Kind → Bool) :
    (Ending.ofStep (accept? tokens wanted i) fs).Agrees words last tokens
      (fun _ ↦ Parse.accept? wanted) i fs := by
  rcases h.at hi with ⟨hlt, hget, hkind, hdrop⟩ | ⟨-, hget, hkind, hdrop⟩ | ⟨rfl, hget⟩
  · rename_i t
    cases hwanted : wanted t.kind with
    | true =>
      have hfound : accept? tokens wanted i = some (some t, i + 1) := by
        simp [accept?, advance?, previous?, atEnd?, hget, hkind, hwanted]
      rw [hfound]
      refine ⟨hlt, .of_forall fun _ ↦ ?_⟩
      simp [Parse.accept?, hdrop, hwanted]
    | false =>
      have hfound : accept? tokens wanted i = some (none, i) := by
        simp [accept?, atEnd?, hget, hwanted]
      rw [hfound]
      refine ⟨hi, .of_forall fun _ ↦ ?_⟩
      simp [Parse.accept?, hdrop, hwanted]
  · have hfound : accept? tokens wanted i = some (none, i) := by simp [accept?, atEnd?, hget, hkind]
    rw [hfound]
    refine ⟨hi, .of_forall fun _ ↦ ?_⟩
    simp [Parse.accept?, hdrop]
  · have hfound : accept? tokens wanted words.length = none := by simp [accept?, atEnd?, hget]
    rw [hfound]
    exact hget

end Steps

theorem exists_previous? (hi : i < tokens.length) : ∃ t, previous? tokens i = some t := by
  unfold previous?
  split
  · exact ⟨tokens.getLast (List.ne_nil_of_length_pos (by omega)), List.getLast?_eq_some_getLast _⟩
  · exact ⟨tokens[i - 1], List.getElem?_eq_getElem (by omega)⟩

theorem resume?_of_none (hi : tokens[i]? = none) : resume? tokens i = none := by
  unfold resume?
  split <;> simp_all

theorem resume?_of_marker {t : Token} (hi : tokens[i]? = some t) (hkind : t.kind = .eof) :
    resume? tokens i = some i := by
  unfold resume?
  split <;> simp_all

theorem resume?_of_word {t t' : Token} (hi : tokens[i]? = some t) (hi' : tokens[i + 1]? = some t')
    (hkind : t'.kind ≠ .eof) : resume? tokens (i + 1) =
      if t.kind == .semicolon || startsStatement t'.kind then some (i + 1) else resume? tokens (i + 2) := by
  have hprevious : previous? tokens (i + 1) = some t := by simpa [previous?] using hi
  rw [resume?]
  split <;> simp_all

theorem resume_agrees (h : Before words last tokens) {t : Token} {w : List Token} (hi : tokens[i]? = some t)
    (hdrop : words.drop (i + 1) = w) (hlt : i < words.length) :
    match resume? tokens (i + 1) with
    | some k => k ≤ words.length ∧ resume t w = words.drop k
    | none => tokens[words.length]? = none := by
  induction w generalizing i t with
  | nil =>
    have hlen : i + 1 = words.length := by
      have := List.drop_eq_nil_iff.mp hdrop
      omega
    rcases h.at (Nat.le_of_eq hlen) with ⟨hlt, -⟩ | ⟨-, hget, hkind, -⟩ | ⟨-, hget⟩
    · omega
    · rw [resume?_of_marker hget hkind]
      exact ⟨hlt, hdrop.symm⟩
    · rw [resume?_of_none hget]
      rwa [hlen] at hget
  | cons t' w ih =>
    rcases h.at hlt with ⟨hlt', hget, hkind, hword⟩ | ⟨-, -, -, hnil⟩ | ⟨hlen, -⟩
    · obtain ⟨rfl, hw⟩ := List.cons.inj (hdrop.symm.trans hword)
      rw [resume?_of_word hi hget hkind]
      unfold resume
      by_cases hboundary : (t.kind == .semicolon || startsStatement t'.kind) = true
      · rw [if_pos hboundary, if_pos hboundary]
        exact ⟨hlt, hdrop.symm⟩
      · rw [if_neg hboundary, if_neg hboundary]
        exact ih hget hw.symm hlt'
    · cases hnil.symm.trans hdrop
    · have hnil : words.drop (i + 1) = [] := List.drop_eq_nil_of_le (Nat.le_of_eq hlen.symm)
      cases hnil.symm.trans hdrop

/-- After a mistake reading goes on where it does with the words. -/
theorem synchronize_agrees (h : Before words last tokens) (hi : i ≤ words.length) :
    match synchronize? tokens i with
    | some k => k ≤ words.length ∧ afterMistake (words.drop i) = words.drop k
    | none => tokens[words.length]? = none := by
  rcases h.at hi with ⟨hlt, hget, hkind, hdrop⟩ | ⟨rfl, hget, hkind, hdrop⟩ | ⟨rfl, hget⟩
  · rename_i t
    have hgo : synchronize? tokens i = resume? tokens (i + 1) := by
      simp [synchronize?, advance?, atEnd?, previous?, hget, hkind]
    rw [hgo, hdrop]
    exact resume_agrees h hget rfl hlt
  · obtain ⟨previous, hprevious⟩ := exists_previous? (List.getElem?_eq_some_iff.mp hget).1
    have hgo : synchronize? tokens words.length = some words.length := by
      simp [synchronize?, advance?, atEnd?, hget, hkind, hprevious, resume?_of_marker]
    rw [hgo]
    exact ⟨hi, by rw [hdrop, afterMistake]⟩
  · have hgo : synchronize? tokens words.length = none := by simp [synchronize?, advance?, atEnd?, hget]
    rw [hgo]
    exact hget

theorem Ending.Agrees.recovered (h : Before words last tokens) {p : Nat → Parse α} {e : Ending α}
    (hp : e.Agrees words last tokens p i fs) :
    (e.recovered tokens).Agrees words last tokens (fun b ↦ recovering (p b)) i fs := by
  have hgo {r : EStateM.Result Stop Cursor α} {r' : EStateM.Result Stop Cursor (Option α)}
      (hr : ∀ b, p b ⟨words.drop i, last, fs⟩ = r → recovering (p b) ⟨words.drop i, last, fs⟩ = r')
      (hp : ∀ᶠ b in atTop, p b ⟨words.drop i, last, fs⟩ = r) :
      ∀ᶠ b in atTop, recovering (p b) ⟨words.drop i, last, fs⟩ = r' := hp.mono hr
  rcases e with ⟨a, j, gs⟩ | ⟨stop, j, gs⟩ | _
  · exact ⟨hp.1, hgo (fun b hb ↦ by rw [recovering, hb]) hp.2⟩
  · obtain ⟨hj, hp⟩ := hp
    cases stop with
    | tooDeep => exact ⟨hj, hgo (fun b hb ↦ by rw [recovering, hb]) hp⟩
    | mistake =>
      have hafter := synchronize_agrees h hj
      rw [Ending.recovered]
      cases hsync : synchronize? tokens j with
      | none =>
        rw [hsync] at hafter
        exact hafter
      | some k =>
        rw [hsync] at hafter
        refine ⟨hafter.1, hgo (fun b hb ↦ ?_) hp⟩
        rw [recovering, hb, ← hafter.2]
  · exact hp

theorem Ending.Agrees.bind {p : Nat → Parse α} {f : Nat → α → Parse β} {a : α} {e : Ending β}
    (hp : (Ending.ok a j gs).Agrees words last tokens p i fs)
    (hf : e.Agrees words last tokens (f · a) j gs) :
    e.Agrees words last tokens (fun b ↦ p b >>= f b) i fs := by
  rcases e with ⟨b, k, hs⟩ | ⟨stop, k, hs⟩ | _
  · exact ⟨hf.1, (hp.2.and hf.2).mono fun _ h ↦ bind_eq_ok.mpr ⟨a, _, h⟩⟩
  · exact ⟨hf.1, (hp.2.and hf.2).mono fun _ h ↦ bind_eq_error.mpr (.inr ⟨a, _, h⟩)⟩
  · exact hf

theorem Ending.Agrees.large {p q : Nat → Parse α} {e : Ending α} (h : ∀ᶠ b in atTop, q b = p b)
    (hp : e.Agrees words last tokens p i fs) : e.Agrees words last tokens q i fs := by
  rcases e with ⟨a, j, gs⟩ | ⟨stop, j, gs⟩ | _
  · exact ⟨hp.1, (h.and hp.2).mono fun b hb ↦ hb.1 ▸ hb.2⟩
  · exact ⟨hp.1, (h.and hp.2).mono fun b hb ↦ hb.1 ▸ hb.2⟩
  · exact hp

theorem Runs.agrees (h : Before words last tokens) {p : Nat → Parse α} {e : Ending α}
    (hrun : Runs tokens p i fs e) (hi : i ≤ words.length) : e.Agrees words last tokens p i fs := by
  induction hrun with
  | pure a i fs => exact ⟨hi, .of_forall fun _ ↦ rfl⟩
  | throw stop i fs => exact ⟨hi, .of_forall fun _ ↦ rfl⟩
  | complain t c i fs => exact ⟨hi, .of_forall fun _ ↦ rfl⟩
  | peek i fs => exact peek_agrees h hi
  | atEnd i fs => exact atEnd_agrees h hi
  | check kind i fs => exact check_agrees h hi kind
  | accept wanted i fs => exact accept_agrees h hi wanted
  | bind _ _ ihp ihf => exact (ihp hi).bind (ihf (ihp hi).1)
  | bindLeft _ ih => exact ⟨(ih hi).1, (ih hi).2.mono fun _ hp ↦ bind_eq_error.mpr (.inl hp)⟩
  | bindOutside _ ih => exact ih hi
  | recovering _ ih => exact (ih hi).recovered h
  | large hlarge _ ih => exact (ih hi).large hlarge

theorem declaration_ne_mistake (bound room : Nat) (c c' : Cursor) :
    declaration bound room c ≠ .error .mistake c' := by
  intro he
  unfold declaration at he
  split at he
  · unfold recovering at he
    split at he <;> cases he
  · cases he

def Outcome.Agrees (words : List Token) (last : Token) (tokens : List Token) (room i : Nat) (ss : Array Stmt)
    (fs : Array Diagnostic) : Outcome → Prop
  | .program p => tokens[words.length]? = some last ∧ ∀ k, ∀ᶠ b in atTop,
      ∃ ss' gs, declarations b room (b - k) ss ⟨words.drop i, last, fs⟩ = (ss', ⟨[], last, gs⟩) ∧
        p = ⟨ss'.toList, gs.toList⟩
  | .mistake => False
  | .outside => tokens[words.length]? = none

theorem eventually_sub (k : Nat) : ∀ᶠ b in atTop, b - k = b - (k + 1) + 1 :=
  (eventually_gt_atTop k).mono fun b hb ↦ by omega

theorem Outcome.Agrees.round {room : Nat} {ss : Array Stmt} {o : Outcome} {ss' : Array Stmt}
    (hne : words.drop i ≠ [])
    (hentry : ∀ᶠ b in atTop, entry b room ⟨words.drop i, last, fs⟩ = (ss', ⟨words.drop j, last, gs⟩))
    (ho : o.Agrees words last tokens room j (ss ++ ss') gs) :
    o.Agrees words last tokens room i ss fs := by
  cases o with
  | mistake => exact ho
  | outside => exact ho
  | program p =>
    refine ⟨ho.1, fun k ↦ ?_⟩
    filter_upwards [eventually_sub k, hentry, ho.2 (k + 1)] with b hb hentry hrest
    rwa [hb, declarations_succ hne, hentry]

/-- What comes of the rounds from a place on is what comes of the words from there on. -/
theorem Rounds.agrees (h : Before words last tokens) {room : Nat} {ss : Array Stmt} {o : Outcome}
    (hrounds : Rounds tokens room i ss fs o) (hi : i ≤ words.length) :
    o.Agrees words last tokens room i ss fs := by
  have hword {i : Nat} (hi : i ≤ words.length) (hend : atEnd? tokens i = some false) :
      words.drop i ≠ [] := by
    rcases h.at hi with ⟨-, -, -, hdrop⟩ | ⟨-, hget, hkind, -⟩ | ⟨-, hget⟩
    · simp [hdrop]
    · simp [atEnd?, hget, hkind] at hend
    · simp [atEnd?, hget] at hend
  induction hrounds with
  | @done i ss fs hend =>
    rcases h.at hi with ⟨-, hget, hkind, -⟩ | ⟨rfl, hget, -, hdrop⟩ | ⟨-, hget⟩
    · simp [atEnd?, hget, hkind] at hend
    · refine ⟨hget, fun k ↦ .of_forall fun b ↦ ⟨ss, fs, ?_, rfl⟩⟩
      rw [hdrop, declarations_nil]
    · simp [atEnd?, hget] at hend
  | outside hend => exact none_of_place h hi (by simpa [atEnd?] using hend)
  | entry hend hrun _ ih =>
    obtain ⟨hj, hp⟩ := hrun.agrees h hi
    refine .round (hword hi hend) (hp.mono fun b (hb : declaration b room _ = _) ↦ ?_) (ih hj)
    rw [Parse.entry, hb]
  | @tooDeep i ss fs j gs t k o hend hrun ht hsync _ ih =>
    obtain ⟨hj, hp⟩ := hrun.agrees h hi
    have hafter := synchronize_agrees h hj
    rw [hsync] at hafter
    have hrest := ih hafter.1
    rw [← ss.append_empty] at hrest
    refine .round (hword hi hend) (hp.mono fun b (hb : declaration b room _ = _) ↦ ?_) hrest
    rw [Parse.entry, hb, ← hafter.2]
    dsimp only
    rw [peek_of_place h hj ht]
  | tooDeepOutside _ hrun hout =>
    obtain ⟨hj, -⟩ := hrun.agrees h hi
    rcases hout with hout | hout
    · exact none_of_place h hj hout
    · have hafter := synchronize_agrees h hj
      rwa [hout] at hafter
  | mistake _ hrun =>
    obtain ⟨-, hp⟩ := hrun.agrees h hi
    obtain ⟨b, hb⟩ := hp.exists
    exact declaration_ne_mistake _ _ _ _ hb
  | entryOutside _ hrun => exact hrun.agrees h hi

/-- What comes of tokens is the reading of the words before their end marker, if they have one. -/
theorem ComesTo.eq (h : Before words last tokens) {room : Nat} {o : Outcome} (ho : ComesTo tokens room o) :
    o = if tokens[words.length]? = none then .outside else .program (Program.ofWords room words last) := by
  have hagrees := Rounds.agrees h ho (Nat.zero_le _)
  cases o with
  | mistake => exact hagrees.elim
  | outside => exact (if_pos hagrees).symm
  | program p =>
    obtain ⟨hlast, hread⟩ := hagrees
    obtain ⟨b, hb, ss, gs, hwords, rfl⟩ := ((eventually_ge_atTop words.length).and (hread 0)).exists
    have hall := hwords.symm.trans (Program.declarations_last hb hb #[] #[])
    rw [if_neg (by simp [hlast])]
    obtain ⟨hss, hgs⟩ := Prod.mk.inj hall
    simp [hss, (Cursor.mk.inj hgs).2.2]

end TreeWalk.Parse.Places
