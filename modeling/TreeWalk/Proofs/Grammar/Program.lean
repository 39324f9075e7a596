import Mathlib.Data.List.TakeDrop
import TreeWalk.Proofs.Grammar.Complete

namespace TreeWalk.Program

open Parse Grammar

variable {room : Nat} {words : List Token} {last : Token}

theorem ofWords_sound (h : (ofWords room words last).faults = []) :
    Sequence (Declaration room) words (ofWords room words last).statements := by
  have hne (w : List Token) (s : Stmt) (hs : Declaration room w s) : w ≠ [] := by
    obtain ⟨t, v, rfl, -⟩ := declaration_starts room hs
    simp
  obtain ⟨new, hnew, hseq⟩ := declarations_sound hne words.length #[]
    ⟨words, last, #[]⟩ (Nat.le_refl words.length) (Nat.le_refl _) (by simpa [ofWords] using h)
  have he : (ofWords room words last).statements = new := by simpa [ofWords] using hnew
  rwa [he]

/-- What is derived is read as its statements, or there is a complaint that it nests too deep, which
there is not if the depth is at most the room. -/
theorem ofWords_complete (room : Nat) (last : Token) {depth : Nat} {ss : List Stmt}
    (h : Sequence (Declaration depth) words ss) :
    ofWords room words last = ⟨ss, []⟩ ∨
      ¬depth ≤ room ∧ ∃ d ∈ (ofWords room words last).faults, nests d := by
  have hlen := sequence_length_le (declaration_starts depth) h
  rcases declarations_complete room last h words.length #[] #[] (Nat.le_refl _)
    hlen with h | ⟨hfits, d, hd, hn⟩
  · exact .inl (by simp [ofWords, h])
  · exact .inr ⟨hfits, d, by simpa [ofWords] using hd, hn⟩

theorem ofWords_eq (last : Token) {depth : Nat} {ss : List Stmt}
    (h : Sequence (Declaration depth) words ss) (hroom : depth ≤ room) : ofWords room words last = ⟨ss, []⟩ :=
  (ofWords_complete room last h).resolve_right fun hdeep ↦ hdeep.1 hroom

/-- The grammar is not ambiguous. -/
theorem derives_unique {ss ss' : List Stmt} (h : Derives words ss) (h' : Derives words ss') :
    ss = ss' := by
  obtain ⟨depth, h⟩ := h
  obtain ⟨depth', h'⟩ := h'
  have hread := ofWords_eq ⟨.eof, "", .nil, 1⟩ h (Nat.le_max_left depth depth')
  have hread' := ofWords_eq ⟨.eof, "", .nil, 1⟩ h' (Nat.le_max_right depth depth')
  exact congrArg Program.statements (hread.symm.trans hread')

theorem ofTokens?_append_cons (hwords : ∀ t ∈ words, t.kind ≠ .eof) (hlast : last.kind = .eof)
    (after : List Token) : ofTokens? room (words ++ last :: after) = some (ofWords room words last) := by
  have hspan : (words ++ last :: after).span (·.kind ≠ .eof) = (words, last :: after) := by
    rw [List.span_eq_takeWhile_dropWhile, List.takeWhile_append_of_pos (by simpa using hwords),
      List.dropWhile_append_of_pos (by simpa using hwords)]
    simp [hlast]
  simp only [ofTokens?, hspan]

theorem ofTokens?_append (hwords : ∀ t ∈ words, t.kind ≠ .eof) (hlast : last.kind = .eof) :
    ofTokens? room (words ++ [last]) = some (ofWords room words last) :=
  ofTokens?_append_cons hwords hlast []

/-- A list of words with an end marker behind it is always read. If nothing nests too deep in it, there
is no complaint just when the words are a program, and the statements are then those of the program. -/
theorem ofTokens?_iff_derives (room : Nat) (words : List Token) (last : Token)
    (hwords : ∀ t ∈ words, t.kind ≠ .eof) (hlast : last.kind = .eof) :
    ∃ p, ofTokens? room (words ++ [last]) = some p ∧
      ((∀ d ∈ p.faults, ¬nests d) →
        ∀ ss, p.faults = [] ∧ p.statements = ss ↔ Derives words ss) := by
  refine ⟨ofWords room words last, ofTokens?_append hwords hlast, fun hdeep ss ↦ ⟨?_, ?_⟩⟩
  · rintro ⟨hclean, rfl⟩
    exact ⟨room, ofWords_sound hclean⟩
  · rintro ⟨depth, h⟩
    rcases ofWords_complete room last h with h | ⟨-, d, hd, hn⟩
    · simp [h]
    · exact absurd hn (hdeep d hd)

def endless : List Token :=
  [⟨.forWord, "for", .nil, 1⟩, ⟨.leftParen, "(", .nil, 1⟩, ⟨.semicolon, ";", .nil, 1⟩,
    ⟨.semicolon, ";", .nil, 1⟩, ⟨.rightParen, ")", .nil, 1⟩, ⟨.printWord, "print", .nil, 1⟩,
    ⟨.nilWord, "nil", .nil, 1⟩, ⟨.semicolon, ";", .nil, 1⟩]

theorem endless_derives :
    Derives endless [.block [.empty, .loop (.literal (.bool true))
      (.block [.print (.literal .nil), .empty])]] := by
  obtain ⟨p, hp, h⟩ := ofTokens?_iff_derives 20 endless ⟨.eof, "", .nil, 1⟩ (by decide) rfl
  obtain rfl : _ = p := Option.some.inj hp
  have hclean : (ofWords 20 endless ⟨.eof, "", .nil, 1⟩).faults = [] := by decide
  exact (h (fun d hd ↦ absurd (hclean ▸ hd) List.not_mem_nil) _).mp ⟨hclean, rfl⟩

section Relaxed

variable {depth : Nat} {ss : List Stmt} {ds : List Diagnostic}

/-- What the relaxed grammar derives is read as its statements with the complaints in it, or there is a
complaint that it nests too deep, which there is not if the depth is at most the room. -/
theorem ofWords_recorded (room : Nat) (last : Token)
    (h : Relaxed.Sequence (Relaxed.Declaration depth) words ss ds) :
    ofWords room words last = ⟨ss, ds⟩ ∨
      ¬depth ≤ room ∧ ∃ d ∈ (ofWords room words last).faults, nests d := by
  have hlen := sequence_size_le (declaration_begins depth) h
  rcases declarations_recorded room last h words.length #[] #[] (Nat.le_refl _) hlen with
    h | ⟨hfits, d, hd, hn⟩
  · exact .inl (by simp [ofWords, h])
  · exact .inr ⟨hfits, d, by simpa [ofWords] using hd, hn⟩

/-- The grammar is the relaxed one where there is nothing to complain about. -/
theorem derives_iff_relaxed : Derives words ss ↔ Relaxed.Derives words ss [] := by
  constructor
  · rintro ⟨depth, h⟩
    exact ⟨depth, Relaxed.sequence_includes (Relaxed.declaration_includes depth) h⟩
  · rintro ⟨depth, h⟩
    have hread := (ofWords_recorded depth ⟨.eof, "", .nil, 1⟩ h).resolve_right fun hdeep ↦
      hdeep.1 (Nat.le_refl _)
    have hsound := ofWords_sound (congrArg Program.faults hread)
    rw [hread] at hsound
    exact ⟨depth, hsound⟩

/-- What the relaxed grammar derives is read statement by statement, and the complaints are those in it, in
every room that is not smaller than its depth, and wherever there is none that it nests too deep. -/
theorem ofTokens?_recorded (room : Nat) (last : Token)
    (h : Relaxed.Sequence (Relaxed.Declaration depth) words ss ds) (hlast : last.kind = .eof) :
    ∃ p, ofTokens? room (words ++ [last]) = some p ∧
      (depth ≤ room ∨ (∀ d ∈ p.faults, ¬nests d) → p = ⟨ss, ds⟩) := by
  have hwords := Relaxed.sequence_unended (Relaxed.declaration_unended depth) h
  refine ⟨ofWords room words last, ofTokens?_append hwords hlast, fun hfits ↦ ?_⟩
  refine (ofWords_recorded room last h).resolve_right ?_
  rintro ⟨hdeep, d, hd, hn⟩
  rcases hfits with hfits | hfits
  · exact hdeep hfits
  · exact hfits d hd hn

def misassigned : List Token :=
  [⟨.nilWord, "nil", .nil, 1⟩] ++ ⟨.equal, "=", .nil, 1⟩ ::
    ([⟨.minus, "-", .nil, 1⟩, ⟨.identifier, "a", .nil, 1⟩] ++ ⟨.equal, "=", .nil, 2⟩ ::
      [⟨.trueWord, "true", .nil, 2⟩]) ++ [⟨.semicolon, ";", .nil, 2⟩]

/-- The inner one of two bad assignments is complained about first. -/
theorem misassigned_recorded :
    let ds : List Diagnostic := [⟨2, .atLexeme "=", .assignmentTarget⟩, ⟨1, .atLexeme "=", .assignmentTarget⟩]
    Relaxed.Sequence (Relaxed.Declaration 17) misassigned [.expression (.literal .nil)] ds ∧
      ofTokens? 20 (misassigned ++ [⟨.eof, "", .nil, 2⟩]) = some ⟨[.expression (.literal .nil)], ds⟩ := by
  intro ds
  have hoperation {depth : Nat} {w : List Token} {e : Expr} (h : Relaxed.Operand depth w e []) :
      Relaxed.Operation (Relaxed.Operand depth) w e [] := .one <| .one <| .one <| .one <| .one <| .one h
  have hword (depth : Nat) {t : Token} {e : Expr} (h : Primary (fun _ _ ↦ False) [t] e) :
      Relaxed.Operand (depth + 4) [t] e [] := Relaxed.Signed.call (.primary (.word h))
  have hminus : Relaxed.Operand 5 [⟨.minus, "-", .nil, 1⟩, ⟨.identifier, "a", .nil, 1⟩]
      (.unary ⟨.minus, "-", .nil, 1⟩ (.var ⟨.identifier, "a", .nil, 1⟩ {})) [] :=
    Relaxed.Signed.sign (.inr rfl) (hword 0 (.name rfl))
  have htrue : Relaxed.Expression 11 [⟨.trueWord, "true", .nil, 2⟩] (.literal (.bool true)) [] :=
    Relaxed.Assignment.operation (hoperation (hword _ (.true rfl)))
  have hnil : Relaxed.Operand 6 [⟨.nilWord, "nil", .nil, 1⟩] (.literal .nil) [] := hword 2 (.nil rfl)
  have hinner := Relaxed.Assignment.invalid (hoperation hminus) rfl
    (show (⟨.equal, "=", .nil, 2⟩ : Token).kind = .equal from rfl) htrue
  have houter := Relaxed.Assignment.invalid (hoperation hnil) rfl
    (show (⟨.equal, "=", .nil, 1⟩ : Token).kind = .equal from rfl) hinner
  have hstatement : Relaxed.Statement 16 false misassigned (.expression (.literal .nil)) ds :=
    Relaxed.Undeclared.expression houter rfl
  have hall : Relaxed.Sequence (Relaxed.Declaration 17) misassigned [.expression (.literal .nil)] ds :=
    .cons (Relaxed.Declared.statement hstatement) .nil
  obtain ⟨p, hp, h⟩ := ofTokens?_recorded 20 ⟨.eof, "", .nil, 2⟩ hall rfl
  exact ⟨hall, hp.trans (congrArg some (h (.inl (by decide))))⟩

end Relaxed

end TreeWalk.Program
