import TreeWalk.Token.Lexer

namespace TreeWalk

/-- A token as the lexer makes them. -/
structure Token.Lexical (t : Token) : Prop where
  word : t.kind ≠ .eof
  name : t.kind = .identifier → t.lexeme ≠ "this"
  this : t.kind = .thisWord → t.lexeme = "this"

def Kind.markKinds : List Kind :=
  [.leftParen, .rightParen, .leftBrace, .rightBrace, .comma, .dot, .minus, .plus, .semicolon, .slash,
    .star, .bang, .bangEqual, .equal, .equalEqual, .greater, .greaterEqual, .less, .lessEqual, .number,
    .string]

theorem Token.lexical_of_mark {kind : Kind} (h : kind ∈ Kind.markKinds) (lexeme : String)
    (literal : Scalar) (line : Int) : Token.Lexical ⟨kind, lexeme, literal, line⟩ := by
  have hmarks : ∀ k ∈ Kind.markKinds, k ≠ .eof ∧ k ≠ .identifier ∧ k ≠ .thisWord := by decide
  obtain ⟨heof, hname, hthis⟩ := hmarks kind h
  exact ⟨heof, fun h ↦ absurd h hname, fun h ↦ absurd h hthis⟩

theorem Kind.ofWord_eq {word : String} {kind : Kind} (h : ofWord word = kind)
    (hkind : kind ≠ .identifier) : (word, kind) ∈ keywords := by
  unfold ofWord at h
  cases hl : keywords.lookup word with
  | none =>
    rw [hl] at h
    exact absurd h.symm hkind
  | some k =>
    rw [hl] at h
    obtain rfl : k = kind := h
    obtain ⟨l₁, l₂, hl, -⟩ := List.lookup_eq_some_iff.mp hl
    rw [hl]
    simp

theorem Token.lexical_ofWord (word : String) (literal : Scalar) (line : Int) :
    Token.Lexical ⟨.ofWord word, word, literal, line⟩ where
  word h := by
    have hk : ∀ p ∈ Kind.keywords, p.2 ≠ .eof := by decide
    exact hk _ (Kind.ofWord_eq h (by decide)) rfl
  name h := by
    rintro rfl
    exact absurd (show Kind.ofWord "this" = .identifier from h) (by decide)
  this h := by
    have hk : ∀ p ∈ Kind.keywords, p.2 = .thisWord → p.1 = "this" := by decide
    exact hk _ (Kind.ofWord_eq h (by decide)) rfl

namespace Piece

def Lexical : Piece → Prop
  | word kind lexeme literal => ∀ line, Token.Lexical ⟨kind, String.ofList lexeme, literal, line⟩
  | _ => True

theorem number_lexical (c : Char) (rest : List Char) : (number c rest).1.Lexical :=
  fun line ↦ Token.lexical_of_mark (by decide) _ _ line

theorem string_lexical (rest : List Char) : (string rest).1.Lexical := by
  unfold string
  split
  · trivial
  · exact fun line ↦ Token.lexical_of_mark (by decide) _ _ line

theorem single?_mem {c : Char} {kind : Kind} (h : single? c = some kind) :
    kind ∈ Kind.markKinds := by
  unfold single? at h
  split at h <;> cases h <;> decide

theorem withEqual?_mem {c : Char} {kind : Kind} (h : withEqual? c = some kind) :
    kind ∈ Kind.markKinds := by
  unfold withEqual? at h
  split at h <;> cases h <;> decide

theorem mark_lexical (c : Char) (rest : List Char) : (mark c rest).1.Lexical := by
  unfold mark
  split
  · next h => exact fun line ↦ Token.lexical_of_mark (withEqual?_mem h) _ _ line
  · next h _ => exact fun line ↦ Token.lexical_of_mark (single?_mem h) _ _ line
  · trivial

theorem next_lexical (c : Char) (rest : List Char) : (next c rest).1.Lexical := by
  unfold next
  split
  · trivial
  split
  · exact fun line ↦ Token.lexical_ofWord _ _ line
  split
  · exact number_lexical c rest
  split
  · exact string_lexical rest
  split
  · trivial
  · exact mark_lexical c _

theorem cutAfter_lexical (done : List Piece) (text : List Char) (h : ∀ p ∈ done, p.Lexical) :
    ∀ p ∈ cutAfter done text, p.Lexical := by
  fun_induction cutAfter done text with
  | case1 done => simpa using h
  | case2 done c rest ih => exact ih (by simpa using ⟨next_lexical c rest, h⟩)

end Piece

namespace Scan

theorem read_lexical {p : Progress} {piece : Piece} (hpiece : piece.Lexical)
    (hp : ∀ t ∈ p.words, t.Lexical) : ∀ t ∈ (p.read piece).words, t.Lexical := by
  cases piece with
  | word kind lexeme literal =>
    intro t ht
    rcases Array.mem_push.mp ht with ht | rfl
    · exact hp t ht
    · exact hpiece p.line
  | _ => exact hp

theorem foldl_lexical {pieces : List Piece} (h : ∀ p ∈ pieces, p.Lexical) (p : Progress)
    (hp : ∀ t ∈ p.words, t.Lexical) : ∀ t ∈ (pieces.foldl Progress.read p).words, t.Lexical := by
  induction pieces generalizing p with
  | nil => exact hp
  | cons piece pieces ih =>
    exact ih (fun q hq ↦ h q (.tail _ hq)) _ (read_lexical (h piece (.head _)) hp)

theorem ofText_lexical (text : String) : ∀ t ∈ (ofText text).words, t.Lexical := by
  have hpieces : ∀ p ∈ Piece.cut text.toList, p.Lexical := Piece.cutAfter_lexical [] _ (by simp)
  intro t ht
  refine foldl_lexical hpieces {} (by simp) t ?_
  simpa [ofText, Progress.finish] using ht

end Scan

end TreeWalk
