import TreeWalk.Proofs.Token.Placed

namespace TreeWalk

/-- The characters of a word, with the kind and the literal that the lexical grammar gives them. -/
structure Lexeme where
  text : List Char
  kind : Kind
  literal : Scalar
  formed : (Piece.word kind text literal).Formed

/-- Blanks, and comments each with the line feed that ends it. -/
inductive Filler : List Char → Prop
  | nil : Filler []
  | blank {c : Char} {rest : List Char} : Piece.isBlank c = true → Filler rest → Filler (c :: rest)
  | comment {body rest : List Char} :
      '\n' ∉ body → Filler rest → Filler ('/' :: '/' :: (body ++ '\n' :: rest))

/-- What may stand beside a word. The blank at the start keeps the word apart from a comment. -/
structure Spacing where
  text : List Char
  filler : Filler text
  apart : ∃ c ∈ text.head?, Piece.isBlank c = true

/-- Words with the gap before the first, and each with the gap behind it. -/
structure Layout where
  lead : Spacing
  words : List (Lexeme × Spacing)

namespace Lexeme

def token (l : Lexeme) (before : List Char) : Token :=
  ⟨l.kind, String.ofList l.text, l.literal, Piece.lastLine before⟩

theorem token_like {l l' : Lexeme} (h : l.text = l'.text) (before before' : List Char) :
    (l.token before).Like (l'.token before') := by
  have hword := l'.formed.unique l.formed h.symm
  injection hword with hkind _ hliteral
  exact ⟨hkind, congrArg String.ofList h.symm, hliteral⟩

end Lexeme

namespace Layout

def written (words : List (Lexeme × Spacing)) : List Char :=
  words.flatMap fun (l, gap) ↦ l.text ++ gap.text

def chars (layout : Layout) : List Char := layout.lead.text ++ written layout.words

def text (layout : Layout) : String := String.ofList layout.chars

def lexemes (layout : Layout) : List Lexeme := layout.words.map Prod.fst

def tokensFrom (before : List Char) : List (Lexeme × Spacing) → List Token
  | [] => []
  | (l, gap) :: words => l.token before :: tokensFrom (before ++ l.text ++ gap.text) words

def tokens (layout : Layout) : List Token := tokensFrom layout.lead.text layout.words

end Layout

namespace Piece

section Apart

variable {rest : List Char} (hrest : ∀ c ∈ rest.head?, isBlank c = true)
include hrest

theorem run_apart {p : Char → Bool} (hp : ∀ c, isBlank c = true → p c = false) {cs : List Char}
    (hcs : ∀ c ∈ cs, p c = true) :
    (cs ++ rest).takeWhile p = cs ∧ (cs ++ rest).dropWhile p = rest := by
  rw [List.takeWhile_append_of_pos hcs, List.dropWhile_append_of_pos hcs]
  cases rest with
  | nil => simp
  | cons c rest => simp [hp c (hrest c rfl)]

theorem head_apart {c : Char} (hc : isBlank c = false) (more : List Char) : rest ≠ c :: more := by
  rintro rfl
  exact absurd (hrest c rfl) (by simp [hc])

theorem digits_apart {cs : List Char} (hcs : ∀ c ∈ cs, isDigit c = true) :
    (cs ++ rest).takeWhile isDigit = cs ∧ (cs ++ rest).dropWhile isDigit = rest :=
  run_apart hrest (fun _ hc ↦ (blank_cases hc).2) hcs

theorem fraction_apart : fraction rest = ([], rest) := by
  rcases fraction_cases rest with h | ⟨d, more, -, hpoint, -⟩
  · exact h
  · exact absurd hpoint (head_apart hrest rfl _)

theorem mark_apart {lexeme : List Char} {kind : Kind} (h : (lexeme, kind) ∈ marks) :
    ∃ c cs, lexeme = c :: cs ∧ next c (cs ++ rest) = (word kind lexeme .nil, rest) := by
  obtain ⟨c, kind', hsingle, ⟨rfl, rfl⟩ | ⟨rfl, hequal⟩⟩ := marks_cases h
  · obtain ⟨hblank, hword, hdigit, hquote⟩ := mark_char hsingle
    refine ⟨c, [], rfl, ?_⟩
    rw [List.nil_append, next_mark hblank hword hdigit hquote fun _ ↦ head_apart hrest rfl]
    rcases mark_cases hsingle rest with h | ⟨kind', after, -, h⟩
    · exact h
    · have htext := text_mark c rest
      rw [h] at htext
      exact absurd (List.cons.inj htext).2.symm (head_apart hrest rfl _)
  · obtain ⟨hblank, hword, hdigit, hquote⟩ := mark_char hsingle
    refine ⟨c, ['='], rfl, ?_⟩
    have hequals (_ : c = '/') (more : List Char) : ['='] ++ rest ≠ '/' :: more := by simp
    rw [next_mark hblank hword hdigit hquote hequals]
    exact mark_equal hsingle hequal rest

theorem Formed.next_apart {lexeme : List Char} {kind : Kind} {literal : Scalar}
    (h : (word kind lexeme literal).Formed) :
    ∃ c cs, lexeme = c :: cs ∧ Piece.next c (cs ++ rest) = (word kind lexeme literal, rest) := by
  cases h with
  | mark h => exact mark_apart hrest h
  | @name c cs hc hcs =>
    have hapart (d : Char) (hd : isBlank d = true) : isWordChar d = false := by
      obtain ⟨hstart, hdigit⟩ := blank_cases hd
      simp [isWordChar, hstart, hdigit]
    obtain ⟨htake, hdrop⟩ := run_apart hrest hapart hcs
    refine ⟨c, cs, rfl, ?_⟩
    rw [next_word (wordStart_char hc) hc, htake, hdrop]
  | @string body hbody =>
    have hall : ∀ d ∈ body, decide (d ≠ '"') = true := fun d hd ↦ decide_eq_true fun h ↦ hbody (h ▸ hd)
    refine ⟨'"', body ++ ['"'], rfl, ?_⟩
    have hnext : Piece.next '"' (body ++ ['"'] ++ rest) = Piece.string (body ++ '"' :: rest) := by
      rw [List.append_assoc]
      rfl
    rw [hnext, Piece.string, takeWhile_append_stop (p := (· ≠ '"')) rfl,
      dropWhile_append_stop (p := (· ≠ '"')) rfl, List.takeWhile_eq_self_iff.mpr hall,
      List.dropWhile_eq_nil_iff.mpr hall]
    rfl
  | @whole digits hne hdigits =>
    obtain ⟨c, cs, rfl⟩ := List.exists_cons_of_ne_nil hne
    obtain ⟨hc, hcs⟩ := List.forall_mem_cons.mp hdigits
    obtain ⟨hblank, hword⟩ := digit_char hc
    obtain ⟨htake, hdrop⟩ := digits_apart hrest hcs
    refine ⟨c, cs, rfl, ?_⟩
    rw [next_digit hblank hword hc, number, htake, hdrop, fraction_apart hrest]
    rfl
  | @decimal digits part hne hdigits hne' hpart =>
    obtain ⟨c, cs, rfl⟩ := List.exists_cons_of_ne_nil hne
    obtain ⟨d, ds, rfl⟩ := List.exists_cons_of_ne_nil hne'
    obtain ⟨hc, hcs⟩ := List.forall_mem_cons.mp hdigits
    obtain ⟨hd, hds⟩ := List.forall_mem_cons.mp hpart
    obtain ⟨hblank, hword⟩ := digit_char hc
    obtain ⟨htake, hdrop⟩ := digits_apart hrest hds
    have hpoint : isDigit '.' = false := rfl
    have hfraction : fraction ('.' :: d :: (ds ++ rest)) = (d :: ds, rest) := by
      rw [fraction, if_pos hd, htake, hdrop]
    refine ⟨c, cs ++ '.' :: d :: ds, rfl, ?_⟩
    rw [next_digit hblank hword hc, List.append_assoc, List.cons_append, List.cons_append, number,
      takeWhile_append_stop hpoint, dropWhile_append_stop hpoint, List.takeWhile_eq_self_iff.mpr hcs,
      List.dropWhile_eq_nil_iff.mpr hcs, List.nil_append, hfraction]
    rfl

end Apart

end Piece

namespace Scan

open Piece

def Progress.down (p : Progress) (n : Nat) : Progress := { p with line := p.line + n }

theorem readAll_blank {c : Char} (hc : isBlank c = true) (rest : List Char) (p : Progress) :
    p.readAll (cut (c :: rest)) = (p.down (lineFeeds [c])).readAll (cut rest) := by
  rw [readAll_blanks, readAll_blanks (p.down _), List.takeWhile_cons_of_pos hc,
    List.dropWhile_cons_of_pos hc, Progress.down, Nat.add_assoc]
  congr 3
  exact @List.count_append _ _ _ [c] _

theorem readAll_comment {body : List Char} (hbody : '\n' ∉ body) (rest : List Char) (p : Progress) :
    p.readAll (cut ('/' :: '/' :: (body ++ '\n' :: rest))) = (p.down 1).readAll (cut rest) := by
  have hall : ∀ d ∈ body, decide (d ≠ '\n') = true := fun d hd ↦ decide_eq_true fun h ↦ hbody (h ▸ hd)
  rw [cut_cons, next_comment, takeWhile_append_stop (p := (· ≠ '\n')) rfl,
    dropWhile_append_stop (p := (· ≠ '\n')) rfl, List.takeWhile_eq_self_iff.mpr hall,
    List.dropWhile_eq_nil_iff.mpr hall, List.nil_append]
  have hread : p.read (.comment ('/' :: '/' :: body)) = p := by
    have hnone : lineFeeds ('/' :: '/' :: body) = 0 := List.count_eq_zero_of_not_mem (by simpa using hbody)
    simp [Progress.read, Piece.text, hnone]
  have hcomment : p.readAll (.comment ('/' :: '/' :: body) :: cut ('\n' :: rest)) =
      (p.read (.comment ('/' :: '/' :: body))).readAll (cut ('\n' :: rest)) := rfl
  rw [hcomment, hread, readAll_blank rfl]
  rfl

theorem readAll_filler {text : List Char} (h : Filler text) (rest : List Char) (p : Progress) :
    p.readAll (cut (text ++ rest)) = (p.down (lineFeeds text)).readAll (cut rest) := by
  induction h generalizing p with
  | nil => rfl
  | @blank c text hc _ ih =>
    rw [List.cons_append, readAll_blank hc, ih, Progress.down, Progress.down, Progress.down, Nat.add_assoc]
    congr 3
    exact (@List.count_append _ _ _ [c] _).symm
  | @comment body text hbody _ ih =>
    have hlines : lineFeeds ('/' :: '/' :: (body ++ '\n' :: text)) = 1 + lineFeeds text := by
      simp [lineFeeds, List.count_eq_zero_of_not_mem hbody]
      omega
    have happend : '/' :: '/' :: (body ++ '\n' :: text) ++ rest =
        '/' :: '/' :: (body ++ '\n' :: (text ++ rest)) := by simp
    rw [happend, readAll_comment hbody, ih, hlines, Progress.down, Progress.down, Progress.down,
      Nat.add_assoc]

theorem readAll_lexeme (l : Lexeme) {rest : List Char} (hrest : ∀ c ∈ rest.head?, isBlank c = true)
    (p : Progress) :
    p.readAll (cut (l.text ++ rest)) = (p.read (.word l.kind l.text l.literal)).readAll (cut rest) := by
  obtain ⟨c, cs, htext, hnext⟩ := l.formed.next_apart hrest
  rw [htext, List.cons_append, cut_cons, hnext, ← htext]
  rfl

/-- Words behind some text are read one by one, without a complaint. -/
theorem readAll_written (words : List (Lexeme × Spacing)) (before : List Char) (p : Progress)
    (hline : p.line = lastLine before) : p.readAll (cut (Layout.written words)) =
      { line := lastLine (before ++ Layout.written words),
        words := p.words ++ (Layout.tokensFrom before words).toArray,
        faults := p.faults } := by
  induction words generalizing before p with
  | nil =>
    have hempty : Layout.written [] = [] := rfl
    rw [hempty, cut_nil, List.append_nil, ← hline]
    simp [Progress.readAll, Layout.tokensFrom]
  | cons word words ih =>
    obtain ⟨l, gap⟩ := word
    have hwritten : Layout.written ((l, gap) :: words) = l.text ++ (gap.text ++ Layout.written words) := by
      simp [Layout.written]
    have hapart : ∀ c ∈ (gap.text ++ Layout.written words).head?, isBlank c = true := by
      obtain ⟨c, hc, hblank⟩ := gap.apart
      cases htext : gap.text with
      | nil => simp [htext] at hc
      | cons d text => simp_all
    rw [hwritten, readAll_lexeme l hapart, readAll_filler gap.filler,
      ih (before ++ l.text ++ gap.text)]
    · have htoken : (Progress.down (p.read (.word l.kind l.text l.literal)) (lineFeeds gap.text)).words =
          p.words.push (l.token before) := by
        simp [Progress.down, Progress.read, Lexeme.token, hline]
      rw [htoken, Layout.tokensFrom]
      simp [Progress.down, Progress.read]
    · rw [Progress.down, read_line, hline, lastLine_append, lastLine_append]
      rfl

theorem tokensFrom_like : ∀ {words words' : List (Lexeme × Spacing)} (before before' : List Char),
    words.map (·.1.text) = words'.map (·.1.text) →
      List.Forall₂ Token.Like (Layout.tokensFrom before words) (Layout.tokensFrom before' words')
  | [], [], _, _, _ => .nil
  | (l, gap) :: words, (l', gap') :: words', before, before', h => by
    obtain ⟨hhead, htail⟩ := List.cons.inj h
    exact .cons (l.token_like hhead before before') (tokensFrom_like _ _ htail)
  | [], _ :: _, _, _, h | _ :: _, [], _, _, h => by simp at h

/-- A text that is written word by word is read without a complaint as just these words, each with the kind and
the literal of its characters and on the line where it starts. Another layout of the same words gives the same
tokens but for their lines. -/
theorem ofText_layout (layout : Layout) :
    ofText layout.text = ⟨layout.tokens, endMarker (lastLine layout.chars), []⟩ ∧
      ∀ other : Layout, layout.lexemes.map (·.text) = other.lexemes.map (·.text) →
        List.Forall₂ Token.Like (ofText layout.text).tokens (ofText other.text).tokens := by
  have hread (layout : Layout) :
      ofText layout.text = ⟨layout.tokens, endMarker (lastLine layout.chars), []⟩ := by
    let start : Progress := {}
    have hlead : start.readAll (cut layout.chars) =
        (start.down (lineFeeds layout.lead.text)).readAll (cut (Layout.written layout.words)) :=
      readAll_filler layout.lead.filler _ _
    have hwords := readAll_written layout.words layout.lead.text
      (start.down (lineFeeds layout.lead.text)) rfl
    have hall : start.readAll (cut layout.chars) =
        ⟨lastLine layout.chars, layout.tokens.toArray, #[]⟩ := by
      rw [hlead, hwords]
      simp [start, Progress.down, Layout.tokens, Layout.chars]
    have htext : layout.text.toList = layout.chars := String.toList_ofList
    show (start.readAll (cut layout.text.toList)).finish = _
    rw [htext, hall]
    rfl
  refine ⟨hread layout, fun other h ↦ ?_⟩
  rw [hread layout, hread other]
  rw [Layout.lexemes, Layout.lexemes, List.map_map, List.map_map] at h
  exact List.rel_append (tokensFrom_like _ _ h) (.cons ⟨rfl, rfl, rfl⟩ .nil)

def narrow : Spacing := ⟨[' '], .blank rfl .nil, ' ', rfl, rfl⟩

/-- A line that ends in a comment, which holds a quote and a slash, and a tab on the next one. -/
def broken : Spacing :=
  ⟨" // \"/\n\t".toList,
    .blank rfl (@Filler.comment [' ', '"', '/'] _ (by decide) (.blank rfl .nil)), ' ', rfl, rfl⟩

def slash : Lexeme := ⟨['/'], .slash, .nil, .mark (by decide)⟩

def quotedComment : Lexeme :=
  ⟨"\"//\n\"".toList, .string, .string "//\n", @Piece.Formed.string ['/', '/', '\n'] (by decide)⟩

def slashes (gap : Spacing) : Layout := ⟨gap, [(slash, gap), (quotedComment, gap), (slash, gap)]⟩

theorem slashes_alike :
    (slashes narrow).lexemes.map (·.text) = (slashes broken).lexemes.map (·.text) ∧
      (ofText (slashes broken).text).words =
        [⟨.slash, "/", .nil, 2⟩, ⟨.string, "\"//\n\"", .string "//\n", 3⟩, ⟨.slash, "/", .nil, 5⟩] ∧
      List.Forall₂ Token.Like (ofText (slashes narrow).text).tokens
        (ofText (slashes broken).text).tokens := by
  refine ⟨rfl, ?_, (ofText_layout (slashes narrow)).2 (slashes broken) rfl⟩
  rw [(ofText_layout (slashes broken)).1]
  rfl

end Scan

end TreeWalk
