import Mathlib.Data.List.TakeWhile
import TreeWalk.Proofs.Tree.Alike
import TreeWalk.Token.Lexer

namespace TreeWalk

namespace Piece

section Lists

variable {α : Type} {p : α → Bool} {x : α}

theorem takeWhile_append_stop (hx : p x = false) (a b : List α) :
    (a ++ x :: b).takeWhile p = a.takeWhile p := by
  induction a with
  | nil => simp [hx]
  | cons y a ih => simp [List.takeWhile_cons, ih]

theorem dropWhile_append_stop (hx : p x = false) (a b : List α) :
    (a ++ x :: b).dropWhile p = a.dropWhile p ++ x :: b := by
  induction a with
  | nil => simp [hx]
  | cons y a ih =>
    rw [List.cons_append, List.dropWhile_cons, List.dropWhile_cons, ih]
    split <;> rfl

theorem append_of_dropWhile (b : List α) : ∀ {a : List α}, a.dropWhile p ≠ [] →
    (a ++ b).takeWhile p = a.takeWhile p ∧ (a ++ b).dropWhile p = a.dropWhile p ++ b
  | [], h => absurd rfl h
  | x :: a, h => by
    cases hx : p x with
    | false => simp [hx]
    | true =>
      rw [List.dropWhile_cons_of_pos hx] at h
      obtain ⟨ht, hd⟩ := append_of_dropWhile b h
      simp [hx, ht, hd]

end Lists

theorem cutAfter_eq (done : List Piece) (text : List Char) :
    cutAfter done text = done.reverse ++ cut text := by
  have h (n : Nat) : ∀ (done : List Piece) (text : List Char), text.length = n →
      cutAfter done text = done.reverse ++ cut text := by
    induction n using Nat.strongRecOn with
    | _ n ih =>
      intro done text hn
      cases text with
      | nil => simp [cut, cutAfter]
      | cons c rest =>
        have hlt : (next c rest).2.length < n := by
          rw [← hn]
          exact Nat.lt_succ_of_le (length_next_le c rest)
        rw [cut, cutAfter, cutAfter, ih _ hlt _ _ rfl, ih _ hlt [_] _ rfl]
        simp
  exact h _ done text rfl

theorem cut_nil : cut [] = [] := by
  simp [cut, cutAfter]

theorem cut_cons (c : Char) (rest : List Char) :
    cut (c :: rest) = (next c rest).1 :: cut (next c rest).2 := by
  rw [cut, cutAfter, cutAfter_eq]
  rfl

theorem next_blank {c : Char} (rest : List Char) (hblank : isBlank c = true) :
    next c rest = (blank (c :: rest.takeWhile isBlank), rest.dropWhile isBlank) := by
  unfold next
  rw [hblank]
  rfl

section Feed

variable (b : List Char)

theorem fraction_append : ∀ text : List Char,
    fraction (text ++ '\n' :: b) = ((fraction text).1, (fraction text).2 ++ '\n' :: b)
  | [] => rfl
  | [c] => by
    by_cases hc : c = '.'
    · subst hc
      rfl
    · simp [fraction, hc]
  | c :: d :: more => by
    have hfeed : isDigit '\n' = false := rfl
    by_cases hc : c = '.'
    · subst hc
      simp only [List.cons_append, fraction]
      split
      · rw [takeWhile_append_stop hfeed, dropWhile_append_stop hfeed]
      · rfl
    · simp [fraction, hc]

theorem number_append (c : Char) (rest : List Char) :
    number c (rest ++ '\n' :: b) = ((number c rest).1, (number c rest).2 ++ '\n' :: b) := by
  have hfeed : isDigit '\n' = false := rfl
  unfold number
  rw [takeWhile_append_stop hfeed, dropWhile_append_stop hfeed, fraction_append]

theorem string_append (rest : List Char) (hclosed : ∀ t, (string rest).1 ≠ .openString t) :
    string (rest ++ '\n' :: b) = ((string rest).1, (string rest).2 ++ '\n' :: b) := by
  have hdrop : rest.dropWhile (· ≠ '"') ≠ [] := fun hnone ↦
    hclosed ('"' :: rest) (by rw [string, hnone])
  obtain ⟨ht, hd⟩ := append_of_dropWhile ('\n' :: b) hdrop
  unfold string
  rw [ht, hd]
  cases hrest : rest.dropWhile (· ≠ '"') with
  | nil => exact absurd hrest hdrop
  | cons quote after => rfl

theorem mark_append (c : Char) (rest : List Char) :
    mark c (rest ++ '\n' :: b) = ((mark c rest).1, (mark c rest).2 ++ '\n' :: b) := by
  unfold mark
  cases rest with
  | nil => cases single? c <;> cases withEqual? c <;> rfl
  | cons d rest =>
    cases single? c with
    | none => rfl
    | some kind =>
      cases withEqual? c with
      | none => rfl
      | some kind' =>
        by_cases hd : d = '='
        · subst hd
          rfl
        · simp [hd]

section Next

variable {c : Char} {rest : List Char} (hblank : isBlank c = false)
include hblank

theorem next_word (hword : isWordStart c = true) :
    next c rest = (word (Kind.ofWord (String.ofList (c :: rest.takeWhile isWordChar)))
      (c :: rest.takeWhile isWordChar) .nil, rest.dropWhile isWordChar) := by
  unfold next
  rw [hblank, hword]
  rfl

variable (hword : isWordStart c = false)
include hword

theorem next_digit (hdigit : isDigit c = true) : next c rest = number c rest := by
  unfold next
  rw [hblank, hword, hdigit]
  rfl

variable (hdigit : isDigit c = false)
include hdigit

theorem next_mark (hquote : c ≠ '"') (hcomment : c = '/' → ∀ more, rest ≠ '/' :: more) :
    next c rest = mark c rest := by
  unfold next
  simp only [hblank, hword, hdigit, hquote, Bool.false_eq_true, if_false]
  split
  · exact absurd rfl (hcomment rfl _)
  · rfl

end Next

theorem next_append (c : Char) (rest : List Char) (hblank : isBlank c = false)
    (hclosed : ∀ t, (next c rest).1 ≠ .openString t) :
    next c (rest ++ '\n' :: b) = ((next c rest).1, (next c rest).2 ++ '\n' :: b) := by
  have hfeed : isWordChar '\n' = false := rfl
  cases hword : isWordStart c with
  | true =>
    rw [next_word hblank hword, next_word hblank hword, takeWhile_append_stop hfeed,
      dropWhile_append_stop hfeed]
  | false =>
    cases hdigit : isDigit c with
    | true => rw [next_digit hblank hword hdigit, next_digit hblank hword hdigit, number_append]
    | false =>
      by_cases hquote : c = '"'
      · subst hquote
        exact string_append b rest hclosed
      · by_cases hcomment : c = '/' ∧ ∃ more, rest = '/' :: more
        · obtain ⟨rfl, more, rfl⟩ := hcomment
          show (comment ('/' :: '/' :: (more ++ '\n' :: b).takeWhile (· ≠ '\n')),
            (more ++ '\n' :: b).dropWhile (· ≠ '\n')) = _
          rw [takeWhile_append_stop (p := (· ≠ '\n')) rfl, dropWhile_append_stop (p := (· ≠ '\n')) rfl]
          rfl
        · have hrest (hc : c = '/') (more : List Char) : rest ≠ '/' :: more :=
            fun h ↦ hcomment ⟨hc, more, h⟩
          rw [next_mark hblank hword hdigit hquote hrest, next_mark hblank hword hdigit hquote ?_,
            mark_append]
          intro hc more h
          cases rest with
          | nil => simp at h
          | cons d rest => exact hrest hc rest (by rw [(List.cons.inj h).1])

end Feed

end Piece

def Token.moved (t : Token) (lines : Nat) : Token := { t with line := t.line + lines }

@[simp] theorem Token.moved_zero (t : Token) : t.moved 0 = t := by
  simp [moved]

@[simp] theorem Token.moved_moved (t : Token) (m n : Nat) :
    (t.moved m).moved n = t.moved (m + n) := by
  simp [moved, Int.add_assoc]

namespace Scan

def Progress.readAll (p : Progress) (pieces : List Piece) : Progress := pieces.foldl read p

theorem read_blank (p : Progress) (text : List Char) :
    p.read (.blank text) = { p with line := p.line + Piece.lineFeeds text } := rfl

theorem read_blank_append (p : Progress) (a b : List Char) :
    p.read (.blank (a ++ b)) = { p.read (.blank a) with
      line := (p.read (.blank a)).line + Piece.lineFeeds b } := by
  rw [read_blank, read_blank, Piece.lineFeeds, List.count_append]
  simp [Piece.lineFeeds]
  omega

theorem readAll_blanks (p : Progress) (text : List Char) :
    p.readAll (Piece.cut text) =
      Progress.readAll { p with line := p.line + Piece.lineFeeds (text.takeWhile Piece.isBlank) }
        (Piece.cut (text.dropWhile Piece.isBlank)) := by
  cases text with
  | nil => simp [Piece.lineFeeds]
  | cons c rest =>
    cases hblank : Piece.isBlank c with
    | false => simp [hblank, Piece.lineFeeds]
    | true =>
      rw [Piece.cut_cons, Piece.next_blank rest hblank, List.takeWhile_cons_of_pos hblank,
        List.dropWhile_cons_of_pos hblank]
      rfl

def Progress.feed (p : Progress) : Progress := { p with line := p.line + 1 }

theorem readAll_feed (p : Progress) (b : List Char) :
    p.readAll (Piece.cut ('\n' :: b)) = p.feed.readAll (Piece.cut b) := by
  have hfeed : Piece.isBlank '\n' = true := rfl
  rw [readAll_blanks, List.takeWhile_cons_of_pos hfeed, List.dropWhile_cons_of_pos hfeed,
    readAll_blanks p.feed]
  congr 2
  simp only [Progress.feed, Piece.lineFeeds, List.count_cons_self]
  omega

theorem readAll_join (a b : List Char) (p : Progress) (hclosed : ∀ t, .openString t ∉ Piece.cut a) :
    p.readAll (Piece.cut (a ++ '\n' :: b)) =
      (p.readAll (Piece.cut a)).feed.readAll (Piece.cut b) := by
  induction hn : a.length using Nat.strongRecOn generalizing a p with
  | _ n ih =>
    cases a with
    | nil =>
      rw [Piece.cut_nil]
      exact readAll_feed p b
    | cons c rest =>
      have hlt : (Piece.next c rest).2.length < n := by
        rw [← hn]
        exact Nat.lt_succ_of_le (Piece.length_next_le c rest)
      have hcut := Piece.cut_cons c rest
      rw [hcut] at hclosed ⊢
      have hhead (t : List Char) : (Piece.next c rest).1 ≠ .openString t :=
        fun h ↦ hclosed t (h ▸ .head _)
      have htail (t : List Char) : .openString t ∉ Piece.cut (Piece.next c rest).2 :=
        fun h ↦ hclosed t (.tail _ h)
      cases hblank : Piece.isBlank c with
      | false =>
        rw [List.cons_append, Piece.cut_cons, Piece.next_append b c rest hblank hhead]
        exact ih _ hlt _ (p.read _) htail rfl
      | true =>
        have hnext := Piece.next_blank rest hblank
        rw [List.cons_append, Piece.cut_cons, Piece.next_blank _ hblank]
        rw [hnext] at hlt htail ⊢
        by_cases hrest : rest.dropWhile Piece.isBlank = []
        · have hall : ∀ c ∈ rest, Piece.isBlank c = true := List.dropWhile_eq_nil_iff.mp hrest
          rw [hrest, Piece.cut_nil, List.takeWhile_append_of_pos hall,
            List.dropWhile_append_of_pos hall, List.takeWhile_eq_self_iff.mpr hall]
          show _ = (p.read (.blank (c :: rest))).feed.readAll (Piece.cut b)
          rw [← readAll_feed, readAll_blanks (p.read (.blank (c :: rest)))]
          exact congrArg (Progress.readAll · _) (read_blank_append p (c :: rest) _)
        · obtain ⟨ht, hd⟩ := Piece.append_of_dropWhile ('\n' :: b) hrest
          rw [ht, hd]
          exact ih _ hlt _ (p.read _) htail rfl

theorem read_line (p : Progress) (piece : Piece) :
    (p.read piece).line = p.line + Piece.lineFeeds piece.text := by
  cases piece <;> rfl

theorem readAll_line (pieces : List Piece) (p : Progress) :
    (p.readAll pieces).line = p.line + Piece.lineFeeds (pieces.flatMap Piece.text) := by
  induction pieces generalizing p with
  | nil => simp [Progress.readAll, Piece.lineFeeds]
  | cons piece pieces ih =>
    have h := ih (p.read piece)
    rw [read_line] at h
    rw [List.flatMap_cons, Piece.lineFeeds, List.count_append]
    simp only [Progress.readAll, List.foldl_cons, Piece.lineFeeds] at h ⊢
    omega

theorem faults_read {p : Progress} {piece : Piece} (h : (p.read piece).faults = #[]) :
    p.faults = #[] := by
  cases piece with
  | word | blank | comment => exact h
  | stray | openString => exact absurd h (by simp [Progress.read])

theorem faults_readAll (pieces : List Piece) (p : Progress) (h : (p.readAll pieces).faults = #[]) :
    p.faults = #[] ∧ ∀ t, .openString t ∉ pieces := by
  induction pieces generalizing p with
  | nil => exact ⟨h, fun _ ↦ List.not_mem_nil⟩
  | cons piece pieces ih =>
    obtain ⟨hread, hpieces⟩ := ih (p.read piece) h
    refine ⟨faults_read hread, fun t ht ↦ ?_⟩
    rcases List.mem_cons.mp ht with rfl | ht
    · exact absurd hread (by simp [Progress.read])
    · exact hpieces t ht

/-- Behind some words, what is read from a later line on is the same on later lines. -/
structure Follows (words : List Token) (lines : Nat) (p q : Progress) : Prop where
  line : q.line = p.line + lines
  words : q.words.toList = words ++ p.words.toList.map (·.moved lines)
  faults : p.faults = #[] → q.faults = #[]

theorem Follows.read {words : List Token} {lines : Nat} {p q : Progress}
    (h : Follows words lines p q) (piece : Piece) :
    Follows words lines (p.read piece) (q.read piece) := by
  refine ⟨?_, ?_, ?_⟩
  · rw [read_line, read_line, h.line]
    omega
  · cases piece with
    | word kind lexeme literal =>
      simp [Progress.read, h.words, h.line, Token.moved]
    | _ => exact h.words
  · cases piece with
    | word | blank | comment => exact h.faults
    | stray | openString => exact fun hp ↦ absurd hp (by simp [Progress.read])

theorem Follows.readAll {words : List Token} {lines : Nat} (pieces : List Piece) {p q : Progress}
    (h : Follows words lines p q) : Follows words lines (p.readAll pieces) (q.readAll pieces) := by
  induction pieces generalizing p q with
  | nil => exact h
  | cons piece pieces ih => exact ih (h.read piece)

def lines (text : String) : Nat := Piece.lineFeeds text.toList + 1

theorem faults_ofText (text : String) : (ofText text).faults = [] ↔
    (Progress.readAll {} (Piece.cut text.toList)).faults = #[] :=
  Array.toList_eq_nil_iff

theorem ofText_empty : ofText "" = ⟨[], endMarker 1, []⟩ := by
  rw [ofText, String.toList_empty, Piece.cut_nil]
  rfl

def Bounded (p : Progress) : Prop := 1 ≤ p.line ∧ ∀ t ∈ p.words, 1 ≤ t.line ∧ t.line ≤ p.line

theorem bounded_read {p : Progress} (h : Bounded p) (piece : Piece) : Bounded (p.read piece) := by
  have hline : p.line ≤ (p.read piece).line := by
    rw [read_line]
    omega
  obtain ⟨hpos, hwords⟩ := h
  have hkept (t : Token) (ht : t ∈ p.words) : 1 ≤ t.line ∧ t.line ≤ (p.read piece).line := by
    have := hwords t ht
    omega
  refine ⟨Nat.le_trans hpos hline, fun t ht ↦ ?_⟩
  cases piece with
  | word kind lexeme literal =>
    rcases Array.mem_push.mp ht with ht | rfl
    · exact hkept t ht
    · exact ⟨Int.ofNat_le.mpr hpos, Int.ofNat_le.mpr hline⟩
  | _ => exact hkept t ht

theorem bounded_readAll (pieces : List Piece) {p : Progress} (h : Bounded p) :
    Bounded (p.readAll pieces) := by
  induction pieces generalizing p with
  | nil => exact h
  | cons piece pieces ih => exact ih (bounded_read h piece)

theorem word_line {text : String} {t : Token} (h : t ∈ (ofText text).words) :
    1 ≤ t.line ∧ t.line ≤ lines text := by
  let start : Progress := {}
  have hbounded : Bounded (start.readAll (Piece.cut text.toList)) :=
    bounded_readAll _ ⟨Nat.le_refl 1, by simp [start]⟩
  have hline : (start.readAll (Piece.cut text.toList)).line = 1 + Piece.lineFeeds text.toList := by
    rw [readAll_line, Piece.text_cut]
  have ht := hbounded.2 t (Array.mem_toList_iff.mp h)
  rw [hline] at ht
  rw [lines]
  omega

/-- Two texts joined by a line feed have the words of the first and, on later lines, those of the
second. -/
theorem ofText_append {a b : String} (ha : (ofText a).faults = []) :
    (ofText (a ++ "\n" ++ b)).words = (ofText a).words ++ (ofText b).words.map (·.moved (lines a)) ∧
      ((ofText b).faults = [] → (ofText (a ++ "\n" ++ b)).faults = []) := by
  let start : Progress := {}
  let first := start.readAll (Piece.cut a.toList)
  have hfaults : first.faults = #[] := (faults_ofText a).mp ha
  have hjoin : start.readAll (Piece.cut (a ++ "\n" ++ b).toList) =
      first.feed.readAll (Piece.cut b.toList) := by
    have htext : (a ++ "\n" ++ b).toList = a.toList ++ '\n' :: b.toList := by simp
    rw [htext]
    exact readAll_join _ _ _ (faults_readAll _ _ hfaults).2
  have hfollows : Follows first.words.toList (lines a) start first.feed := by
    refine ⟨?_, by simp [start, Progress.feed], fun _ ↦ hfaults⟩
    show first.line + 1 = _
    rw [readAll_line, Piece.text_cut]
    simp [start, lines]
    omega
  have h := hfollows.readAll (Piece.cut b.toList)
  rw [← hjoin] at h
  exact ⟨h.words, fun hb ↦ (faults_ofText _).mpr (h.faults ((faults_ofText b).mp hb))⟩

def linesOf : List String → Nat
  | [] => 0
  | text :: texts => lines text + linesOf texts

theorem linesOf_append (texts texts' : List String) :
    linesOf (texts ++ texts') = linesOf texts + linesOf texts' := by
  induction texts with
  | nil => simp [linesOf]
  | cons text texts ih =>
    rw [List.cons_append, linesOf, linesOf, ih]
    omega

def wordsFrom (before : Nat) : List String → List Token
  | [] => []
  | text :: texts =>
    (ofText text).words.map (·.moved before) ++ wordsFrom (before + lines text) texts

theorem map_moved_wordsFrom (texts : List String) (n before : Nat) :
    (wordsFrom before texts).map (·.moved n) = wordsFrom (before + n) texts := by
  induction texts generalizing before with
  | nil => rfl
  | cons text texts ih =>
    rw [wordsFrom, wordsFrom, List.map_append, ih, List.map_map,
      Nat.add_right_comm before (lines text) n]
    simp [Function.comp_def]

/-- Texts joined by line feeds have the words of all of them, in order, each on a later line. -/
theorem ofText_intercalate {texts : List String} (h : ∀ text ∈ texts, (ofText text).faults = []) :
    (ofText ("\n".intercalate texts)).words = wordsFrom 0 texts ∧
      (ofText ("\n".intercalate texts)).faults = [] := by
  induction texts with
  | nil =>
    rw [String.intercalate_nil, ofText_empty]
    exact ⟨rfl, rfl⟩
  | cons a texts ih =>
    have ha := h a (.head _)
    cases texts with
    | nil => simp [wordsFrom, ha]
    | cons b texts =>
      obtain ⟨hwords, hfaults⟩ := ih fun text ht ↦ h text (.tail _ ht)
      obtain ⟨happend, hclean⟩ := ofText_append (b := "\n".intercalate (b :: texts)) ha
      rw [String.intercalate_cons_cons]
      refine ⟨?_, hclean hfaults⟩
      rw [happend, hwords, map_moved_wordsFrom, wordsFrom.eq_def 0 (a :: b :: texts)]
      simp

/-- A word of one of some texts, and the same word where these are joined: it stands on a line of that text,
behind all lines of the texts before. -/
def Moved (texts : List String) (t t' : Token) : Prop :=
  ∃ before text rest, texts = before ++ text :: rest ∧ t ∈ (ofText text).words ∧
    t' = t.moved (linesOf before) ∧
    linesOf before < t'.line ∧ t'.line ≤ linesOf before + lines text

theorem moved_of_mem (before rest : List String) {text : String} {t : Token}
    (h : t ∈ (ofText text).words) :
    Moved (before ++ text :: rest) t (t.moved (linesOf before)) := by
  have hline := word_line h
  refine ⟨before, text, rest, rfl, h, rfl, ?_⟩
  simp only [Token.moved]
  omega

theorem Moved.like {texts : List String} {t t' : Token} (h : Moved texts t t') : t.Like t' := by
  obtain ⟨_, _, _, _, _, rfl, _⟩ := h
  exact ⟨rfl, rfl, rfl⟩

end Scan

end TreeWalk
