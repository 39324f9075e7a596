import TreeWalk.Proofs.Token.Munch

namespace TreeWalk

namespace Piece

def placed (before : List Char) : List Piece → List (List Char × Piece)
  | [] => []
  | p :: ps => (before, p) :: placed (before ++ p.text) ps

def lastLine (text : List Char) : Nat := 1 + lineFeeds text

def token? (before : List Char) : Piece → Option Token
  | word kind lexeme literal => some ⟨kind, String.ofList lexeme, literal, lastLine before⟩
  | _ => none

/-- The fault of a stray character behind some text. -/
def strayFault? (before : List Char) : Piece → Option Diagnostic
  | stray _ => some ⟨lastLine before, .unspecified, .strayCharacter⟩
  | _ => none

/-- The fault of pieces behind some text that end in an open string. It is on the last line of all. -/
def openFault? (before : List Char) (ps : List Piece) : Option Diagnostic :=
  match ps.getLast? with
  | some (openString _) => some ⟨lastLine (before ++ ps.flatMap text), .unspecified, .openString⟩
  | _ => none

theorem lastLine_append (a b : List Char) : lastLine (a ++ b) = lastLine a + lineFeeds b := by
  rw [lastLine, lastLine, lineFeeds, List.count_append, ← lineFeeds, ← lineFeeds, Nat.add_assoc]

theorem openFault?_cons (before : List Char) (p q : Piece) (ps : List Piece) :
    openFault? before (p :: q :: ps) = openFault? (before ++ p.text) (q :: ps) := by
  rw [openFault?, openFault?, List.getLast?_cons_cons, List.flatMap_cons, List.append_assoc]

theorem Leads.open_rest {t rest : List Char} (h : Leads (.openString t) (t ++ rest)) : rest = [] := by
  generalize htext : t ++ rest = text at h
  cases h with
  | longest hformed => cases hformed
  | openString => simpa using htext

/-- Only the last piece can be an open string. -/
theorem Cuts.open_last {text : List Char} {ps : List Piece} (h : Cuts text ps) (p : Piece)
    (hp : p ∈ ps.dropLast) (t : List Char) : p ≠ openString t := by
  induction h with
  | nil => cases hp
  | @cons q rest ps hq hcuts ih =>
    cases hcuts with
    | nil => cases hp
    | cons hlead hcuts =>
      rcases List.mem_cons.mp hp with rfl | hp
      · rintro rfl
        exact hlead.ne_nil hq.open_rest
      · exact ih hp

theorem Cuts.leads {text : List Char} {ps : List Piece} (h : Cuts text ps) :
    ∀ p ∈ ps, ∃ text, p.Leads text := by
  induction h with
  | nil => simp
  | cons hlead _ ih => exact List.forall_mem_cons.mpr ⟨⟨_, hlead⟩, ih⟩

theorem Leads.formed {kind : Kind} {lexeme text : List Char} {literal : Scalar}
    (h : (word kind lexeme literal).Leads text) : (word kind lexeme literal).Formed := by
  cases h with
  | longest hformed => exact hformed

theorem mem_of_placed {spot : List Char × Piece} {ps : List Piece} :
    ∀ {before : List Char}, spot ∈ placed before ps → spot.2 ∈ ps := by
  induction ps with
  | nil => exact fun h ↦ absurd h List.not_mem_nil
  | cons p ps ih =>
    intro before h
    rcases List.mem_cons.mp h with rfl | h
    · exact .head _
    · exact .tail _ (ih h)

end Piece

namespace Scan

open Piece

section Read

variable {before : List Char} {p : Progress} (hline : p.line = lastLine before)
include hline

theorem line_read (piece : Piece) : (p.read piece).line = lastLine (before ++ piece.text) := by
  rw [read_line, hline, lastLine_append]

theorem read_words (piece : Piece) :
    (p.read piece).words.toList = p.words.toList ++ (token? before piece).toList := by
  cases piece with
  | word => simp [Progress.read, token?, hline]
  | blank | comment | stray | openString => exact (List.append_nil _).symm

theorem read_faults {piece : Piece} (hpiece : ∀ t, piece ≠ .openString t) :
    (p.read piece).faults.toList = p.faults.toList ++ (strayFault? before piece).toList := by
  cases piece with
  | stray => simp [Progress.read, strayFault?, hline]
  | openString t => exact absurd rfl (hpiece t)
  | word | blank | comment => exact (List.append_nil _).symm

theorem read_last_faults (piece : Piece) : (p.read piece).faults.toList =
    p.faults.toList ++ (strayFault? before piece).toList ++ (openFault? before [piece]).toList := by
  cases piece with
  | openString t => simp [Progress.read, strayFault?, openFault?, hline, lastLine_append, text]
  | stray | word | blank | comment =>
    rw [read_faults hline (by simp)]
    exact (List.append_nil _).symm

end Read

theorem readAll_words (ps : List Piece) : ∀ {before : List Char} {p : Progress},
    p.line = lastLine before → (p.readAll ps).words.toList =
      p.words.toList ++ (placed before ps).filterMap fun spot ↦ token? spot.1 spot.2 := by
  induction ps with
  | nil => exact fun _ ↦ (List.append_nil _).symm
  | cons piece ps ih =>
    intro before p hline
    have hrest := ih (line_read hline piece)
    rw [read_words hline] at hrest
    rw [placed, List.filterMap_cons]
    refine hrest.trans ?_
    cases token? before piece <;> simp

theorem readAll_faults (ps : List Piece) : ∀ {before : List Char} {p : Progress},
    p.line = lastLine before → (∀ q ∈ ps.dropLast, ∀ t, q ≠ .openString t) →
    (p.readAll ps).faults.toList = p.faults.toList ++
      (placed before ps).filterMap (fun spot ↦ strayFault? spot.1 spot.2) ++
      (openFault? before ps).toList := by
  induction ps with
  | nil => exact fun _ _ ↦ by simp [Progress.readAll, placed, openFault?]
  | cons piece ps ih =>
    intro before p hline hlast
    rw [placed, List.filterMap_cons]
    cases ps with
    | nil =>
      refine (read_last_faults hline piece).trans ?_
      cases h : strayFault? before piece <;> simp [placed]
    | cons q ps =>
      have hrest := ih (line_read hline piece) fun r hr ↦ hlast r (.tail _ hr)
      rw [read_faults hline (hlast piece (.head _)), ← openFault?_cons] at hrest
      refine hrest.trans ?_
      cases strayFault? before piece <;> simp

theorem words_ofText (source : String) : (ofText source).words =
    (placed [] (cut source.toList)).filterMap fun spot ↦ token? spot.1 spot.2 :=
  (readAll_words (cut source.toList) rfl).trans (List.nil_append _)

/-- The words of a text are described by the lexical grammar, whatever else is in the text. -/
theorem formed_of_word {source : String} {t : Token} (ht : t ∈ (ofText source).words) :
    (word t.kind t.lexeme.toList t.literal).Formed := by
  rw [words_ofText] at ht
  obtain ⟨⟨before, p⟩, hmem, htoken⟩ := List.mem_filterMap.mp ht
  obtain ⟨text, hlead⟩ := (cuts_cut source.toList).leads p (mem_of_placed hmem)
  cases p with
  | word kind lexeme literal =>
    cases htoken
    rw [String.toList_ofList]
    exact hlead.formed
  | blank | comment | stray | openString => cases htoken

/-- A text is cut in just one way so that every piece is the longest that the lexical grammar describes at its
place, or a stray character where it describes nothing, or at the end an open string. The words are those of
the pieces, on the line where each starts. The faults are one for each stray character, on its line, and then
one on the last line if the text ends in an open string. The end marker stands on the last line. -/
theorem ofText_munch (source : String) : ∃ ps,
    (∀ ps', Cuts source.toList ps' ↔ ps' = ps) ∧
      (∀ p ∈ ps.dropLast, ∀ t, p ≠ .openString t) ∧
      (ofText source).words = (placed [] ps).filterMap (fun spot ↦ token? spot.1 spot.2) ∧
      (ofText source).faults =
        (placed [] ps).filterMap (fun spot ↦ strayFault? spot.1 spot.2) ++ (openFault? [] ps).toList ∧
      (ofText source).last = endMarker (lastLine source.toList) := by
  have hcuts := cuts_cut source.toList
  have hstart : ({} : Progress).line = lastLine [] := rfl
  refine ⟨cut source.toList, fun ps' ↦ cuts_iff, hcuts.open_last, ?_, ?_, ?_⟩
  · exact (readAll_words (cut source.toList) hstart).trans (List.nil_append _)
  · refine (readAll_faults (cut source.toList) hstart hcuts.open_last).trans ?_
    rw [List.nil_append]
  · have hline := readAll_line (cut source.toList) {}
    rw [text_cut] at hline
    exact congrArg (fun n : Nat ↦ endMarker n) hline

end Scan

end TreeWalk
