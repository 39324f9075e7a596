import TreeWalk.Proofs.Token.Placed
import TreeWalk.Proofs.Tree.Respelled

namespace TreeWalk

/-- A name that is a word by itself, and not a reserved one. -/
def Identifier (name : String) : Prop := (Piece.word .identifier name.toList .nil).Formed

theorem Piece.formed_identifier {lexeme : List Char} {literal : Scalar}
    (h : (word .identifier lexeme literal).Formed) :
    literal = .nil ∧ Kind.ofWord (String.ofList lexeme) = .identifier ∧
      ∃ c cs, lexeme = c :: cs ∧ isWordStart c = true ∧ ∀ d ∈ cs, isWordChar d = true := by
  generalize hp : word .identifier lexeme literal = p at h
  cases h with
  | mark hmark =>
    have hmarks : ∀ m ∈ marks, m.2 ≠ .identifier := by decide
    injection hp with hkind
    exact absurd hkind.symm (hmarks _ hmark)
  | name hc hcs =>
    injection hp with hkind htext hliteral
    exact ⟨hliteral, htext ▸ hkind.symm, _, _, htext, hc, hcs⟩
  | string | whole | decimal | blank | comment => cases hp

theorem Piece.identifier_of_formed {t : Token} (h : (word t.kind t.lexeme.toList t.literal).Formed)
    (hkind : t.kind = .identifier) : Identifier t.lexeme := by
  rw [hkind] at h
  obtain ⟨hliteral, -⟩ := formed_identifier h
  rwa [hliteral] at h

theorem Identifier.ne_this {name : String} (h : Identifier name) : name ≠ "this" := by
  rintro rfl
  exact absurd (Piece.formed_identifier h).2.1 (by decide)

/-- A piece is the same, or `y` in place of `x`. -/
inductive Piece.Renamed (x y : String) : Piece → Piece → Prop
  | same {p : Piece} : Renamed x y p p
  | anew : Renamed x y (.word .identifier x.toList .nil) (.word .identifier y.toList .nil)

namespace Piece

/-- Two texts that are the same, at least up to a place where a word starts in both. -/
inductive Parallel : List Char → List Char → Prop
  | nil : Parallel [] []
  | same {c : Char} {v v' : List Char} : Parallel v v' → Parallel (c :: v) (c :: v')
  | turn {c c' : Char} {v v' : List Char} :
      isWordStart c = true → isWordStart c' = true → Parallel (c :: v) (c' :: v')

theorem Parallel.append {v v' : List Char} (h : Parallel v v') :
    ∀ u : List Char, Parallel (u ++ v) (u ++ v')
  | [] => h
  | _ :: u => .same (h.append u)

/-- What stands at the start of the second text stands at the start of the first, or goes beyond a place
where a word starts in both. -/
theorem Parallel.of_prefix {v v' u : List Char} (h : Parallel v v') (hu : u <+: v') :
    u <+: v ∨ ∃ a c c' more rest, u = a ++ c' :: more ∧ v = a ++ c :: rest ∧
      isWordStart c = true ∧ isWordStart c' = true := by
  induction h generalizing u with
  | nil => exact .inl hu
  | @same d v v' _ ih =>
    cases u with
    | nil => exact .inl List.nil_prefix
    | cons e u =>
      obtain ⟨rfl, htail⟩ := List.cons_prefix_cons.mp hu
      rcases ih htail with hu | ⟨a, c, c', more, rest, rfl, rfl, hc, hc'⟩
      · exact .inl (List.cons_prefix_cons.mpr ⟨rfl, hu⟩)
      · exact .inr ⟨e :: a, c, c', more, rest, rfl, rfl, hc, hc'⟩
  | @turn c c' v v' hc hc' =>
    cases u with
    | nil => exact .inl List.nil_prefix
    | cons e u =>
      obtain ⟨rfl, -⟩ := List.cons_prefix_cons.mp hu
      exact .inr ⟨[], c, e, u, v, rfl, rfl, hc, hc'⟩

section Longest

variable {x y : String} {c c' : Char}

theorem identifier_chars {name : String} (h : Identifier name) :
    ∃ c cs, name.toList = c :: cs ∧ isWordStart c = true ∧ ∀ d ∈ cs, isWordChar d = true :=
  (formed_identifier h).2.2

theorem wordStart_wordChar (h : isWordStart c = true) : isWordChar c = true := by
  rw [isWordChar, h]
  rfl

theorem digit_not_wordStart {digits : List Char} (h : ∀ d ∈ digits, isDigit d = true) :
    ∀ d ∈ digits, isWordStart d = false := fun d hd ↦ (digit_char (h d hd)).2

theorem blank_not_wordStart {cs : List Char} (h : ∀ d ∈ cs, isBlank d = true) :
    ∀ d ∈ cs, isWordStart d = false := fun d hd ↦ (blank_cases (h d hd)).1

theorem mark_not_wordStart {lexeme : List Char} {kind : Kind} (h : (lexeme, kind) ∈ marks) :
    ∀ d ∈ lexeme, isWordStart d = false := by
  obtain ⟨c, kind', hsingle, hcases⟩ := marks_cases h
  have hc := (mark_char hsingle).2.1
  have hequal : isWordStart '=' = false := by decide
  rcases hcases with ⟨rfl, -⟩ | ⟨rfl, -⟩
  · simpa using hc
  · simpa using ⟨hc, hequal⟩

theorem Formed.turned {s : Piece} {a more : List Char} (hs : s.Formed)
    (htext : s.text = a ++ c' :: more) (ha : a ≠ []) (hc' : isWordStart c' = true)
    (hc : isWordStart c = true) :
    (∃ s' : Piece, s'.Formed ∧ s'.text = a ++ [c]) ∨
      ∃ body, s.text = '"' :: (body ++ ['"']) ∧ '"' ∉ body := by
  have hmem : c' ∈ s.text := htext ▸ by simp
  have hnot {cs : List Char} (hcs : ∀ d ∈ cs, isWordStart d = false) : c' ∉ cs := fun h ↦ by
    simp [hcs c' h] at hc'
  obtain ⟨d, a, rfl⟩ := List.exists_cons_of_ne_nil ha
  cases hs with
  | mark hmark => exact absurd hmem (hnot (mark_not_wordStart hmark))
  | @name e cs he hcs =>
    obtain ⟨rfl, rfl⟩ := List.cons.inj htext
    refine .inl ⟨_, @Formed.name e (a ++ [c]) he ?_, rfl⟩
    intro e' he'
    rcases List.mem_append.mp he' with h | h
    · exact hcs e' (List.mem_append_left _ h)
    · exact List.mem_singleton.mp h ▸ wordStart_wordChar hc
  | @string body hbody => exact .inr ⟨body, rfl, hbody⟩
  | whole _ hdigits => exact absurd hmem (hnot (digit_not_wordStart hdigits))
  | decimal _ hdigits _ hpart =>
    rcases List.mem_append.mp hmem with h | h
    · exact absurd h (hnot (digit_not_wordStart hdigits))
    · rcases List.mem_cons.mp h with rfl | h
      · exact absurd hc' (by decide)
      · exact absurd h (hnot (digit_not_wordStart hpart))
  | blank _ hcs => exact absurd hmem (hnot (blank_not_wordStart hcs))
  | @comment cs hcs =>
    obtain ⟨rfl, htail⟩ := List.cons.inj htext
    cases a with
    | nil =>
      rw [← (List.cons.inj htail).1] at hc'
      exact absurd hc' (by decide)
    | cons e a =>
      obtain ⟨rfl, rfl⟩ := List.cons.inj htail
      refine .inl ⟨_, @Formed.comment (a ++ [c]) ?_, rfl⟩
      intro hline
      rcases List.mem_append.mp hline with h | h
      · exact hcs (List.mem_append_left _ h)
      · rw [← List.mem_singleton.mp h] at hc
        exact absurd hc (by decide)

/-- Nothing that is described is the start of a string but the string. -/
theorem Formed.string_eq {p : Piece} {body : List Char} (hp : p.Formed)
    (hbegins : p.text <+: '"' :: (body ++ ['"'])) (hbody : '"' ∉ body) :
    p.text = '"' :: (body ++ ['"']) := by
  obtain ⟨d, more, htext, hcovers⟩ := hp.covered []
  rw [List.append_nil] at htext
  rw [htext] at hbegins ⊢
  obtain ⟨rfl, hmore⟩ := List.cons_prefix_cons.mp hbegins
  have hquote : '"' ∈ more := by
    by_contra hnot
    have hformed := hcovers.formed
    have hnext : Piece.next '"' more = Piece.string more := rfl
    rw [hnext, string_open hnot] at hformed
    cases hformed
  rcases List.prefix_concat_iff.mp hmore with rfl | hmore
  · rfl
  · exact absurd (hmore.subset hquote) hbody

theorem Formed.word_chars {s : Piece} {cs : List Char} (hs : s.Formed) (htext : s.text = c :: cs)
    (hc : isWordStart c = true) : ∀ d ∈ cs, isWordChar d = true := by
  have hle := (hs.next (htext ▸ List.prefix_rfl : s.text <+: c :: cs)).length_le
  rw [htext, next_word (wordStart_char hc) hc] at hle
  simp only [text, List.length_cons, Nat.add_le_add_iff_right] at hle
  have hall := (List.takeWhile_prefix isWordChar).eq_of_length_le hle
  exact fun d hd ↦ List.mem_takeWhile_imp (hall.symm ▸ hd)

theorem Renamed.outgrown (hx : Identifier x) (hy : Identifier y) {p q s : Piece} {v v' u : List Char}
    (hpq : p.Renamed x y q) (hp : p.Formed) (hs : s.Formed) (htext : s.text = q.text ++ u)
    (hu : u <+: v') (hne : u ≠ []) (hv : Parallel v v') :
    ∃ s' : Piece, s'.Formed ∧ s'.text <+: p.text ++ v ∧ p.text.length < s'.text.length := by
  cases hpq with
  | same =>
    -- The longer piece ends before the texts differ, or it goes on into a word, where another word would do.
    rcases hv.of_prefix hu with hu | ⟨a, c, c', more, rest, rfl, rfl, hc, hc'⟩
    · refine ⟨s, hs, htext ▸ (List.prefix_append_right_inj _).mpr hu, ?_⟩
      rw [htext, List.length_append]
      exact Nat.lt_add_of_pos_right (List.length_pos_iff.mpr hne)
    · rw [← List.append_assoc] at htext
      have hstart : p.text ++ a ≠ [] := by
        obtain ⟨d, more, hd, -⟩ := hp.covered []
        rw [List.append_nil] at hd
        simp [hd]
      rcases hs.turned htext hstart hc' hc with ⟨s', hs', htext'⟩ | ⟨body, hstring, hbody⟩
      · refine ⟨s', hs', htext' ▸ ⟨rest, by simp⟩, ?_⟩
        rw [htext']
        simp only [List.length_append, List.length_cons]
        omega
      · have heq := hp.string_eq (hstring ▸ htext ▸ ⟨a ++ c' :: more, by simp⟩) hbody
        rw [← hstring, htext] at heq
        have hlen := congrArg List.length heq
        simp only [List.length_append, List.length_cons] at hlen
        omega
  | anew =>
    obtain ⟨c, cs, hcx, hc, hcs⟩ := identifier_chars hx
    obtain ⟨d, ds, hdy, hd, hds⟩ := identifier_chars hy
    obtain ⟨e, u, rfl⟩ := List.exists_cons_of_ne_nil hne
    have htext : s.text = d :: (ds ++ e :: u) := by
      rw [htext, text, hdy]
      rfl
    have he : isWordChar e = true := hs.word_chars htext hd e (by simp)
    have hnext : ∃ e' rest, v = e' :: rest ∧ isWordChar e' = true := by
      obtain ⟨t, ht⟩ := hu
      rw [List.cons_append] at ht
      subst ht
      cases hv with
      | same => exact ⟨e, _, rfl, he⟩
      | turn h => exact ⟨_, _, rfl, wordStart_wordChar h⟩
    obtain ⟨e', rest, rfl, he'⟩ := hnext
    refine ⟨_, @Formed.name c (cs ++ [e']) hc ?_, ?_, ?_⟩
    · intro k hk
      rcases List.mem_append.mp hk with h | h
      · exact hcs k h
      · exact List.mem_singleton.mp h ▸ he'
    · rw [text, text, hcx]
      exact ⟨rest, by simp⟩
    · rw [text, text, hcx]
      simp

theorem Renamed.formed (hy : Identifier y) {p q : Piece} (h : p.Renamed x y q) (hp : p.Formed) :
    q.Formed := by
  cases h with
  | same => exact hp
  | anew => exact hy

theorem all_formed (hy : Identifier y) {ps qs : List Piece} (h : List.Forall₂ (Renamed x y) ps qs)
    (hps : ∀ p ∈ ps, p.Formed) : ∀ q ∈ qs, q.Formed := by
  induction h with
  | nil => simp
  | cons hpq _ ih =>
    obtain ⟨hp, hps⟩ := List.forall_mem_cons.mp hps
    exact List.forall_mem_cons.mpr ⟨hpq.formed hy hp, ih hps⟩

theorem Renamed.leads (hx : Identifier x) (hy : Identifier y) {p q : Piece} {v v' : List Char}
    (h : p.Renamed x y q) (hp : p.Formed) (hlead : p.Leads (p.text ++ v)) (hv : Parallel v v') :
    q.Leads (q.text ++ v') := by
  have hlongest : ∀ s : Piece, s.Formed → s.text <+: p.text ++ v → s.text.length ≤ p.text.length := by
    generalize htext : p.text ++ v = text at hlead
    cases hlead with
    | longest _ _ hlongest => exact hlongest
    | stray | openString => cases hp
  refine .longest (h.formed hy hp) ⟨v', rfl⟩ fun s hs hbegins ↦ ?_
  by_contra hlt
  obtain ⟨u, hu⟩ := List.prefix_of_prefix_length_le ⟨v', rfl⟩ hbegins (Nat.le_of_not_le hlt)
  have hu' : u <+: v' := (List.prefix_append_right_inj q.text).mp (hu.symm ▸ hbegins)
  have hne : u ≠ [] := by
    rintro rfl
    rw [List.append_nil] at hu
    exact hlt (hu ▸ Nat.le_refl _)
  obtain ⟨s', hs', hbegins', hlt'⟩ := h.outgrown hx hy hp hs hu.symm hu' hne hv
  exact absurd (hlongest s' hs' hbegins') (Nat.not_le_of_lt hlt')

theorem parallel_of_renamed (hx : Identifier x) (hy : Identifier y) {ps qs : List Piece}
    (h : List.Forall₂ (Renamed x y) ps qs) : Parallel (ps.flatMap text) (qs.flatMap text) := by
  induction h with
  | nil => exact .nil
  | cons hpq _ ih =>
    rw [List.flatMap_cons, List.flatMap_cons]
    cases hpq with
    | same => exact ih.append _
    | anew =>
      obtain ⟨c, cs, hcx, hc, -⟩ := identifier_chars hx
      obtain ⟨d, ds, hdy, hd, -⟩ := identifier_chars hy
      rw [text, text, hcx, hdy]
      exact .turn hc hd

theorem Cuts.flatMap_text {text : List Char} {ps : List Piece} (h : Cuts text ps) :
    ps.flatMap Piece.text = text := by
  induction h with
  | nil => rfl
  | cons _ _ ih => rw [List.flatMap_cons, ih]

/-- With an identifier in place of another, a text is cut into the same pieces but for those. -/
theorem Cuts.renamed (hx : Identifier x) (hy : Identifier y) {text : List Char} {ps qs : List Piece}
    (h : Cuts text ps) (hps : ∀ p ∈ ps, p.Formed) (hpq : List.Forall₂ (Renamed x y) ps qs) :
    Cuts (qs.flatMap Piece.text) qs := by
  induction h generalizing qs with
  | nil =>
    cases hpq
    exact .nil
  | @cons p rest ps hlead hcuts ih =>
    cases hpq with
    | cons hone hrest =>
      have hv := parallel_of_renamed hx hy hrest
      rw [hcuts.flatMap_text] at hv
      rw [List.flatMap_cons]
      exact .cons (hone.leads hx hy (hps _ (.head _)) hlead hv)
        (ih (fun p h ↦ hps p (.tail _ h)) hrest)

end Longest

end Piece

namespace Scan

open Piece

variable {x y : String}

theorem readAll_formed {pieces : List Piece} {text : List Char} (hcuts : Cuts text pieces)
    (p : Progress) (h : (p.readAll pieces).faults = #[]) : ∀ q ∈ pieces, q.Formed := by
  induction hcuts generalizing p with
  | nil => simp
  | @cons q rest pieces hlead _ ih =>
    refine List.forall_mem_cons.mpr ⟨?_, ih (p.read q) h⟩
    have hread := (faults_readAll pieces (p.read q) h).1
    generalize q.text ++ rest = text at hlead
    cases hlead with
    | longest hq => exact hq
    | stray | openString => exact absurd hread (by simp [Progress.read])

theorem readAll_clean {pieces : List Piece} (hpieces : ∀ q ∈ pieces, q.Formed) {p : Progress}
    (h : p.faults = #[]) : (p.readAll pieces).faults = #[] := by
  induction pieces generalizing p with
  | nil => exact h
  | cons q pieces ih =>
    refine ih (fun q hq ↦ hpieces q (.tail _ hq)) (p := p.read q) ?_
    cases hpieces q (.head _) <;> exact h

theorem lineFeeds_identifier {name : String} (h : Identifier name) :
    lineFeeds name.toList = 0 := by
  obtain ⟨c, cs, hname, hc, hcs⟩ := identifier_chars h
  rw [hname]
  refine List.count_eq_zero.mpr fun hmem ↦ ?_
  rcases List.mem_cons.mp hmem with rfl | hmem
  · exact absurd hc (by decide)
  · exact absurd (hcs _ hmem) (by decide)

theorem piece_of_word (hx : Identifier x) (hy : Identifier y) {p : Piece} {before before' : List Char}
    {o : Option Token} (hline : lastLine before' = lastLine before) (hp : p.Formed)
    (ho : Option.Rel (Token.Renamed x y) (token? before p) o) :
    ∃ q, p.Renamed x y q ∧ token? before' q = o ∧ lineFeeds q.text = lineFeeds p.text := by
  have hsame (p : Piece) : token? before' p = token? before p := by
    cases p <;> simp [token?, hline]
  generalize htoken : token? before p = o' at ho
  cases ho with
  | none => exact ⟨p, .same, (hsame p).trans htoken, rfl⟩
  | @some t t' ht =>
    obtain ⟨anew, rfl⟩ := ht
    by_cases hanew : anew = true ∧ t.lexeme = x
    · cases p with
      | word kind lexeme literal =>
        cases htoken
        obtain ⟨rfl, rfl⟩ := hanew
        have hword : word kind lexeme literal =
            word .identifier (String.ofList lexeme).toList .nil := hp.unique hx (by simp [text])
        refine ⟨word .identifier y.toList .nil, hword ▸ .anew, ?_, ?_⟩
        · injection hword with hkind _ hliteral
          simp [token?, Token.spelled, spelling, hline, hkind, hliteral]
        · rw [hword]
          exact (lineFeeds_identifier hy).trans (lineFeeds_identifier hx).symm
      | blank | comment | stray | openString => cases htoken
    · have ht : t.spelled x y anew = t := by rw [Token.spelled, spelling, if_neg hanew]
      exact ⟨p, .same, (hsame p).trans (htoken.trans (congrArg some ht.symm)), rfl⟩

theorem pieces_of_words (hx : Identifier x) (hy : Identifier y) {ps : List Piece} :
    ∀ {before before' : List Char} {w : List Token}, lastLine before' = lastLine before →
      (∀ p ∈ ps, p.Formed) →
      List.Forall₂ (Token.Renamed x y)
        ((placed before ps).filterMap fun spot ↦ token? spot.1 spot.2) w →
      ∃ qs, List.Forall₂ (Piece.Renamed x y) ps qs ∧
        ((placed before' qs).filterMap fun spot ↦ token? spot.1 spot.2) = w := by
  induction ps with
  | nil =>
    intro _ _ _ _ _ hw
    cases hw
    exact ⟨[], .nil, rfl⟩
  | cons p ps ih =>
    intro before before' w hline hps hw
    obtain ⟨hp, hps⟩ := List.forall_mem_cons.mp hps
    have hstep {o : Option Token} {v : List Token}
        (ho : Option.Rel (Token.Renamed x y) (token? before p) o)
        (hv : List.Forall₂ (Token.Renamed x y)
          ((placed (before ++ p.text) ps).filterMap fun spot ↦ token? spot.1 spot.2) v) :
        ∃ qs, List.Forall₂ (Piece.Renamed x y) (p :: ps) qs ∧
          ((placed before' qs).filterMap fun spot ↦ token? spot.1 spot.2) = o.toList ++ v := by
      obtain ⟨q, hpq, hq, hfeeds⟩ := piece_of_word hx hy hline hp ho
      have hnext : lastLine (before' ++ q.text) = lastLine (before ++ p.text) := by
        rw [lastLine_append, lastLine_append, hline, hfeeds]
      obtain ⟨qs, hpqs, hqs⟩ := ih hnext hps hv
      refine ⟨q :: qs, .cons hpq hpqs, ?_⟩
      rw [placed, List.filterMap_cons, hq, hqs]
      cases o <;> rfl
    rw [placed, List.filterMap_cons] at hw
    dsimp only at hw
    generalize token? before p = o at hw hstep
    cases o with
    | none => exact hstep .none hw
    | some t =>
      cases hw with
      | cons ht hw => exact hstep (.some ht) hw

theorem identifier_of_word {source : String} {t : Token} (ht : t ∈ (ofText source).words)
    (hkind : t.kind = .identifier) : Identifier t.lexeme :=
  Piece.identifier_of_formed (formed_of_word ht) hkind

/-- If some of the words of a text are renamed, there is a text with these words, which is the same but for
the identifiers in their places. -/
theorem text_of_words (hx : Identifier x) (hy : Identifier y) {source : String}
    (hclean : (ofText source).faults = []) {w : List Token}
    (hw : List.Forall₂ (Token.Renamed x y) (ofText source).words w) :
    ∃ source', List.Forall₂ (Piece.Renamed x y) (cut source.toList) (cut source'.toList) ∧
      (ofText source').words = w ∧ (ofText source').faults = [] := by
  have hcuts := cuts_cut source.toList
  have hformed := readAll_formed hcuts {} ((faults_ofText source).mp hclean)
  rw [words_ofText] at hw
  obtain ⟨qs, hpq, hqs⟩ := pieces_of_words hx hy (Eq.refl (lastLine [])) hformed hw
  have hcut : qs = cut (String.ofList (qs.flatMap text)).toList := by
    rw [String.toList_ofList]
    exact cuts_iff.mp (hcuts.renamed hx hy hformed hpq)
  have hformed' := all_formed hy hpq hformed
  refine ⟨String.ofList (qs.flatMap text), hcut ▸ hpq, ?_, ?_⟩
  · rw [words_ofText, ← hcut, hqs]
  · rw [faults_ofText, ← hcut]
    exact readAll_clean hformed' rfl

end Scan

end TreeWalk
