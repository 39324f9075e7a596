import TreeWalk.Proofs.Token.Joined

namespace TreeWalk

namespace Piece

def marks : List (List Char × Kind) :=
  [(['('], .leftParen), ([')'], .rightParen), (['{'], .leftBrace), (['}'], .rightBrace),
   ([','], .comma), (['.'], .dot), (['-'], .minus), (['+'], .plus), ([';'], .semicolon),
   (['/'], .slash), (['*'], .star), (['!'], .bang), (['!', '='], .bangEqual), (['='], .equal),
   (['=', '='], .equalEqual), (['>'], .greater), (['>', '='], .greaterEqual), (['<'], .less),
   (['<', '='], .lessEqual)]

/-- The pieces that the lexical grammar describes. The kind and the literal of a word are those of its
lexeme. -/
inductive Formed : Piece → Prop
  | mark {lexeme : List Char} {kind : Kind} :
      (lexeme, kind) ∈ marks → Formed (word kind lexeme .nil)
  | name {c : Char} {cs : List Char} :
      isWordStart c = true → (∀ d ∈ cs, isWordChar d = true) →
      Formed (word (.ofWord (String.ofList (c :: cs))) (c :: cs) .nil)
  | string {body : List Char} :
      '"' ∉ body → Formed (word .string ('"' :: (body ++ ['"'])) (.string (String.ofList body)))
  | whole {digits : List Char} :
      digits ≠ [] → (∀ d ∈ digits, isDigit d = true) →
      Formed (word .number digits (.number (Decimal.ofDigits digits [])))
  | decimal {digits part : List Char} :
      digits ≠ [] → (∀ d ∈ digits, isDigit d = true) → part ≠ [] → (∀ d ∈ part, isDigit d = true) →
      Formed (word .number (digits ++ '.' :: part) (.number (Decimal.ofDigits digits part)))
  | blank {cs : List Char} : cs ≠ [] → (∀ c ∈ cs, isBlank c = true) → Formed (blank cs)
  | comment {cs : List Char} : '\n' ∉ cs → Formed (comment ('/' :: '/' :: cs))

/-- A piece stands at the start of a text. -/
inductive Leads : Piece → List Char → Prop
  | longest {p : Piece} {text : List Char} :
      p.Formed → p.text <+: text →
      (∀ q, Formed q → q.text <+: text → q.text.length ≤ p.text.length) → Leads p text
  | stray {c : Char} {rest : List Char} :
      c ≠ '"' → (∀ q, Formed q → ¬ q.text <+: c :: rest) → Leads (stray c) (c :: rest)
  | openString {rest : List Char} :
      '"' ∉ rest → Leads (openString ('"' :: rest)) ('"' :: rest)

/-- A text falls into pieces, each of which stands at the start of what is left. -/
inductive Cuts : List Char → List Piece → Prop
  | nil : Cuts [] []
  | cons {p : Piece} {rest : List Char} {ps : List Piece} :
      p.Leads (p.text ++ rest) → Cuts rest ps → Cuts (p.text ++ rest) (p :: ps)

section Marks

variable {c : Char} {kind : Kind}

theorem mem_marks_of_single? (h : single? c = some kind) : ([c], kind) ∈ marks := by
  unfold single? at h
  split at h <;> cases h <;> decide

theorem mem_marks_of_withEqual? (h : withEqual? c = some kind) : ([c, '='], kind) ∈ marks := by
  unfold withEqual? at h
  split at h <;> cases h <;> decide

theorem marks_cases {lexeme : List Char} (h : (lexeme, kind) ∈ marks) :
    ∃ c kind', single? c = some kind' ∧
      (lexeme = [c] ∧ kind = kind' ∨ lexeme = [c, '='] ∧ withEqual? c = some kind) := by
  have hall : ∀ m ∈ marks, (single? (m.1.headD ' ')).isSome = true ∧
      (m.1 = [m.1.headD ' '] ∧ single? (m.1.headD ' ') = some m.2 ∨
        m.1 = [m.1.headD ' ', '='] ∧ withEqual? (m.1.headD ' ') = some m.2) := by decide
  obtain ⟨hsome, hcases⟩ := hall _ h
  obtain ⟨kind', hkind'⟩ := Option.isSome_iff_exists.mp hsome
  refine ⟨_, kind', hkind', hcases.imp_left fun hsingle ↦ ⟨hsingle.1, ?_⟩⟩
  exact Option.some.inj (hsingle.2.symm.trans hkind')

theorem mark_char (h : single? c = some kind) :
    isBlank c = false ∧ isWordStart c = false ∧ isDigit c = false ∧ c ≠ '"' := by
  unfold single? at h
  split at h <;> cases h <;> decide

theorem mark_equal (h : single? c = some kind) {kind' : Kind} (h' : withEqual? c = some kind')
    (after : List Char) : mark c ('=' :: after) = (word kind' [c, '='] .nil, after) := by
  unfold mark
  rw [h, h']
  rfl

theorem mark_cases (h : single? c = some kind) (rest : List Char) :
    mark c rest = (word kind [c] .nil, rest) ∨
      ∃ kind' after, withEqual? c = some kind' ∧ mark c rest = (word kind' [c, '='] .nil, after) := by
  unfold mark
  rw [h]
  split
  · next hequal => exact .inr ⟨_, _, hequal, rfl⟩
  · next hkind _ => exact .inl (by rw [Option.some.inj hkind])
  · next hnone => cases hnone

theorem mark_none (h : single? c = none) (rest : List Char) : mark c rest = (stray c, rest) := by
  unfold mark
  rw [h]

end Marks

section Classes

variable {c : Char}

theorem blank_cases (h : isBlank c = true) : isWordStart c = false ∧ isDigit c = false := by
  unfold isBlank at h
  simp only [Bool.or_eq_true, decide_eq_true_eq] at h
  rcases h with (((rfl | rfl) | rfl) | rfl) | rfl <;> decide

theorem wordStart_char (h : isWordStart c = true) : isBlank c = false := by
  cases hblank : isBlank c with
  | false => rfl
  | true => exact absurd h (by simp [(blank_cases hblank).1])

theorem digit_char (h : isDigit c = true) : isBlank c = false ∧ isWordStart c = false := by
  constructor
  · cases hblank : isBlank c with
    | false => rfl
    | true => exact absurd h (by simp [(blank_cases hblank).2])
  · simp only [isDigit, Bool.and_eq_true, decide_eq_true_eq] at h
    obtain ⟨h0, h9⟩ := h
    have hunderscore : c ≠ '_' := by
      rintro rfl
      exact absurd h9 (by decide)
    have ha : ¬ 'a' ≤ c := fun ha ↦ absurd (Char.le_trans ha h9) (by decide)
    have hA : ¬ 'A' ≤ c := fun hA ↦ absurd (Char.le_trans hA h9) (by decide)
    simp [isWordStart, ha, hA, hunderscore]

end Classes

section Numbers

variable {c : Char} (rest : List Char)

theorem fraction_cases (text : List Char) : fraction text = ([], text) ∨
    ∃ d more, isDigit d = true ∧ text = '.' :: d :: more ∧
      fraction text = (d :: more.takeWhile isDigit, more.dropWhile isDigit) := by
  unfold fraction
  split
  · next d more =>
    cases hd : isDigit d with
    | true => exact .inr ⟨d, more, hd, rfl, rfl⟩
    | false => exact .inl rfl
  · exact .inl rfl

theorem digit_of_mem {cs : List Char} {d : Char} (h : d ∈ cs.takeWhile isDigit) : isDigit d = true :=
  List.mem_takeWhile_imp h

theorem number_formed (hc : isDigit c = true) : (number c rest).1.Formed := by
  have hwhole : ∀ d ∈ c :: rest.takeWhile isDigit, isDigit d = true :=
    List.forall_mem_cons.mpr ⟨hc, fun d hd ↦ digit_of_mem hd⟩
  unfold number
  rcases fraction_cases (rest.dropWhile isDigit) with h | ⟨d, more, hd, -, h⟩
  · rw [h]
    exact .whole (List.cons_ne_nil _ _) hwhole
  · rw [h]
    exact .decimal (List.cons_ne_nil _ _) hwhole (List.cons_ne_nil _ _)
      (List.forall_mem_cons.mpr ⟨hd, fun e he ↦ digit_of_mem he⟩)

end Numbers

theorem string_open {rest : List Char} (h : '"' ∉ rest) :
    string rest = (openString ('"' :: rest), []) := by
  have hnone : rest.dropWhile (· ≠ '"') = [] :=
    List.dropWhile_eq_nil_iff.mpr fun d hd ↦ decide_eq_true fun hquote ↦ h (hquote ▸ hd)
  unfold string
  rw [hnone]

theorem string_cases (rest : List Char) :
    (string rest).1.Formed ∨ '"' ∉ rest ∧ string rest = (openString ('"' :: rest), []) := by
  unfold string
  split
  · next hnone =>
    refine .inr ⟨fun hmem ↦ ?_, rfl⟩
    simpa using List.dropWhile_eq_nil_iff.mp hnone '"' hmem
  · next quote after hsome =>
    obtain rfl : quote = '"' := by
      have hhead := List.head?_dropWhile_not (· ≠ '"') rest
      rw [hsome] at hhead
      simpa using hhead
    refine .inl (.string fun hmem ↦ ?_)
    simpa using List.mem_takeWhile_imp hmem

/-- The next piece is one that the grammar describes, or a stray character, or an open string. -/
theorem next_cases (c : Char) (rest : List Char) :
    (next c rest).1.Formed ∨ (next c rest).1 = stray c ∧ c ≠ '"' ∨
      c = '"' ∧ '"' ∉ rest ∧ (next c rest).1 = openString ('"' :: rest) := by
  unfold next
  split
  · next hblank =>
    refine .inl (.blank (List.cons_ne_nil _ _) (List.forall_mem_cons.mpr ⟨hblank, fun d hd ↦ ?_⟩))
    exact List.mem_takeWhile_imp hd
  split
  · next hword => exact .inl (.name hword fun d hd ↦ List.mem_takeWhile_imp hd)
  split
  · next hdigit => exact .inl (number_formed rest hdigit)
  split
  · next hquote =>
    rcases string_cases rest with hformed | ⟨hopen, h⟩
    · exact .inl hformed
    · exact .inr (.inr ⟨hquote, hopen, by rw [h]⟩)
  · next hquote =>
    split
    · next more =>
      refine .inl (.comment fun hmem ↦ ?_)
      simpa using List.mem_takeWhile_imp hmem
    · cases hsingle : single? c with
      | none => exact .inr (.inl ⟨by rw [mark_none hsingle], hquote⟩)
      | some kind =>
        rcases mark_cases hsingle rest with h | ⟨kind', after, hequal, h⟩
        · exact .inl (by rw [h]; exact .mark (mem_marks_of_single? hsingle))
        · exact .inl (by rw [h]; exact .mark (mem_marks_of_withEqual? hequal))

/-- At the start of a text where one piece is described, another is cut. -/
structure Covers (q p : Piece) : Prop where
  formed : p.Formed
  length_le : q.text.length ≤ p.text.length
  eq_of_text : p.text = q.text → p = q

theorem Covers.refl {p : Piece} (h : p.Formed) : Covers p p := ⟨h, Nat.le_refl _, fun _ ↦ rfl⟩

theorem Covers.of_lt {p q : Piece} (h : p.Formed) (hlt : q.text.length < p.text.length) : Covers q p :=
  ⟨h, Nat.le_of_lt hlt, fun heq ↦ absurd (congrArg List.length heq) (Nat.ne_of_gt hlt)⟩

theorem next_comment (rest : List Char) : next '/' ('/' :: rest) =
    (comment ('/' :: '/' :: rest.takeWhile (· ≠ '\n')), rest.dropWhile (· ≠ '\n')) := rfl

theorem comment_formed (rest : List Char) :
    (comment ('/' :: '/' :: rest.takeWhile (· ≠ '\n'))).Formed :=
  .comment fun hmem ↦ by simpa using List.mem_takeWhile_imp hmem

theorem mark_covers {lexeme : List Char} {kind : Kind} (h : (lexeme, kind) ∈ marks) (more : List Char) :
    ∃ c rest, lexeme ++ more = c :: rest ∧ Covers (word kind lexeme .nil) (next c rest).1 := by
  obtain ⟨c, kind', hsingle, ⟨rfl, rfl⟩ | ⟨rfl, hequal⟩⟩ := marks_cases h
  · obtain ⟨hblank, hword, hdigit, hquote⟩ := mark_char hsingle
    refine ⟨c, more, rfl, ?_⟩
    by_cases hcomment : c = '/' ∧ ∃ rest, more = '/' :: rest
    · obtain ⟨rfl, rest, rfl⟩ := hcomment
      rw [next_comment]
      exact .of_lt (comment_formed rest) (by simp [text])
    · rw [next_mark hblank hword hdigit hquote fun hc rest hrest ↦ hcomment ⟨hc, rest, hrest⟩]
      rcases mark_cases hsingle more with h | ⟨kind', after, hequal, h⟩
      · rw [h]
        exact .refl (.mark (mem_marks_of_single? hsingle))
      · rw [h]
        exact .of_lt (.mark (mem_marks_of_withEqual? hequal)) (by simp [text])
  · obtain ⟨hblank, hword, hdigit, hquote⟩ := mark_char hsingle
    refine ⟨c, '=' :: more, rfl, ?_⟩
    rw [next_mark hblank hword hdigit hquote fun _ _ hrest ↦ absurd hrest (by simp),
      mark_equal hsingle hequal]
    exact .refl (.mark h)

theorem number_covers_whole {digits : List Char} (hne : digits ≠ [])
    (hdigits : ∀ d ∈ digits, isDigit d = true) (more : List Char) :
    ∃ c rest, digits ++ more = c :: rest ∧
      Covers (word .number digits (.number (Decimal.ofDigits digits []))) (next c rest).1 := by
  obtain ⟨c, cs, rfl⟩ := List.exists_cons_of_ne_nil hne
  obtain ⟨hc, hcs⟩ := List.forall_mem_cons.mp hdigits
  obtain ⟨hblank, hword⟩ := digit_char hc
  refine ⟨c, cs ++ more, rfl, ?_⟩
  have hformed := number_formed (cs ++ more) hc
  rw [next_digit hblank hword hc]
  unfold number at hformed ⊢
  rw [List.takeWhile_append_of_pos hcs] at hformed ⊢
  rcases fraction_cases ((cs ++ more).dropWhile isDigit) with h | ⟨d, ds, hd, -, h⟩
  · rw [h] at hformed ⊢
    refine ⟨hformed, by simp [text], fun heq ↦ ?_⟩
    have hlexeme : c :: (cs ++ more.takeWhile isDigit) = c :: cs := heq
    dsimp only [List.isEmpty_nil, if_true]
    rw [hlexeme]
    rfl
  · rw [h] at hformed ⊢
    refine .of_lt hformed ?_
    simp only [text, List.isEmpty_cons, Bool.false_eq_true, if_false, List.length_append,
      List.length_cons]
    omega

theorem number_covers_decimal {digits part : List Char} (hne : digits ≠ [])
    (hdigits : ∀ d ∈ digits, isDigit d = true) (hne' : part ≠ [])
    (hpart : ∀ d ∈ part, isDigit d = true) (more : List Char) :
    ∃ c rest, digits ++ '.' :: part ++ more = c :: rest ∧
      Covers (word .number (digits ++ '.' :: part) (.number (Decimal.ofDigits digits part)))
        (next c rest).1 := by
  obtain ⟨c, cs, rfl⟩ := List.exists_cons_of_ne_nil hne
  obtain ⟨d, ds, rfl⟩ := List.exists_cons_of_ne_nil hne'
  obtain ⟨hc, hcs⟩ := List.forall_mem_cons.mp hdigits
  obtain ⟨hd, hds⟩ := List.forall_mem_cons.mp hpart
  obtain ⟨hblank, hword⟩ := digit_char hc
  have hpoint : isDigit '.' = false := rfl
  refine ⟨c, cs ++ '.' :: d :: (ds ++ more), by simp, ?_⟩
  have hformed := number_formed (cs ++ '.' :: d :: (ds ++ more)) hc
  have hfraction : fraction ('.' :: d :: (ds ++ more)) =
      (d :: (ds ++ more.takeWhile isDigit), more.dropWhile isDigit) := by
    rw [fraction, if_pos hd, List.takeWhile_append_of_pos hds, List.dropWhile_append_of_pos hds]
  rw [next_digit hblank hword hc]
  unfold number at hformed ⊢
  rw [takeWhile_append_stop hpoint, dropWhile_append_stop hpoint,
    List.takeWhile_eq_self_iff.mpr hcs, List.dropWhile_eq_nil_iff.mpr hcs, List.nil_append,
    hfraction] at hformed ⊢
  refine ⟨hformed, by simp [text], fun heq ↦ ?_⟩
  have hmore : more.takeWhile isDigit = [] := by simpa [text] using heq
  rw [hmore]
  simp

/-- What the grammar describes at the start of a text is covered by what is cut there. -/
theorem Formed.covered {q : Piece} (hq : q.Formed) (more : List Char) :
    ∃ c rest, q.text ++ more = c :: rest ∧ Covers q (next c rest).1 := by
  cases hq with
  | mark h => exact mark_covers h more
  | @name c cs hc hcs =>
    refine ⟨c, cs ++ more, rfl, ?_⟩
    rw [next_word (wordStart_char hc) hc, List.takeWhile_append_of_pos hcs]
    refine ⟨.name hc ?_, by simp [text], fun heq ↦ ?_⟩
    · exact fun d hd ↦ (List.mem_append.mp hd).elim (hcs d) List.mem_takeWhile_imp
    · have hlexeme : c :: (cs ++ more.takeWhile isWordChar) = c :: cs := heq
      rw [hlexeme]
  | @string body hbody =>
    have hall : ∀ d ∈ body, (decide (d ≠ '"')) = true := fun d hd ↦
      decide_eq_true fun h ↦ hbody (h ▸ hd)
    refine ⟨'"', body ++ '"' :: more, by simp [text], ?_⟩
    have hnext : Piece.next '"' (body ++ '"' :: more) = Piece.string (body ++ '"' :: more) := rfl
    have hbody' : (body ++ '"' :: more).takeWhile (· ≠ '"') = body :=
      (takeWhile_append_stop (p := (· ≠ '"')) rfl body more).trans (List.takeWhile_eq_self_iff.mpr hall)
    have hrest : (body ++ '"' :: more).dropWhile (· ≠ '"') = '"' :: more := by
      rw [dropWhile_append_stop (p := (· ≠ '"')) rfl, List.dropWhile_eq_nil_iff.mpr hall]
      rfl
    rw [hnext, Piece.string, hbody', hrest]
    exact .refl (.string hbody)
  | @whole digits hne hdigits => exact number_covers_whole hne hdigits more
  | @decimal digits part hne hdigits hne' hpart =>
    exact number_covers_decimal hne hdigits hne' hpart more
  | @blank cs hne hcs =>
    obtain ⟨c, cs, rfl⟩ := List.exists_cons_of_ne_nil hne
    obtain ⟨hc, htail⟩ := List.forall_mem_cons.mp hcs
    refine ⟨c, cs ++ more, rfl, ?_⟩
    rw [next_blank _ hc, List.takeWhile_append_of_pos htail]
    refine ⟨.blank (List.cons_ne_nil _ _) (List.forall_mem_cons.mpr ⟨hc, fun d hd ↦ ?_⟩),
      by simp [text], fun heq ↦ congrArg Piece.blank heq⟩
    exact (List.mem_append.mp hd).elim (htail d) List.mem_takeWhile_imp
  | @comment cs hcs =>
    have hall : ∀ d ∈ cs, decide (d ≠ '\n') = true := fun d hd ↦
      decide_eq_true fun h ↦ hcs (h ▸ hd)
    refine ⟨'/', '/' :: (cs ++ more), rfl, ?_⟩
    rw [next_comment]
    refine ⟨comment_formed _, ?_, fun heq ↦ congrArg Piece.comment heq⟩
    rw [List.takeWhile_append_of_pos hall]
    simp [text]

theorem Formed.next {q : Piece} {c : Char} {rest : List Char} (hq : q.Formed)
    (h : q.text <+: c :: rest) : Covers q (next c rest).1 := by
  obtain ⟨more, hmore⟩ := h
  obtain ⟨c', rest', heq, hcovers⟩ := hq.covered more
  obtain ⟨rfl, rfl⟩ := List.cons.inj (hmore.symm.trans heq)
  exact hcovers

theorem Formed.unique {p q : Piece} (hp : p.Formed) (hq : q.Formed) (h : p.text = q.text) : p = q := by
  obtain ⟨c, rest, hrest, -⟩ := hp.covered []
  rw [List.append_nil] at hrest
  have hpn : Covers p (Piece.next c rest).1 := hp.next (hrest ▸ List.prefix_rfl)
  have hqn : Covers q (Piece.next c rest).1 := hq.next (hrest ▸ h ▸ List.prefix_rfl)
  have hprefix : (Piece.next c rest).1.text <+: p.text := by
    rw [hrest]
    exact ⟨_, text_next c rest⟩
  have htext : (Piece.next c rest).1.text = p.text := hprefix.eq_of_length_le hpn.length_le
  rw [← hpn.eq_of_text htext, ← hqn.eq_of_text (htext.trans h)]

theorem next_leads (c : Char) (rest : List Char) : (next c rest).1.Leads (c :: rest) := by
  rcases next_cases c rest with hformed | ⟨hstray, hquote⟩ | ⟨rfl, hopen, h⟩
  · exact .longest hformed ⟨_, text_next c rest⟩ fun q hq hprefix ↦ (hq.next hprefix).length_le
  · rw [hstray]
    refine .stray hquote fun q hq hprefix ↦ ?_
    have hformed := (hq.next hprefix).formed
    rw [hstray] at hformed
    cases hformed
  · rw [h]
    exact .openString hopen

theorem Leads.unique {p q : Piece} {text : List Char} (hp : p.Leads text) (hq : q.Leads text) :
    p = q := by
  have hopen {r : Piece} {rest : List Char} (hrest : '"' ∉ rest) (hr : r.Formed) :
      ¬ r.text <+: '"' :: rest := by
    intro hprefix
    have hformed := (hr.next hprefix).formed
    have hnext : next '"' rest = string rest := rfl
    rw [hnext, string_open hrest] at hformed
    cases hformed
  cases hp with
  | longest hp hprefix hlongest =>
    cases hq with
    | longest hq hprefix' hlongest' =>
      have hle := hlongest q hq hprefix'
      have hge := hlongest' p hp hprefix
      exact hp.unique hq ((List.prefix_of_prefix_length_le hprefix hprefix' hge).eq_of_length_le hle)
    | stray _ hnone => exact absurd hprefix (hnone p hp)
    | openString hrest => exact absurd hprefix (hopen hrest hp)
  | stray hquote hnone =>
    cases hq with
    | longest hq hprefix => exact absurd hprefix (hnone q hq)
    | stray => rfl
    | openString => exact absurd rfl hquote
  | openString hrest =>
    cases hq with
    | longest hq hprefix => exact absurd hprefix (hopen hrest hq)
    | stray hquote => exact absurd rfl hquote
    | openString => rfl

theorem cuts_cut (text : List Char) : Cuts text (cut text) := by
  induction hn : text.length using Nat.strongRecOn generalizing text with
  | _ n ih =>
    cases text with
    | nil =>
      rw [cut_nil]
      exact .nil
    | cons c rest =>
      have hlt : (next c rest).2.length < n := by
        rw [← hn]
        exact Nat.lt_succ_of_le (length_next_le c rest)
      rw [cut_cons]
      have hlead : (next c rest).1.Leads ((next c rest).1.text ++ (next c rest).2) := by
        rw [text_next]
        exact next_leads c rest
      have hcons := Cuts.cons hlead (ih _ hlt _ rfl)
      rwa [text_next] at hcons

theorem Leads.ne_nil {p : Piece} {text : List Char} (h : p.Leads text) : text ≠ [] := by
  cases h with
  | longest hp hprefix =>
    rintro rfl
    obtain ⟨c, rest, hrest, -⟩ := hp.covered []
    rw [List.prefix_nil.mp hprefix] at hrest
    cases hrest
  | stray | openString => exact List.cons_ne_nil _ _

/-- A text is cut in one way. -/
theorem cuts_iff {text : List Char} {ps : List Piece} : Cuts text ps ↔ ps = cut text := by
  refine ⟨fun h ↦ ?_, fun h ↦ h ▸ cuts_cut text⟩
  induction h with
  | nil => rw [cut_nil]
  | @cons p rest ps hp _ ih =>
    obtain ⟨c, cs, hcs⟩ := List.exists_cons_of_ne_nil hp.ne_nil
    have hfirst : p = (next c cs).1 := hp.unique (hcs ▸ next_leads c cs)
    have hrest : rest = (next c cs).2 := by
      have htext := text_next c cs
      rw [← hcs, ← hfirst] at htext
      exact (List.append_cancel_left htext).symm
    rw [hcs, cut_cons, ← hfirst, ← hrest, ih]

end Piece

end TreeWalk
