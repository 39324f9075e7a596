import TreeWalk.Tree.Printer

namespace TreeWalk

/-- A word, a string between quotes, or forms between parentheses. -/
inductive Form where
  | word (text : String)
  | quoted (body : String)
  | list (parts : List Form)

namespace Form

mutual

def text : Form → List Char
  | word s => s.toList
  | quoted s => '"' :: (s.toList ++ ['"'])
  | list parts => '(' :: ((spaced parts).tail ++ [')'])

def spaced : List Form → List Char
  | [] => []
  | f :: fs => ' ' :: (f.text ++ spaced fs)

end

def joined (separator : Char) (fs : List Form) : List Char := fs.flatMap fun f ↦ separator :: f.text

theorem spaced_eq (fs : List Form) : spaced fs = joined ' ' fs := by
  induction fs with
  | nil => rfl
  | cons f fs ih => rw [spaced, ih, joined, joined, List.flatMap_cons, List.cons_append]

def delimiters : List Char := [' ', '\n', '(', ')', '"']

/-- A word that ends at no place but its end. -/
structure Solid (s : String) : Prop where
  ne_nil : s.toList ≠ []
  chars : ∀ c ∈ s.toList, c ∉ delimiters

theorem Solid.of_all {s : String} (hne : s.toList ≠ []) (h : s.toList.any (· ∈ delimiters) = false) :
    Solid s :=
  ⟨hne, fun c hc hmem ↦ List.any_eq_false.mp h c hc (decide_eq_true hmem)⟩

/-- A form whose words and strings end where they seem to end. -/
inductive Clear : Form → Prop
  | word {s : String} : Solid s → Clear (word s)
  | quoted {s : String} : '"' ∉ s.toList → Clear (quoted s)
  | list {parts : List Form} : (∀ f ∈ parts, f.Clear) → Clear (list parts)

def Ends (r : List Char) : Prop := ∀ c ∈ r.head?, c ∈ [' ', '\n', ')']

def Closes (r : List Char) : Prop := ∀ c ∈ r.head?, c = ')'

theorem Closes.ends {r : List Char} (h : Closes r) : Ends r := fun c hc ↦ by simp [h c hc]

/-- The form is read off from its text, and what stands behind it is left. -/
def Reads (f : Form) : Prop :=
  ∀ ⦃g : Form⦄ ⦃r s : List Char⦄, g.Clear → Ends r → Ends s → f.text ++ r = g.text ++ s → f = g ∧ r = s

section Begins

variable {f : Form}

theorem Clear.begins (h : f.Clear) : ∃ c cs, f.text = c :: cs ∧ c ∉ [' ', '\n', ')'] := by
  cases h with
  | @word s hs =>
    obtain ⟨c, cs, hcs⟩ := List.exists_cons_of_ne_nil hs.ne_nil
    have hc := hs.chars c (hcs ▸ .head _)
    simp only [delimiters, List.mem_cons, not_or] at hc
    exact ⟨c, cs, hcs, by simp [hc]⟩
  | quoted | list => exact ⟨_, _, rfl, by decide⟩

theorem Clear.text_ne_nil (h : f.Clear) : f.text ≠ [] := by
  obtain ⟨c, cs, hcs, -⟩ := h.begins
  rw [hcs]
  exact List.cons_ne_nil c cs

end Begins

section Words

variable {s s' : String} {r r' : List Char}

theorem Ends.takeWhile {p : Char → Bool} (h : Ends r) (hp : [' ', '\n', ')'].any p = false) :
    r.takeWhile p = [] := by
  cases r with
  | nil => rfl
  | cons c cs => rw [List.takeWhile_cons, if_neg (List.any_eq_false.mp hp c (h c rfl))]

theorem takeWhile_whole {p : Char → Bool} {a : List Char} (ha : ∀ c ∈ a, p c = true)
    (hr : r.takeWhile p = []) : (a ++ r).takeWhile p = a := by
  rw [List.takeWhile_append_of_pos ha, hr, List.append_nil]

theorem Solid.takeWhile (hs : Solid s) (hr : Ends r) :
    (s.toList ++ r).takeWhile (· ∉ delimiters) = s.toList :=
  takeWhile_whole (fun c hc ↦ decide_eq_true (hs.chars c hc)) (hr.takeWhile (by decide))

theorem Solid.unique (hs : Solid s) (hs' : Solid s') (hr : Ends r) (hr' : Ends r')
    (h : s.toList ++ r = s'.toList ++ r') : s = s' ∧ r = r' := by
  have hword : s.toList = s'.toList := by rw [← hs.takeWhile hr, h, hs'.takeWhile hr']
  exact ⟨String.toList_inj.mp hword, List.append_cancel_left (hword ▸ h)⟩

theorem takeWhile_quoted (hs : '"' ∉ s.toList) :
    (s.toList ++ '"' :: r).takeWhile (· ≠ '"') = s.toList :=
  takeWhile_whole (fun _ hc ↦ decide_eq_true fun hquote ↦ hs (hquote ▸ hc)) (by simp)

theorem quoted_unique (hs : '"' ∉ s.toList) (hs' : '"' ∉ s'.toList)
    (h : s.toList ++ '"' :: r = s'.toList ++ '"' :: r') : s = s' ∧ r = r' := by
  have hbody : s.toList = s'.toList := by rw [← takeWhile_quoted hs, h, takeWhile_quoted hs']
  rw [hbody] at h
  exact ⟨String.toList_inj.mp hbody, (List.cons.inj (List.append_cancel_left h)).2⟩

theorem Solid.ne_begin {c : Char} {cs : List Char} (hs : Solid s) (hc : c ∈ delimiters) :
    s.toList ++ r ≠ c :: cs := by
  obtain ⟨d, ds, hds⟩ := List.exists_cons_of_ne_nil hs.ne_nil
  rw [hds]
  intro h
  obtain ⟨rfl, -⟩ := List.cons.inj h
  exact hs.chars d (hds ▸ .head _) hc

end Words

section Lists

variable {separator : Char} {fs gs : List Form} {r s : List Char}

theorem joined_cons (separator : Char) (f : Form) (fs : List Form) :
    joined separator (f :: fs) = separator :: (f.text ++ joined separator fs) := rfl

theorem ends_joined (hsep : separator ∈ [' ', '\n']) (hr : Closes r) : Ends (joined separator fs ++ r) := by
  cases fs with
  | nil => exact hr.ends
  | cons f fs =>
    rintro c ⟨⟩
    exact List.mem_append_left [')'] hsep

theorem closes_ne_joined (hsep : separator ∈ [' ', '\n']) (hr : Closes r) (g : Form) (gs : List Form) :
    r ≠ joined separator (g :: gs) ++ s := by
  rintro rfl
  have hclose : separator = ')' := hr separator rfl
  subst hclose
  exact absurd hsep (by decide)

/-- Forms with separators before them are read off one by one. -/
theorem joined_unique (hsep : separator ∈ [' ', '\n']) (hfs : ∀ f ∈ fs, f.Reads) (hgs : ∀ g ∈ gs, g.Clear)
    (hr : Closes r) (hs : Closes s) (h : joined separator fs ++ r = joined separator gs ++ s) :
    fs = gs ∧ r = s := by
  induction fs generalizing gs with
  | nil =>
    cases gs with
    | nil => exact ⟨rfl, h⟩
    | cons g gs => exact absurd h (closes_ne_joined hsep hr g gs)
  | cons f fs ih =>
    cases gs with
    | nil => exact absurd h.symm (closes_ne_joined hsep hs f fs)
    | cons g gs =>
      obtain ⟨hf, hfs⟩ := List.forall_mem_cons.mp hfs
      obtain ⟨hg, hgs⟩ := List.forall_mem_cons.mp hgs
      simp only [joined_cons, List.cons_append, List.append_assoc] at h
      obtain ⟨hfg, hrest⟩ := hf hg (ends_joined hsep hr) (ends_joined hsep hs) (List.cons.inj h).2
      obtain ⟨hfgs, hrest⟩ := ih hfs hgs hrest
      exact ⟨by rw [hfg, hfgs], hrest⟩

theorem closes_ne_begin (hr : Closes r) {f : Form} (hf : f.Clear) (t : List Char) : r ≠ f.text ++ t := by
  obtain ⟨c, cs, hcs, hc⟩ := hf.begins
  rw [hcs]
  rintro rfl
  rw [hr c rfl] at hc
  exact absurd hc (by decide)

theorem separated_unique (hsep : separator ∈ [' ', '\n']) (hfs : ∀ f ∈ fs, f.Clear ∧ f.Reads)
    (hgs : ∀ g ∈ gs, g.Clear) (hr : Closes r) (hs : Closes s)
    (h : (joined separator fs).tail ++ r = (joined separator gs).tail ++ s) : fs = gs ∧ r = s := by
  cases fs with
  | nil =>
    cases gs with
    | nil => exact ⟨rfl, h⟩
    | cons g gs =>
      rw [joined_cons, List.tail_cons, List.append_assoc] at h
      exact absurd h (closes_ne_begin hr (hgs g (.head _)) _)
  | cons f fs =>
    cases gs with
    | nil =>
      rw [joined_cons, List.tail_cons, List.append_assoc] at h
      exact absurd h.symm (closes_ne_begin hs (hfs f (.head _)).1 _)
    | cons g gs =>
      refine joined_unique hsep (fun f hf ↦ (hfs f hf).2) hgs hr hs ?_
      rw [joined_cons, joined_cons, List.cons_append, List.cons_append]
      exact congrArg (separator :: ·) h

end Lists

theorem Clear.reads {f : Form} (h : f.Clear) : f.Reads := by
  induction h with
  | word hw =>
    intro g r s hg hr hs h
    cases hg with
    | word hw' =>
      obtain ⟨rfl, hrest⟩ := hw.unique hw' hr hs h
      exact ⟨rfl, hrest⟩
    | quoted | list => exact absurd h (hw.ne_begin (by decide))
  | @quoted body hbody =>
    intro g r s hg _ _ h
    cases hg with
    | word hw' => exact absurd h.symm (hw'.ne_begin (by decide))
    | @quoted body' hbody' =>
      simp only [text, List.cons_append, List.append_assoc, List.nil_append] at h
      obtain ⟨rfl, hrest⟩ := quoted_unique hbody hbody' (List.cons.inj h).2
      exact ⟨rfl, hrest⟩
    | list => exact absurd (List.cons.inj h).1 (by decide)
  | @list parts hparts ih =>
    intro g r s hg _ _ h
    cases hg with
    | word hw' => exact absurd h.symm (hw'.ne_begin (by decide))
    | quoted => exact absurd (List.cons.inj h).1 (by decide)
    | @list parts' hparts' =>
      have hclose {t : List Char} : Closes (')' :: t) := by simp [Closes]
      simp only [text, List.cons_append, List.append_assoc, List.nil_append, spaced_eq] at h
      obtain ⟨rfl, hrest⟩ := separated_unique (by decide) (fun f hf ↦ ⟨hparts f hf, ih f hf⟩) hparts'
        hclose hclose (List.cons.inj h).2
      exact ⟨rfl, (List.cons.inj hrest).2⟩

theorem lines_unique {fs gs : List Form} (hfs : ∀ f ∈ fs, f.Clear) (hgs : ∀ g ∈ gs, g.Clear)
    (h : (joined '\n' fs).tail = (joined '\n' gs).tail) : fs = gs := by
  have hnone : Closes [] := nofun
  have hsep : '\n' ∈ [' ', '\n'] := by decide
  refine (separated_unique hsep (fun f hf ↦ ⟨hfs f hf, (hfs f hf).reads⟩) hgs hnone hnone ?_).1
  rw [List.append_nil, List.append_nil, h]

end Form

end TreeWalk
