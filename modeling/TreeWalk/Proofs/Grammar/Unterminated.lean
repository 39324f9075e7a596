import TreeWalk.Proofs.Grammar.Gap

namespace TreeWalk

namespace Parse

open Grammar

inductive Part where
  | statement
  | declaration
  | function
  | body

/-- The words of a part up to a semicolon that ends the last statement `s` of a body in it. The body closes
behind the semicolon. -/
inductive Upto (semicolon : Token) (s : Stmt) : Part → Nat → List Token → Prop
  | block {depth : Nat} {w : List Token} {brace : Token} : brace.kind = .leftBrace →
      Upto semicolon s .body (depth + 1) w → Upto semicolon s .statement (depth + 3) (brace :: w)
  | yes {depth : Nat} {w v : List Token} {keyword opening paren : Token} {c : Expr} :
      keyword.kind = .ifWord → opening.kind = .leftParen → Expression depth w c → paren.kind = .rightParen →
      Upto semicolon s .statement (depth + 1) v →
      Upto semicolon s .statement (depth + 3) (keyword :: opening :: (w ++ paren :: v))
  | no {depth : Nat} {w v u : List Token} {keyword opening paren otherwise : Token} {c : Expr} {yes : Stmt} :
      keyword.kind = .ifWord → opening.kind = .leftParen → Expression depth w c → paren.kind = .rightParen →
      Statement (depth + 1) false v yes → otherwise.kind = .elseWord →
      Upto semicolon s .statement (depth + 1) u →
      Upto semicolon s .statement (depth + 3) (keyword :: opening :: (w ++ paren :: (v ++ otherwise :: u)))
  | loop {depth : Nat} {w v : List Token} {keyword opening paren : Token} {c : Expr} :
      keyword.kind = .whileWord → opening.kind = .leftParen → Expression depth w c → paren.kind = .rightParen →
      Upto semicolon s .statement (depth + 1) v →
      Upto semicolon s .statement (depth + 3) (keyword :: opening :: (w ++ paren :: v))
  | forLoop {depth : Nat} {w v u x : List Token} {keyword opening : Token} {initial increment : Stmt} {c : Expr} :
      keyword.kind = .forWord → opening.kind = .leftParen → Initializer (Expression depth) w initial →
      Condition (Expression depth) v c → Increment (Expression depth) u increment →
      Upto semicolon s .statement (depth + 1) x →
      Upto semicolon s .statement (depth + 3) (keyword :: opening :: (w ++ (v ++ (u ++ x))))
  | undeclared {depth : Nat} {w : List Token} : Upto semicolon s .statement (depth + 3) w →
      Upto semicolon s .declaration (depth + 4) w
  | cls {depth : Nat} {w v : List Token} {keyword name brace : Token} {methods : List FunDecl} :
      keyword.kind = .classWord → name.kind = .identifier → brace.kind = .leftBrace →
      Sequence (Function (Declaration depth)) w methods → Upto semicolon s .function depth v →
      Upto semicolon s .declaration (depth + 4) (keyword :: name :: brace :: (w ++ v))
  | declared {depth : Nat} {w : List Token} {keyword : Token} : keyword.kind = .funWord →
      Upto semicolon s .function (depth + 1) w → Upto semicolon s .declaration (depth + 4) (keyword :: w)
  | function {depth : Nat} {w v : List Token} {name opening paren brace : Token} {params : List Token} :
      name.kind = .identifier → opening.kind = .leftParen → Parenthesised Name w (params, paren) →
      brace.kind = .leftBrace → Upto semicolon s .body depth v →
      Upto semicolon s .function depth (name :: opening :: w ++ brace :: v)
  | item {depth : Nat} {w v : List Token} {ss : List Stmt} : Sequence (Declaration depth) w ss →
      Upto semicolon s .declaration depth v → Upto semicolon s .body depth (w ++ v)
  | last {depth : Nat} {w v : List Token} {ss : List Stmt} : Sequence (Declaration depth) w ss →
      Declaration depth (v ++ [semicolon]) s → Upto semicolon s .body depth (w ++ v)

section Positions

variable {semicolon : Token} {s : Stmt} {depth : Nat} {w : List Token}

theorem Upto.statement_starts (h : Upto semicolon s .statement depth w) :
    ∃ t v, w = t :: v ∧ t.kind ∈ statementStarts := by
  cases h with
  | block hk | yes hk | no hk | loop hk | forLoop hk => exact ⟨_, _, rfl, by rw [hk]; decide⟩

theorem Upto.declaration_starts (h : Upto semicolon s .declaration depth w) :
    ∃ t v, w = t :: v ∧ t.kind ∈ declarationStarts := by
  cases h with
  | undeclared h =>
    obtain ⟨t, v, rfl, ht⟩ := h.statement_starts
    exact ⟨t, v, rfl, List.mem_append_right _ ht⟩
  | cls hk | declared hk => exact ⟨_, _, rfl, by rw [hk]; decide⟩

theorem Upto.function_starts (h : Upto semicolon s .function depth w) :
    ∃ t v, w = t :: v ∧ t.kind = .identifier := by
  cases h with
  | function hk => exact ⟨_, _, rfl, hk⟩

end Positions

section Readings

variable {g : Gap} {bound : Nat} {s : Stmt} {part : Part} {depth : Nat} {w : List Token}

def Gap.BreaksIn (g : Gap) (bound : Nat) (s : Stmt) : Part → Nat → List Token → Prop
  | .statement, depth, w => g.Breaks (statement bound depth) (Lacks s) w
  | .declaration, depth, w => g.Breaks (declaration bound depth) (Option.Rel (Lacks s)) w
  | .function, depth, w =>
    ∀ what, g.Breaks (function bound what (declaration bound depth)) (LosesIn s) w
  | .body, depth, w => g.Breaks (block bound (declaration bound depth)) (Loses s (Lacks s)) w

theorem Upto.breaks (h : Upto g.semicolon s part depth w) (hwhat : s.ending? = some g.what) :
    (g.broken w).length ≤ bound → g.BreaksIn bound s part depth w := by
  -- What stands before the part with the gap is read in both texts, and then that part by induction.
  induction h with
  | @block depth w brace hbrace _ ih =>
    intro hb
    show g.Breaks (statement bound (depth + 3)) (Lacks s) (brace :: w)
    rw [statement]
    refine (accept?_leads (by rw [hbrace]; rfl)).breaks_cons ?_
    simp only [hbrace]
    exact (ih (Nat.le_of_succ_le hb)).give fun _ _ h ↦ .block h
  | @yes depth w v keyword opening paren c hkeyword hopening hc hparen _ ih =>
    intro hb
    show g.Breaks (statement bound (depth + 3)) (Lacks s) _
    rw [statement]
    refine (accept?_leads (by rw [hkeyword]; rfl)).breaks_cons ?_
    simp only [hkeyword]
    refine ifStatement_yes hopening hc hparen (statement_local (depth + 1)) (ih (Gap.broken_le hb ?_))
      (Nat.le_of_succ_le hb)
    simp only [List.length_cons, List.length_append]
    omega
  | @no depth w v u keyword opening paren otherwise c yes hkeyword hopening hc hparen hyes helse _ ih =>
    intro hb
    show g.Breaks (statement bound (depth + 3)) (Lacks s) _
    rw [statement]
    refine (accept?_leads (by rw [hkeyword]; rfl)).breaks_cons ?_
    simp only [hkeyword]
    have htaken : g.Leads (statement bound (depth + 1)) v yes (otherwise :: u) := by
      intro k hk
      have hle := hk.length_le
      refine (statement_complete (depth + 1) (depth + 1) hyes nofun ?_).mono fun _ ↦ Nat.le_refl _
      simp only [Gap.length_broken, List.length_cons, List.length_append] at hle hb ⊢
      omega
    refine ifStatement_no hopening hc hparen htaken helse (ih (Gap.broken_le hb ?_)) (Nat.le_of_succ_le hb)
    simp only [List.length_cons, List.length_append]
    omega
  | @loop depth w v keyword opening paren c hkeyword hopening hc hparen _ ih =>
    intro hb
    show g.Breaks (statement bound (depth + 3)) (Lacks s) _
    rw [statement]
    refine (accept?_leads (by rw [hkeyword]; rfl)).breaks_cons ?_
    simp only [hkeyword]
    refine whileStatement_breaks hopening hc hparen (ih (Gap.broken_le hb ?_)) (Nat.le_of_succ_le hb)
    simp only [List.length_cons, List.length_append]
    omega
  | @forLoop depth w v u x keyword opening initial increment c hkeyword hopening hinitial hcondition hincrement
      _ ih =>
    intro hb
    show g.Breaks (statement bound (depth + 3)) (Lacks s) _
    rw [statement]
    refine (accept?_leads (by rw [hkeyword]; rfl)).breaks_cons ?_
    simp only [hkeyword]
    refine forStatement_breaks hopening hinitial hcondition hincrement (ih (Gap.broken_le hb ?_))
      (Nat.le_of_succ_le hb)
    simp only [List.length_cons, List.length_append]
    omega
  | @undeclared depth w h ih =>
    intro hb
    obtain ⟨t, v, rfl, ht⟩ := h.statement_starts
    show g.Breaks (declaration bound (depth + 4)) (Option.Rel (Lacks s)) _
    rw [declaration]
    refine Gap.Breaks.recovering ((accept?_none_leads ?_).breaks (ih hb))
    exact (by decide : ∀ kind ∈ statementStarts, opensDeclaration kind = false) _ ht
  | @cls depth w v keyword name brace methods hkeyword hname hbrace hmethods h ih =>
    intro hb
    obtain ⟨t, v, rfl, ht⟩ := h.function_starts
    show g.Breaks (declaration bound (depth + 4)) (Option.Rel (Lacks s)) _
    rw [declaration]
    refine Gap.Breaks.recovering ((accept?_leads (by rw [hkeyword]; rfl)).breaks_cons ?_)
    simp only [hkeyword]
    refine classDeclaration_breaks hname hbrace hmethods ht (ih (Gap.broken_le hb ?_) .method)
      (Nat.le_of_succ_le hb)
    simp only [List.length_cons, List.length_append]
    omega
  | @declared depth w keyword hkeyword _ ih =>
    intro hb
    show g.Breaks (declaration bound (depth + 4)) (Option.Rel (Lacks s)) _
    rw [declaration]
    refine Gap.Breaks.recovering ((accept?_leads (by rw [hkeyword]; rfl)).breaks_cons ?_)
    simp only [hkeyword]
    refine (ih (Nat.le_of_succ_le hb) .function).map fun d d' h ↦ ?_
    cases h with
    | body h => exact .function h
  | @function depth w v name opening paren brace params hname hopening hparams hbrace _ ih =>
    intro hb what
    refine function_breaks what hname hopening hparams hbrace (ih (Gap.broken_le hb ?_)) hb
    simp only [List.length_cons, List.length_append]
    omega
  | @item depth w v ss hseq h ih =>
    intro hb
    obtain ⟨t, v, rfl, ht⟩ := h.declaration_starts
    have hitem : g.Breaks (declaration bound depth) (Option.Rel (Lacks s)) (t :: v) :=
      ih (Gap.broken_le hb (List.suffix_append w _).length_le)
    exact block_breaks hseq ht (hitem.mono fun _ _ ↦ .of_rel) hb
  | @last depth w v ss hseq h =>
    intro hb
    obtain ⟨t, x, hv, ht⟩ := Parse.declaration_starts depth h
    cases v with
    | nil =>
      obtain ⟨rfl, -⟩ := List.cons.inj hv
      rw [g.ends] at ht
      exact absurd ht (by decide)
    | cons t' v =>
      obtain ⟨rfl, -⟩ := List.cons.inj hv
      have hitem : g.Breaks (declaration bound depth) (fun o o' ↦ o = some s ∧ o' = none) (t' :: v) :=
        declaration_misses h hwhat (Gap.broken_le hb (List.suffix_append w _).length_le)
      refine block_breaks hseq ht (hitem.mono ?_) hb
      rintro _ _ ⟨rfl, rfl⟩
      exact @Loses.item s _ [] []

theorem entry_breaks {room : Nat} (h : Upto g.semicolon s .declaration room w) (hwhat : s.ending? = some g.what)
    (hb : (g.broken w).length ≤ bound) (faults : Array Diagnostic) :
    (g.what = .expression ∧ entry bound room ⟨g.broken w, g.last, faults⟩ =
        (#[], ⟨g.kept, g.last, faults.push (.atToken g.brace .nestingTooDeep)⟩)) ∨
      ∃ o o' m new, Option.Rel (Lacks s) o o' ∧ m <:+ g.kept ∧
        entry bound room ⟨g.mended w, g.last, faults⟩ = (o.toArray, ⟨m, g.last, faults ++ new⟩) ∧
        entry bound room ⟨g.broken w, g.last, faults⟩ =
          (o'.toArray, ⟨m, g.last, faults.push g.fault ++ new⟩) := by
  have hread : g.Meets (Option.Rel (Lacks s)) faults (declaration bound room ⟨g.mended w, g.last, faults⟩)
    (declaration bound room ⟨g.broken w, g.last, faults⟩) := h.breaks hwhat hb faults
  unfold entry
  generalize declaration bound room _ = x at hread ⊢
  generalize declaration bound room _ = x' at hread ⊢
  cases hread with
  | @ok o o' m new ho hm => exact .inr ⟨o, o', m, new, ho, hm, rfl, rfl⟩
  | deep hexpression => exact .inl ⟨hexpression, rfl⟩
  | @error stop m new hm =>
    refine .inr ⟨none, none, afterMistake m,
      new.push (.atToken (Cursor.peek ⟨m, g.last, faults ++ new⟩) .nestingTooDeep), .none,
      (afterMistake_suffix m).trans hm, ?_, ?_⟩
    · simp [Cursor.peek]
    · simp [Cursor.peek]

end Readings

end Parse

namespace Program

open Parse Grammar

variable {room : Nat} {last : Token} {s : Stmt}

/-- How programs are read of which one has a semicolon that is missing in the other: the one complaint is added,
and behind the statements `ss` one statement lacks the item `s`. -/
structure Recovers (s : Stmt) (fault : Diagnostic) (ss : List Stmt) (mended broken : Program) : Prop where
  faults : broken.faults = fault :: mended.faults
  statements : ∃ (o o' : Option Stmt) (rest : List Stmt), Option.Rel (Lacks s) o o' ∧
    mended.statements = ss ++ o.toList ++ rest ∧ broken.statements = ss ++ o'.toList ++ rest

theorem Recovers.behind {fault : Diagnostic} {mended broken : Program} (h : Recovers s fault [] mended broken)
    (ss : List Stmt) :
    Recovers s fault ss ⟨ss ++ mended.statements, mended.faults⟩ ⟨ss ++ broken.statements, broken.faults⟩ := by
  obtain ⟨hfaults, o, o', rest, ho, hmended, hbroken⟩ := h
  exact ⟨hfaults, o, o', rest, ho, by simp [hmended], by simp [hbroken]⟩

/-- Where the mended program is correct, there is no other complaint and no other statement is lost. -/
theorem Recovers.alone {fault : Diagnostic} {ss after : List Stmt} {t : Stmt} {broken : Program}
    (h : Recovers s fault ss ⟨ss ++ t :: after, []⟩ broken) :
    ∃ t', Lacks s t t' ∧ broken = ⟨ss ++ t' :: after, [fault]⟩ := by
  obtain ⟨hfaults, o, o', rest, ho, hmended, hbroken⟩ := h
  obtain ⟨statements, faults⟩ := broken
  dsimp only at hfaults hmended hbroken
  subst hfaults hbroken
  rw [List.append_assoc, List.append_cancel_left_eq] at hmended
  cases ho with
  | none => exact ⟨t, .same, by simp [hmended]⟩
  | @some u u' hu =>
    obtain ⟨rfl, rfl⟩ := List.cons.inj hmended
    exact ⟨u', hu, by simp⟩

theorem ofWords_entry {bound : Nat} {words m : List Token} {ss : Array Stmt} {new : Array Diagnostic}
    (hb : words.length ≤ bound) (hm : m.length < words.length)
    (hentry : entry bound room ⟨words, last, #[]⟩ = (ss, ⟨m, last, new⟩)) :
    ofWords room words last =
      ⟨ss.toList ++ (ofWords room m last).statements, new.toList ++ (ofWords room m last).faults⟩ := by
  obtain ⟨n, rfl⟩ : ∃ n, bound = n + 1 := ⟨bound - 1, by omega⟩
  have hne : words ≠ [] := List.ne_nil_of_length_pos (Nat.zero_lt_of_lt hm)
  have hbehind : m.length ≤ n := by omega
  have hwhole : declarations (n + 1) room (n + 1) #[] ⟨words, last, #[]⟩ = _ := declarations_last hb hb #[] #[]
  have hrest : declarations (n + 1) room n ss ⟨m, last, new⟩ = _ :=
    declarations_last (Nat.le_succ_of_le hbehind) hbehind ss new
  rw [declarations_succ hne, hentry, Array.empty_append, hrest] at hwhole
  obtain ⟨hstatements, hcursor⟩ := Prod.mk.inj hwhole
  have hstatements := congrArg Array.toList hstatements
  have hfaults := congrArg (·.faults.toList) hcursor
  simp only [Array.toList_append, List.nil_append] at hstatements hfaults
  rw [hstatements, hfaults]

theorem ofWords_gap {g : Gap} {w : List Token} (h : Upto g.semicolon s .declaration room w)
    (hwhat : s.ending? = some g.what) :
    (g.what = .expression ∧
        .atToken g.brace .nestingTooDeep ∈ (ofWords room (g.broken w) g.last).faults) ∨
      Recovers s g.fault [] (ofWords room (g.mended w) g.last) (ofWords room (g.broken w) g.last) := by
  have hkept := g.kept_length_le
  have hlength := g.length_broken w
  have hmended : (g.mended w).length ≤ (g.broken w).length := Gap.Follows.length_le (.inl rfl)
  rcases entry_breaks h hwhat (Nat.le_refl _) #[] with
    ⟨hexpression, hentry⟩ | ⟨o, o', m, new, ho, hm, hentry, hentry'⟩
  · refine .inl ⟨hexpression, ?_⟩
    rw [ofWords_entry (Nat.le_refl _) (by omega) hentry]
    simp
  · have hm := hm.length_le
    refine .inr ?_
    rw [ofWords_entry hmended (by simp only [Gap.mended, List.length_append, List.length_cons]; omega) hentry,
      ofWords_entry (Nat.le_refl _) (by omega) hentry']
    exact ⟨by simp, o, o', (ofWords room m g.last).statements, ho, by simp, by simp⟩

theorem ofWords_behind {w x : List Token} {ss : List Stmt} {first : Token}
    (hw : Sequence (Declaration room) w ss) (hfirst : first.kind ∈ declarationStarts) :
    ofWords room (w ++ first :: x) last =
      ⟨ss ++ (ofWords room (first :: x) last).statements, (ofWords room (first :: x) last).faults⟩ := by
  have hopen : first.kind ≠ .elseWord := fun h ↦ by
    rw [h] at hfirst
    revert hfirst
    decide
  have hread := ofWords_eq last hw (Nat.le_refl room)
  have happend := ofWords_append (B := first :: x) (by rw [hread]) (.inl rfl) fun _ h ↦ by
    cases h
    exact hopen
  rw [hread] at happend
  simpa [ofWords, declarations] using happend

theorem ofWords_holds {words : List Token} (hne : words ≠ [])
    (hclean : (ofWords room words last).faults = []) :
    ∃ t after, (ofWords room words last).statements = t :: after := by
  have hseq := ofWords_sound hclean
  generalize (ofWords room words last).statements = statements at hseq
  cases hseq with
  | nil => exact absurd rfl hne
  | @cons _ _ t after => exact ⟨t, after, rfl⟩

/-- In a correct program a semicolon ends the last statement `s` of a body, which the brace behind it closes.
Without the semicolon there is a complaint about that brace, before those of the mended program: the one with the
semicolon, but neither with the brace nor with the words that go after the mistake. Both have the statements before
the one that holds the body. If the mended program is correct and has the other statements too, then this is
the only complaint, and nothing else is lost. -/
theorem ofWords_unterminated {w v post : List Token} {semicolon brace : Token} {ss : List Stmt} {what : Missing}
    (hw : Sequence (Declaration room) w ss) (hv : Upto semicolon s .declaration room v)
    (hwhat : s.ending? = some what) (hsemicolon : semicolon.kind = .semicolon) (hbrace : brace.kind = .rightBrace)
    (hclean : (ofWords room (w ++ v ++ semicolon :: brace :: post) last).faults = []) :
    ∃ t after, (ofWords room (w ++ v ++ semicolon :: brace :: post) last).statements = ss ++ t :: after ∧
      let mended := ofWords room (w ++ v ++ semicolon :: afterMistake (brace :: post)) last
      let broken := ofWords room (w ++ v ++ brace :: post) last
      (what = .expression ∧ .atToken brace .nestingTooDeep ∈ broken.faults) ∨
        Recovers s (.atToken brace (.expected what)) ss mended broken ∧
          ∀ t', mended = ⟨ss ++ t' :: after, []⟩ →
            ∃ t'', Lacks s t' t'' ∧ broken = ⟨ss ++ t'' :: after, [.atToken brace (.expected what)]⟩ := by
  let g : Gap := ⟨semicolon, brace, post, last, what, hsemicolon, hbrace⟩
  obtain ⟨first, u, rfl, hfirst⟩ := hv.declaration_starts
  have hparts (x : List Token) : ofWords room (w ++ (first :: u) ++ x) last =
      ⟨ss ++ (ofWords room (first :: u ++ x) last).statements, (ofWords room (first :: u ++ x) last).faults⟩ := by
    rw [List.append_assoc]
    exact ofWords_behind hw hfirst
  obtain ⟨t, after, hholds⟩ := @ofWords_holds room last (first :: u ++ semicolon :: brace :: post) nofun (by
    simpa only [hparts] using hclean)
  refine ⟨t, after, by rw [hparts, hholds], ?_⟩
  simp only [hparts]
  rcases ofWords_gap (g := g) hv hwhat with hdeep | hrecovers
  · exact .inl hdeep
  · have hrecovers := hrecovers.behind ss
    refine .inr ⟨hrecovers, fun t' hmended ↦ ?_⟩
    have hmended : (⟨ss ++ (ofWords room (g.mended (first :: u)) g.last).statements,
      (ofWords room (g.mended (first :: u)) g.last).faults⟩ : Program) = ⟨ss ++ t' :: after, []⟩ := hmended
    rw [hmended] at hrecovers
    exact hrecovers.alone

def leftBrace : Token := ⟨.leftBrace, "\x7b", .nil, 1⟩

def rightBrace : Token := ⟨.rightBrace, "\x7d", .nil, 1⟩

theorem printed_upto {depth : Nat} (h : (ofWords depth printed ⟨.eof, "", .nil, 1⟩).faults = [])
    (hs : (ofWords depth printed ⟨.eof, "", .nil, 1⟩).statements = [.print (.literal .nil)]) :
    Upto ⟨.semicolon, ";", .nil, 1⟩ (.print (.literal .nil)) .body depth (printed.take 2) := by
  have hseq := ofWords_sound h
  rw [hs] at hseq
  generalize hx : printed = x at hseq
  cases hseq with
  | @cons w v _ _ hprint hnone =>
    cases hnone
    rw [List.append_nil] at hx
    subst hx
    exact .last .nil hprint

/-- Without its semicolon, the statement in `{ print nil; } print nil;` takes the brace with it, and the block
ends nowhere. -/
theorem block_cascades :
    Upto ⟨.semicolon, ";", .nil, 1⟩ (.print (.literal .nil)) .declaration 24 (leftBrace :: printed.take 2) ∧
      ofWords 24 (leftBrace :: printed ++ rightBrace :: printed) ⟨.eof, "", .nil, 1⟩ =
        ⟨[.block [.print (.literal .nil)], .print (.literal .nil)], []⟩ ∧
      ofWords 24 (leftBrace :: printed.take 2 ++ rightBrace :: printed) ⟨.eof, "", .nil, 1⟩ =
        ⟨[], [.atToken rightBrace (.expected .printEnd),
          .atToken ⟨.eof, "", .nil, 1⟩ (.expected .blockEnd)]⟩ :=
  ⟨.undeclared (.block rfl (printed_upto rfl rfl)), rfl, rfl⟩

/-- In `{ { print nil } { print nil; } } print nil;` what goes with the brace opens the next block, so that the
braces are balanced still. -/
theorem blocks_unterminated : ∃ t,
    Lacks (.print (.literal .nil)) (.block [.block [.print (.literal .nil), .print (.literal .nil)]]) t ∧
      ofWords 24 ([] ++ (leftBrace :: leftBrace :: printed.take 2) ++ rightBrace ::
          (leftBrace :: printed ++ rightBrace :: rightBrace :: printed)) ⟨.eof, "", .nil, 1⟩ =
        ⟨[t, .print (.literal .nil)], [.atToken rightBrace (.expected .printEnd)]⟩ := by
  have hupto : Upto ⟨.semicolon, ";", .nil, 1⟩ (.print (.literal .nil)) .declaration 24
      (leftBrace :: leftBrace :: printed.take 2) :=
    .undeclared (.block rfl (.item .nil (.undeclared (.block rfl (printed_upto rfl rfl)))))
  have hread : ofWords 24 ([] ++ (leftBrace :: leftBrace :: printed.take 2) ++
      ⟨.semicolon, ";", .nil, 1⟩ :: rightBrace ::
        (leftBrace :: printed ++ rightBrace :: rightBrace :: printed)) ⟨.eof, "", .nil, 1⟩ =
      ⟨[.block [.block [.print (.literal .nil)], .block [.print (.literal .nil)]], .print (.literal .nil)], []⟩ :=
    rfl
  obtain ⟨t, after, hwhole, hdeep | ⟨-, hrecovers⟩⟩ :=
    ofWords_unterminated .nil hupto rfl rfl rfl (congrArg Program.faults hread)
  · cases hdeep.1
  · rw [hread] at hwhole
    obtain ⟨-, rfl⟩ := List.cons.inj hwhole
    exact hrecovers _ rfl

end Program

end TreeWalk
