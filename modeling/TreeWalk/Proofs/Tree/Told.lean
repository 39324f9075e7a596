import TreeWalk.Proofs.Tree.Printed

namespace TreeWalk

section Shape

inductive Expr.Shape where
  | literal | group | unary | binary | logical | var | assign | call | get | set | self | other
deriving DecidableEq

def Expr.shape : Expr → Shape
  | .literal _ => .literal
  | .group _ => .group
  | .unary _ _ => .unary
  | .binary _ _ _ => .binary
  | .logical _ _ _ => .logical
  | .var _ _ => .var
  | .assign _ _ _ => .assign
  | .call _ _ _ => .call
  | .get _ _ => .get
  | .set _ _ _ => .set
  | .self _ _ => .self
  | .ofStmt _ => .other

/-- The heads of forms that show expressions of one sort. -/
def Expr.heads : List (String × Expr.Shape) :=
  [("group", .group), ("call", .call), (".", .get), ("or", .logical), ("and", .logical)]

def Form.isName (s : String) : Bool :=
  s.toList.head?.any Piece.isWordStart && Kind.ofWord s == .identifier

/-- The sort of an assignment, from the form of its target. -/
def Form.targetShape : Form → Expr.Shape
  | .list _ => .set
  | _ => .assign

def Form.exprShape : Form → Expr.Shape
  | .quoted _ => .literal
  | .word s => if s = "this" then .self else if isName s then .var else .literal
  | .list [.word s, _] => (Expr.heads.lookup s).getD .unary
  | .list [.word s, f, _] => if s = "=" then f.targetShape else (Expr.heads.lookup s).getD .binary
  | .list _ => .call

theorem isDigit_not_wordStart {c : Char} (h : c.isDigit = true) : Piece.isWordStart c = false := by
  have hdigit : Piece.isDigit c = true := h
  exact (Piece.digit_char hdigit).2

theorem Scalar.Literal.shape {v : Scalar} (h : v.Literal) : v.form.exprShape = .literal := by
  cases h with
  | nil => decide
  | @bool b => cases b <;> decide
  | @number x hx =>
    obtain ⟨c, cs, hcs, hc⟩ := Decimal.Layout.text_begins numberLayout_plain hx
    have hstart : Piece.isWordStart c = false := by
      rcases hc with hc | rfl
      · exact isDigit_not_wordStart hc
      · decide
    show Form.exprShape (.word (Scalar.numberLayout.text x)) = .literal
    generalize Scalar.numberLayout.text x = text at hcs
    have hthis : text ≠ "this" := by
      rintro rfl
      obtain ⟨rfl, -⟩ := List.cons.inj hcs
      exact absurd hstart (by decide)
    simp [Form.exprShape, Form.isName, hcs, hstart, hthis]
  | string => rfl

theorem Identifier.isName {name : String} (h : Identifier name) : Form.isName name = true := by
  obtain ⟨-, hkind, c, cs, htext, hc, -⟩ := Piece.formed_identifier h
  rw [String.ofList_toList] at hkind
  simp [Form.isName, htext, hc, hkind]

theorem Token.IsName.identifier {t : Token} (h : t.IsName Token.Spelled) : Identifier t.lexeme :=
  h.word.identifier (by simpa using h.kind)

theorem Token.Is.spelling {t : Token} {wanted : Kind → Bool} (h : t.Is Token.Spelled wanted)
    (hwanted : ∀ k ∈ [Kind.identifier, .string, .number], wanted k = false) :
    (t.lexeme, t.kind) ∈ Kind.spellings :=
  h.word.spelling fun hmem ↦ absurd h.kind (by simp [hwanted _ hmem])

theorem Expr.OfWords.shape {e : Expr} (h : e.OfWords Token.Spelled) : e.form.exprShape = e.shape := by
  cases h with
  | literal hv => exact hv.literal.shape
  | group | assign | get | set | self => rfl
  | unary hop =>
    have hall : ∀ w ∈ Kind.spellings, Parse.isSign w.2 = true → heads.lookup w.1 = none := by decide
    have hhead := hall _ (hop.spelling (by decide)) hop.kind
    simp [Expr.form, Form.exprShape, hhead, Expr.shape]
  | binary _ hop =>
    have hall : ∀ w ∈ Kind.spellings, Parse.isBinary w.2 = true →
        heads.lookup w.1 = none ∧ w.1 ≠ "=" := by decide
    obtain ⟨hhead, hne⟩ := hall _ (hop.spelling (by decide)) hop.kind
    simp [Expr.form, Form.exprShape, hhead, hne, Expr.shape]
  | logical _ hop =>
    have hall : ∀ w ∈ Kind.spellings, Parse.isLogical w.2 = true →
        heads.lookup w.1 = some .logical ∧ w.1 ≠ "=" := by decide
    obtain ⟨hhead, hne⟩ := hall _ (hop.spelling (by decide)) hop.kind
    simp [Expr.form, Form.exprShape, hhead, hne, Expr.shape]
  | var hname =>
    have hid := Token.IsName.identifier hname
    simp [Expr.form, Form.exprShape, hid.ne_this, hid.isName, Expr.shape]
  | @call _ _ es =>
    cases es with
    | nil => rfl
    | cons _ es => cases es <;> rfl

inductive Stmt.Shape where
  | empty | expression | print | var | block | branch | loop | function | returns | cls | other
deriving DecidableEq

def Stmt.shape : Stmt → Shape
  | .empty => .empty
  | .expression _ => .expression
  | .print _ => .print
  | .var _ _ => .var
  | .block _ => .block
  | .branch _ _ _ => .branch
  | .loop _ _ => .loop
  | .function _ => .function
  | .returns _ _ => .returns
  | .cls _ _ => .cls
  | .ofExpr _ | .unknown _ => .other

def Stmt.heads : List (String × Stmt.Shape) :=
  [("empty", .empty), (";", .expression), ("print", .print), ("var", .var), ("block", .block),
    ("if", .branch), ("if-else", .branch), ("while", .loop), ("fun", .function), ("return", .returns),
    ("class", .cls)]

def Form.stmtShape : Form → Stmt.Shape
  | .list (.word s :: _) => (Stmt.heads.lookup s).getD .other
  | _ => .other

theorem Stmt.OfWords.shape {s : Stmt} (h : s.OfWords Token.Spelled) : s.form.stmtShape = s.shape := by
  cases h with
  | empty | expression | print | block | loop | cls => rfl
  | @var _ i => cases i <;> rfl
  | @branch _ _ no => cases no <;> rfl
  | @function d => cases d; rfl
  | @returns _ value => cases value <;> rfl

end Shape

section Told

variable {α : Type}

theorem forall₂_of_map_eq {f : α → Form} {R : α → α → Prop} {as : List α} : ∀ {bs : List α},
    as.map f = bs.map f → (∀ a ∈ as, ∀ b ∈ bs, f a = f b → R a b) → List.Forall₂ R as bs := by
  induction as with
  | nil =>
    intro bs h _
    cases List.map_eq_nil_iff.mp h.symm
    exact .nil
  | cons a as ih =>
    intro bs h hR
    obtain ⟨b, bs, rfl, hb, hbs⟩ := List.map_eq_cons_iff.mp h.symm
    exact .cons (hR a (.head _) b (.head _) hb.symm)
      (ih hbs.symm fun a ha b hb ↦ hR a (.tail _ ha) b (.tail _ hb))

theorem word_inj {s s' : String} (h : Form.word s = Form.word s') : s = s' := by
  injection h

theorem number_ne_word {x : Float} (hx : x.isFinite = true) {s : String}
    (hs : s.toList.head?.any Piece.isWordStart = true) : (Scalar.number x).form ≠ .word s := by
  intro h
  obtain rfl : Scalar.numberLayout.text x = s := word_inj h
  obtain ⟨c, cs, hcs, hc⟩ := Decimal.Layout.text_begins Scalar.numberLayout_plain hx
  have hstart : Piece.isWordStart c = true := by simpa [hcs] using hs
  rcases hc with hc | rfl
  · exact absurd hstart (by simp [isDigit_not_wordStart hc])
  · exact absurd hstart (by decide)

theorem Scalar.Literal.eq_of_form {v v' : Scalar} (h : v.Literal) (h' : v'.Literal)
    (hform : v.form = v'.form) : v = v' := by
  cases h with
  | nil =>
    cases h' with
    | nil => rfl
    | @bool b => cases b <;> exact absurd (word_inj hform) (by decide)
    | number hx => exact absurd hform.symm (number_ne_word hx (by decide))
    | string => cases hform
  | @bool b =>
    cases h' with
    | nil => cases b <;> exact absurd (word_inj hform) (by decide)
    | @bool b' => cases b <;> cases b' <;> first | rfl | exact absurd (word_inj hform) (by decide)
    | number hx => cases b <;> exact absurd hform.symm (number_ne_word hx (by decide))
    | string => cases hform
  | number hx =>
    cases h' with
    | nil => exact absurd hform (number_ne_word hx (by decide))
    | @bool b => cases b <;> exact absurd hform (number_ne_word hx (by decide))
    | number hy => rw [Decimal.Layout.text_injective rfl hx hy (word_inj hform)]
    | string => cases hform
  | string =>
    cases h' with
    | string => cases hform; rfl
    | nil | bool | number => cases hform

theorem Token.Is.like {t t' : Token} {wanted wanted' : Kind → Bool} (h : t.Is Token.Spelled wanted)
    (h' : t'.Is Token.Spelled wanted') (hword : t.lexeme = t'.lexeme) : t.Like t' :=
  h.word.like h'.word hword

theorem Token.Is.like_of_kind {t t' : Token} {kind : Kind} (h : t.Is Token.Spelled (· == kind))
    (h' : t'.Is Token.Spelled (· == kind)) (hkind : kind ∉ [.identifier, .string, .number]) : t.Like t' := by
  have hk : t.kind = kind := by simpa using h.kind
  have hk' : t'.kind = kind := by simpa using h'.kind
  exact h.word.like_of_kind h'.word (hk.trans hk'.symm) (hk ▸ hkind)

theorem Expr.OfWords.same_shape {e e' : Expr} (h : e.OfWords Token.Spelled) (h' : e'.OfWords Token.Spelled)
    (hform : e.form = e'.form) : e'.shape = e.shape := by
  rw [← h'.shape, ← h.shape, hform]

/-- The form of an expression tells the expression. -/
theorem Expr.OfWords.alike {e : Expr} (h : e.OfWords Token.Spelled) : ∀ {e' : Expr},
    e'.OfWords Token.Spelled → e.form = e'.form → e.Alike Token.Like e' := by
  induction h with
  | literal hv =>
    intro e' h' hform
    have hshape := (Expr.OfWords.literal hv).same_shape h' hform
    cases h' with
    | literal hv' =>
      rw [hv.literal.eq_of_form hv'.literal hform]
      exact .literal
    | _ => cases hshape
  | group he ih =>
    intro e' h' hform
    have hshape := (Expr.OfWords.group he).same_shape h' hform
    cases h' with
    | group he' =>
      simp only [Expr.form, Form.list.injEq, List.cons.injEq, and_true, true_and] at hform
      exact .group (ih he' hform)
    | _ => cases hshape
  | unary hop he ih =>
    intro e' h' hform
    have hshape := (Expr.OfWords.unary hop he).same_shape h' hform
    cases h' with
    | unary hop' he' =>
      simp only [Expr.form, Form.list.injEq, List.cons.injEq, Form.word.injEq, and_true] at hform
      exact .unary (hop.like hop' hform.1) (ih he' hform.2)
    | _ => cases hshape
  | binary hl hop hr ihl ihr =>
    intro e' h' hform
    have hshape := (Expr.OfWords.binary hl hop hr).same_shape h' hform
    cases h' with
    | binary hl' hop' hr' =>
      simp only [Expr.form, Form.list.injEq, List.cons.injEq, Form.word.injEq, and_true] at hform
      exact .binary (ihl hl' hform.2.1) (hop.like hop' hform.1) (ihr hr' hform.2.2)
    | _ => cases hshape
  | logical hl hop hr ihl ihr =>
    intro e' h' hform
    have hshape := (Expr.OfWords.logical hl hop hr).same_shape h' hform
    cases h' with
    | logical hl' hop' hr' =>
      simp only [Expr.form, Form.list.injEq, List.cons.injEq, Form.word.injEq, and_true] at hform
      exact .logical (ihl hl' hform.2.1) (hop.like hop' hform.1) (ihr hr' hform.2.2)
    | _ => cases hshape
  | var hname =>
    intro e' h' hform
    have hshape := (Expr.OfWords.var hname).same_shape h' hform
    cases h' with
    | var hname' => exact .var (Token.Is.like hname hname' (word_inj hform))
    | _ => cases hshape
  | assign hname he ih =>
    intro e' h' hform
    have hshape := (Expr.OfWords.assign hname he).same_shape h' hform
    cases h' with
    | assign hname' he' =>
      simp only [Expr.form, Form.list.injEq, List.cons.injEq, Form.word.injEq, and_true, true_and] at hform
      exact .assign (Token.Is.like hname hname' hform.1) (ih he' hform.2)
    | _ => cases hshape
  | call he hparen hes ih ihs =>
    intro e' h' hform
    have hshape := (Expr.OfWords.call he hparen hes).same_shape h' hform
    cases h' with
    | call he' hparen' hes' =>
      simp only [Expr.form, Expr.forms_eq, Form.list.injEq, List.cons.injEq, true_and] at hform
      exact .call (ih he' hform.1) (hparen.like_of_kind hparen' (by decide))
        (forall₂_of_map_eq hform.2 fun e he e' he' ↦ ihs e he (hes' e' he'))
    | _ => cases hshape
  | get he hname ih =>
    intro e' h' hform
    have hshape := (Expr.OfWords.get he hname).same_shape h' hform
    cases h' with
    | get he' hname' =>
      simp only [Expr.form, Form.list.injEq, List.cons.injEq, Form.word.injEq, and_true, true_and] at hform
      exact .get (ih he' hform.1) (Token.Is.like hname hname' hform.2)
    | _ => cases hshape
  | set he hname hi ih ihi =>
    intro e' h' hform
    have hshape := (Expr.OfWords.set he hname hi).same_shape h' hform
    cases h' with
    | set he' hname' hi' =>
      simp only [Expr.form, Form.list.injEq, List.cons.injEq, Form.word.injEq, and_true, true_and] at hform
      exact .set (ih he' hform.1.1) (Token.Is.like hname hname' hform.1.2) (ihi hi' hform.2)
    | _ => cases hshape
  | self hkeyword =>
    intro e' h' hform
    have hshape := (Expr.OfWords.self hkeyword).same_shape h' hform
    cases h' with
    | self hkeyword' => exact .self (hkeyword.like_of_kind hkeyword' (by decide))
    | _ => cases hshape

theorem FunDecl.alike {d d' : FunDecl} (hname : d.name.IsName Token.Spelled)
    (hname' : d'.name.IsName Token.Spelled) (hparams : ∀ t ∈ d.params, t.IsName Token.Spelled)
    (hparams' : ∀ t ∈ d'.params, t.IsName Token.Spelled)
    (hbody : ∀ s ∈ d.body, ∀ s' ∈ d'.body, s.form = s'.form → s.Alike Token.Like s')
    (hform : d.form = d'.form) : d.Alike Token.Like d' := by
  obtain ⟨name, params, body⟩ := d
  obtain ⟨name', params', body'⟩ := d'
  simp only [FunDecl.form, Form.list.injEq, List.cons.injEq, Form.word.injEq, true_and,
    Stmt.forms_eq] at hform
  obtain ⟨hn, hp, hb⟩ := hform
  refine .mk (Token.Is.like hname hname' hn) (forall₂_of_map_eq hp fun t ht t' ht' h ↦ ?_)
    (forall₂_of_map_eq hb hbody)
  exact Token.Is.like (hparams t ht) (hparams' t' ht') (word_inj h)

theorem Stmt.OfWords.same_shape {s s' : Stmt} (h : s.OfWords Token.Spelled) (h' : s'.OfWords Token.Spelled)
    (hform : s.form = s'.form) : s'.shape = s.shape := by
  rw [← h'.shape, ← h.shape, hform]

theorem Stmt.OfWords.alike {s : Stmt} (h : s.OfWords Token.Spelled) : ∀ {s' : Stmt},
    s'.OfWords Token.Spelled → s.form = s'.form → s.Alike Token.Like s' := by
  induction h with
  | empty =>
    intro s' h' hform
    have hshape := Stmt.OfWords.empty.same_shape h' hform
    cases h' with
    | empty => exact .empty
    | _ => cases hshape
  | expression he =>
    intro s' h' hform
    have hshape := (Stmt.OfWords.expression he).same_shape h' hform
    cases h' with
    | expression he' =>
      simp only [Stmt.form, Form.list.injEq, List.cons.injEq, and_true, true_and] at hform
      exact .expression (he.alike he' hform)
    | _ => cases hshape
  | print he =>
    intro s' h' hform
    have hshape := (Stmt.OfWords.print he).same_shape h' hform
    cases h' with
    | print he' =>
      simp only [Stmt.form, Form.list.injEq, List.cons.injEq, and_true, true_and] at hform
      exact .print (he.alike he' hform)
    | _ => cases hshape
  | @var name i hname hi =>
    intro s' h' hform
    have hshape := (Stmt.OfWords.var hname hi).same_shape h' hform
    cases h' with
    | @var name' i' hname' hi' =>
      cases i <;> cases i' <;>
        simp only [Stmt.form, Form.list.injEq, List.cons.injEq, Form.word.injEq, and_true, true_and,
          reduceCtorEq, and_false] at hform
      · exact .var (Token.Is.like hname hname' hform) .none
      · exact .var (Token.Is.like hname hname' hform.1) (.some ((hi _ rfl).alike (hi' _ rfl) hform.2))
    | _ => cases hshape
  | block hss ih =>
    intro s' h' hform
    have hshape := (Stmt.OfWords.block hss).same_shape h' hform
    cases h' with
    | block hss' =>
      simp only [Stmt.form, Stmt.forms_eq, Form.list.injEq, List.cons.injEq, true_and] at hform
      exact .block (forall₂_of_map_eq hform fun s hs s' hs' ↦ ih s hs (hss' s' hs'))
    | _ => cases hshape
  | @branch c yes no hc hyes hno ih ih' =>
    intro s' h' hform
    have hshape := (Stmt.OfWords.branch hc hyes hno).same_shape h' hform
    cases h' with
    | @branch c' yes' no' hc' hyes' hno' =>
      cases no <;> cases no' <;>
        simp only [Stmt.form, Form.list.injEq, List.cons.injEq, and_true, true_and, reduceCtorEq,
          and_false] at hform
      · exact .branch (hc.alike hc' hform.1) (ih hyes' hform.2) .none
      · exact .branch (hc.alike hc' hform.1) (ih hyes' hform.2.1)
          (.some (ih' _ rfl (hno' _ rfl) hform.2.2))
    | _ => cases hshape
  | loop hc hbody ih =>
    intro s' h' hform
    have hshape := (Stmt.OfWords.loop hc hbody).same_shape h' hform
    cases h' with
    | loop hc' hbody' =>
      simp only [Stmt.form, Form.list.injEq, List.cons.injEq, and_true, true_and] at hform
      exact .loop (hc.alike hc' hform.1) (ih hbody' hform.2)
    | _ => cases hshape
  | function hname hparams hbody ih =>
    intro s' h' hform
    have hshape := (Stmt.OfWords.function hname hparams hbody).same_shape h' hform
    cases h' with
    | function hname' hparams' hbody' =>
      exact .function (FunDecl.alike hname hname' hparams hparams'
        (fun s hs s' hs' ↦ ih s hs (hbody' s' hs')) hform)
    | _ => cases hshape
  | @returns keyword value hkeyword hvalue =>
    intro s' h' hform
    have hshape := (Stmt.OfWords.returns hkeyword hvalue).same_shape h' hform
    cases h' with
    | @returns keyword' value' hkeyword' hvalue' =>
      have hlike := hkeyword.like_of_kind hkeyword' (by decide)
      cases value <;> cases value' <;>
        simp only [Stmt.form, Form.list.injEq, List.cons.injEq, and_true, true_and, reduceCtorEq,
          and_false] at hform
      · exact .returns hlike .none
      · exact .returns hlike (.some ((hvalue _ rfl).alike (hvalue' _ rfl) hform))
    | _ => cases hshape
  | cls hname hnames hparams hbodies ih =>
    intro s' h' hform
    have hshape := (Stmt.OfWords.cls hname hnames hparams hbodies).same_shape h' hform
    cases h' with
    | cls hname' hnames' hparams' hbodies' =>
      simp only [Stmt.form, FunDecl.forms_eq, Form.list.injEq, List.cons.injEq, Form.word.injEq,
        true_and] at hform
      refine .cls (Token.Is.like hname hname' hform.1) (forall₂_of_map_eq hform.2 fun d hd d' hd' ↦ ?_)
      exact FunDecl.alike (hnames d hd) (hnames' d' hd') (hparams d hd) (hparams' d' hd')
        fun s hs s' hs' ↦ ih d hd s hs (hbodies' d' hd' s' hs')
    | _ => cases hshape

end Told

end TreeWalk
