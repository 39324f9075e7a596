import TreeWalk.Proofs.Decimal.Notation
import TreeWalk.Proofs.Token.Spelled
import TreeWalk.Proofs.Tree.OfWords

namespace TreeWalk

def Scalar.form : Scalar → Form
  | .string s => .quoted s
  | value => .word value.text

mutual

def Expr.form : Expr → Form
  | .literal value => value.form
  | .group e => .list [.word "group", e.form]
  | .unary operator e => .list [.word operator.lexeme, e.form]
  | .binary l operator r | .logical l operator r => .list [.word operator.lexeme, l.form, r.form]
  | .var name _ => .word name.lexeme
  | .assign name e _ => .list [.word "=", .word name.lexeme, e.form]
  | .call e _ es => .list (.word "call" :: e.form :: Expr.forms es)
  | .get e name => .list [.word ".", e.form, .word name.lexeme]
  | .set e name i => .list [.word "=", .list [.word ".", e.form, .word name.lexeme], i.form]
  | .self _ _ => .word "this"
  | .ofStmt s => s.form

def Expr.forms : List Expr → List Form
  | [] => []
  | e :: es => e.form :: Expr.forms es

def Stmt.form : Stmt → Form
  | .empty => .list [.word "empty"]
  | .expression e => .list [.word ";", e.form]
  | .print e => .list [.word "print", e.form]
  | .var name none => .list [.word "var", .word name.lexeme]
  | .var name (some e) => .list [.word "var", .word name.lexeme, e.form]
  | .block ss => .list (.word "block" :: Stmt.forms ss)
  | .branch c yes none => .list [.word "if", c.form, yes.form]
  | .branch c yes (some no) => .list [.word "if-else", c.form, yes.form, no.form]
  | .loop c body => .list [.word "while", c.form, body.form]
  | .function d => d.form
  | .returns _ none => .list [.word "return"]
  | .returns _ (some e) => .list [.word "return", e.form]
  | .cls name ds => .list (.word "class" :: .word name.lexeme :: FunDecl.forms ds)
  | .ofExpr e => e.form
  | .unknown kind => .word kind

def Stmt.forms : List Stmt → List Form
  | [] => []
  | s :: ss => s.form :: Stmt.forms ss

def FunDecl.form : FunDecl → Form
  | .mk name params body =>
    .list (.word "fun" :: .word name.lexeme :: .list (params.map fun t ↦ .word t.lexeme) :: Stmt.forms body)

def FunDecl.forms : List FunDecl → List Form
  | [] => []
  | d :: ds => d.form :: FunDecl.forms ds

end

theorem Expr.forms_eq (es : List Expr) : Expr.forms es = es.map Expr.form := by
  induction es with
  | nil => rfl
  | cons e es ih => rw [Expr.forms, ih, List.map_cons]

theorem Stmt.forms_eq (ss : List Stmt) : Stmt.forms ss = ss.map Stmt.form := by
  induction ss with
  | nil => rfl
  | cons s ss ih => rw [Stmt.forms, ih, List.map_cons]

theorem FunDecl.forms_eq (ds : List FunDecl) : FunDecl.forms ds = ds.map FunDecl.form := by
  induction ds with
  | nil => rfl
  | cons d ds ih => rw [FunDecl.forms, ih, List.map_cons]

section Clear

open Form

theorem clear_word {s : String} (h : s.toList ≠ [] ∧ s.toList.any (· ∈ delimiters) = false) :
    (Form.word s).Clear := .word (.of_all h.1 h.2)

theorem numeral_not_delimiter {c : Char} (h : Decimal.Layout.Numeral c) : c ∉ delimiters := by
  have hnone : delimiters.any (fun c ↦ c.isDigit || c ∈ ['.', 'e', '+', '-']) = false := by decide
  intro hmem
  refine List.any_eq_false.mp hnone c hmem ?_
  rcases h with h | h
  · rw [h, Bool.true_or]
  · rw [decide_eq_true h, Bool.or_true]

theorem Scalar.numberLayout_plain : numberLayout.pointZero = "" := rfl

theorem Scalar.Literal.clear {v : Scalar} (h : v.Literal) : v.form.Clear := by
  cases h with
  | nil => exact clear_word (by decide)
  | @bool b => cases b <;> exact clear_word (by decide)
  | @number x hx =>
    obtain ⟨c, cs, hcs, -⟩ := Decimal.Layout.text_begins numberLayout_plain hx
    have hchars := Decimal.Layout.numeral_text numberLayout_plain hx
    refine .word ⟨?_, fun c hc ↦ numeral_not_delimiter (hchars c hc)⟩
    show (Scalar.numberLayout.text x).toList ≠ []
    simp [hcs]
  | string hs => exact .quoted hs

theorem Scalar.OfWords.literal {v : Scalar} (h : v.OfWords Token.Spelled) : v.Literal := by
  cases h with
  | nil => exact .nil
  | bool => exact .bool
  | value ht => exact ht.word.literal

theorem Token.Is.clear {t : Token} {wanted : Kind → Bool} (h : t.Is Token.Spelled wanted)
    (hwanted : ∀ k ∈ [Kind.leftParen, .rightParen, .string, .number], wanted k = false) :
    (Form.word t.lexeme).Clear := by
  refine .word (h.word.solid fun hmem ↦ ?_)
  exact absurd h.kind (by simp [hwanted _ hmem])

theorem Token.IsName.clear {t : Token} (h : t.IsName Token.Spelled) : (Form.word t.lexeme).Clear :=
  Token.Is.clear h (by decide)

theorem Expr.OfWords.clear {e : Expr} (h : e.OfWords Token.Spelled) : e.form.Clear := by
  induction h with
  | literal hv => exact hv.literal.clear
  | group _ ih => exact .list (by simpa using ⟨clear_word (by decide), ih⟩)
  | unary hop _ ih => exact .list (by simpa using ⟨hop.clear (by decide), ih⟩)
  | binary _ hop _ ihl ihr => exact .list (by simpa using ⟨hop.clear (by decide), ihl, ihr⟩)
  | logical _ hop _ ihl ihr => exact .list (by simpa using ⟨hop.clear (by decide), ihl, ihr⟩)
  | var hname => exact Token.IsName.clear hname
  | assign hname _ ih =>
    exact .list (by simpa using ⟨clear_word (by decide), Token.IsName.clear hname, ih⟩)
  | call _ _ _ ih ihs => exact .list (by simpa [Expr.forms_eq] using ⟨clear_word (by decide), ih, ihs⟩)
  | get _ hname ih => exact .list (by simpa using ⟨clear_word (by decide), ih, Token.IsName.clear hname⟩)
  | @set name object value _ hname _ ih ih' =>
    have htarget : (Form.list [.word ".", object.form, .word name.lexeme]).Clear :=
      .list (by simpa using ⟨clear_word (by decide), ih, Token.IsName.clear hname⟩)
    exact .list (by simpa using ⟨clear_word (by decide), htarget, ih'⟩)
  | self => exact clear_word (by decide)

theorem FunDecl.clear {d : FunDecl} (hname : d.name.IsName Token.Spelled)
    (hparams : ∀ t ∈ d.params, t.IsName Token.Spelled) (hbody : ∀ s ∈ d.body, s.form.Clear) :
    d.form.Clear := by
  obtain ⟨name, params, body⟩ := d
  have hlist : (Form.list (params.map fun t ↦ .word t.lexeme)).Clear := by
    refine .list fun f hf ↦ ?_
    obtain ⟨t, ht, rfl⟩ := List.mem_map.mp hf
    exact Token.IsName.clear (hparams t ht)
  refine .list ?_
  simpa [Stmt.forms_eq] using ⟨clear_word (by decide), Token.IsName.clear hname, hlist, hbody⟩

theorem Stmt.OfWords.clear {s : Stmt} (h : s.OfWords Token.Spelled) : s.form.Clear := by
  induction h with
  | empty => exact .list (by simpa using clear_word (by decide))
  | expression he | print he => exact .list (by simpa using ⟨clear_word (by decide), he.clear⟩)
  | @var name i hname hi =>
    cases i with
    | none => exact .list (by simpa using ⟨clear_word (by decide), Token.IsName.clear hname⟩)
    | some e =>
      exact .list (by simpa using ⟨clear_word (by decide), Token.IsName.clear hname, (hi e rfl).clear⟩)
  | block _ ih => exact .list (by simpa [Stmt.forms_eq] using ⟨clear_word (by decide), ih⟩)
  | @branch c yes no hc _ _ ih ih' =>
    cases no with
    | none => exact .list (by simpa using ⟨clear_word (by decide), hc.clear, ih⟩)
    | some no => exact .list (by simpa using ⟨clear_word (by decide), hc.clear, ih, ih' no rfl⟩)
  | loop hc _ ih => exact .list (by simpa using ⟨clear_word (by decide), hc.clear, ih⟩)
  | function hname hparams _ ih => exact FunDecl.clear hname hparams ih
  | @returns keyword value _ hvalue =>
    cases value with
    | none => exact .list (by simpa using clear_word (by decide))
    | some e => exact .list (by simpa using ⟨clear_word (by decide), (hvalue e rfl).clear⟩)
  | @cls name ds hname hnames hparams _ ih =>
    have hall : ∀ d ∈ ds, d.form.Clear := fun d hd ↦ FunDecl.clear (hnames d hd) (hparams d hd) (ih d hd)
    exact .list (by simpa [FunDecl.forms_eq] using ⟨clear_word (by decide), Token.IsName.clear hname, hall⟩)

end Clear

section Text

open Form

variable {α β : Type}

namespace Printer

theorem bind_eq_ok {x : Except Halt α} {f : α → Except Halt β} {b : β} :
    (x >>= f) = .ok b ↔ ∃ a, x = .ok a ∧ f a = .ok b := by
  cases x with
  | ok a => exact ⟨fun h ↦ ⟨a, rfl, h⟩, fun ⟨_, h, h'⟩ ↦ by cases h; exact h'⟩
  | error e => exact ⟨fun h ↦ (by cases h), fun ⟨_, h, _⟩ ↦ by cases h⟩

theorem texts_eq {f : α → Except Halt String} {form : α → Form} {as : List α}
    (hf : ∀ a ∈ as, ∀ text, f a = .ok text → text.toList = (form a).text) : ∀ {texts : List String},
    as.mapM f = .ok texts → texts.map String.toList = (as.map form).map Form.text := by
  induction as with
  | nil =>
    intro texts h
    cases h
    rfl
  | cons a as ih =>
    intro texts h
    rw [List.mapM_cons] at h
    obtain ⟨text, ha, h⟩ := bind_eq_ok.mp h
    obtain ⟨texts', has, h⟩ := bind_eq_ok.mp h
    cases h
    obtain ⟨hfa, hfas⟩ := List.forall_mem_cons.mp hf
    rw [List.map_cons, List.map_cons, List.map_cons, hfa text ha, ih hfas has]

section Separated

variable {separator : String} {c : Char} (hc : separator.toList = [c])
include hc

theorem toList_behind {fs : List Form} : ∀ {head : String} {parts : List String},
    parts.map String.toList = fs.map Form.text →
    (separator.intercalate (head :: parts)).toList = head.toList ++ joined c fs := by
  induction fs with
  | nil =>
    intro head parts h
    obtain rfl : parts = [] := List.map_eq_nil_iff.mp h
    rw [String.intercalate_singleton]
    exact (List.append_nil _).symm
  | cons f fs ih =>
    intro head parts h
    obtain ⟨part, parts, rfl, hpart, hparts⟩ := List.map_eq_cons_iff.mp h
    rw [String.intercalate_cons_cons, String.toList_append, String.toList_append, ih hparts, hc, hpart,
      joined_cons, List.append_assoc, List.singleton_append]

theorem toList_separated {parts : List String} {fs : List Form}
    (h : parts.map String.toList = fs.map Form.text) :
    (separator.intercalate parts).toList = (joined c fs).tail := by
  cases fs with
  | nil =>
    obtain rfl : parts = [] := List.map_eq_nil_iff.mp h
    rw [String.intercalate_nil]
    rfl
  | cons f fs =>
    obtain ⟨part, parts, rfl, hpart, hparts⟩ := List.map_eq_cons_iff.mp h
    rw [toList_behind hc hparts, hpart, joined_cons, List.tail_cons]

end Separated

theorem toList_form {head : String} {parts : List String} {fs : List Form}
    (h : parts.map String.toList = fs.map Form.text) (hfs : ∀ f ∈ fs, f.Clear) :
    (form head parts).toList = '(' :: (head.toList ++ joined ' ' fs ++ [')']) := by
  have hinner : (" ".intercalate parts).toList = (joined ' ' fs).tail := toList_separated (by decide) h
  unfold form
  dsimp only
  cases fs with
  | nil =>
    have hempty : " ".intercalate parts = "" := String.toList_inj.mp hinner
    simp [hempty, joined]
  | cons f fs =>
    have hne : " ".intercalate parts ≠ "" := fun hempty ↦ by
      rw [hempty, joined_cons, List.tail_cons] at hinner
      exact (hfs f (.head _)).text_ne_nil (List.append_eq_nil_iff.mp hinner.symm).1
    rw [if_neg (by simpa using hne)]
    simp [hinner, joined_cons]

theorem form_text {head : String} {parts : List String} (fs : List Form)
    (h : parts.map String.toList = fs.map Form.text) (hfs : ∀ f ∈ fs, f.Clear) :
    (form head parts).toList = (Form.list (.word head :: fs)).text := by
  rw [toList_form h hfs, Form.text, spaced, List.tail_cons, spaced_eq, Form.text]

theorem expr_room {room : Nat} {e : Expr} {text : String} (h : expr room e = .ok text) :
    ∃ r, room = r + 4 := by
  match room with
  | 0 | 1 | 2 | 3 => simp [expr] at h
  | r + 4 => exact ⟨r, rfl⟩

theorem literal_text (v : Scalar) : (literal v).toList = v.form.text := by
  cases v with
  | string s => simp [literal, Scalar.form, Form.text]
  | nil | bool | number | nan => rfl

theorem expr_text {e : Expr} (he : e.OfWords Token.Spelled) : ∀ {room : Nat} {text : String},
    expr room e = .ok text → text.toList = e.form.text := by
  induction he with
  | @literal v _ =>
    intro room text h
    obtain ⟨room, rfl⟩ := expr_room h
    rw [expr] at h
    cases h
    exact literal_text v
  | var | self =>
    intro room text h
    obtain ⟨room, rfl⟩ := expr_room h
    rw [expr] at h
    cases h
    rfl
  | @group e he ih | @unary _ e _ he ih =>
    intro room text h
    obtain ⟨room, rfl⟩ := expr_room h
    rw [expr] at h
    obtain ⟨inner, hinner, h⟩ := bind_eq_ok.mp h
    cases h
    exact form_text [e.form] (by simp [ih hinner]) (by simpa using he.clear)
  | @binary _ l r hl _ hr ihl ihr | @logical _ l r hl _ hr ihl ihr =>
    intro room text h
    obtain ⟨room, rfl⟩ := expr_room h
    rw [expr] at h
    obtain ⟨left, hleft, h⟩ := bind_eq_ok.mp h
    obtain ⟨right, hright, h⟩ := bind_eq_ok.mp h
    cases h
    exact form_text [l.form, r.form] (by simp [ihl hleft, ihr hright])
      (by simpa using ⟨hl.clear, hr.clear⟩)
  | @assign name e _ _ ih =>
    intro room text h
    obtain ⟨room, rfl⟩ := expr_room h
    rw [expr] at h
    obtain ⟨value, hvalue, h⟩ := bind_eq_ok.mp h
    cases h
    simp [Expr.form, Form.text, spaced, ih hvalue]
  | @call paren e es he _ hes ih ihs =>
    intro room text h
    obtain ⟨room, rfl⟩ := expr_room h
    rw [expr] at h
    obtain ⟨callee, hcallee, h⟩ := bind_eq_ok.mp h
    obtain ⟨texts, htexts, h⟩ := bind_eq_ok.mp h
    cases h
    rw [Expr.form, Expr.forms_eq]
    refine form_text (e.form :: es.map Expr.form) ?_ ?_
    · rw [List.map_cons, List.map_cons, ih hcallee, texts_eq (fun e he _ h ↦ ihs e he h) htexts]
    · simpa using ⟨he.clear, fun e h ↦ (hes e h).clear⟩
  | @get name e _ _ ih =>
    intro room text h
    obtain ⟨room, rfl⟩ := expr_room h
    rw [expr] at h
    obtain ⟨object, hobject, h⟩ := bind_eq_ok.mp h
    cases h
    simp [Expr.form, Form.text, spaced, ih hobject]
  | @set name e i _ _ _ ih ih' =>
    intro room text h
    obtain ⟨room, rfl⟩ := expr_room h
    rw [expr] at h
    obtain ⟨object, hobject, h⟩ := bind_eq_ok.mp h
    obtain ⟨value, hvalue, h⟩ := bind_eq_ok.mp h
    cases h
    simp [Expr.form, Form.text, spaced, ih hobject, ih' hvalue]

theorem stmt_room {room : Nat} {s : Stmt} {text : String} (h : stmt room s = .ok text) :
    ∃ r, room = r + 6 := by
  match room with
  | 0 | 1 | 2 | 3 | 4 | 5 => simp [stmt] at h
  | r + 6 => exact ⟨r, rfl⟩

theorem function_text {d : FunDecl} {body : List String}
    (h : body.map String.toList = (d.body.map Stmt.form).map Form.text) :
    (function d body).toList = d.form.text := by
  obtain ⟨name, params, ss⟩ := d
  have hblank : " ".toList = [' '] := by decide
  have hparams : (" ".intercalate (params.map (·.lexeme))).toList =
      (joined ' ' (params.map fun t ↦ .word t.lexeme)).tail :=
    toList_separated hblank (by simp [Form.text, Function.comp_def])
  unfold function
  dsimp only
  rw [String.toList_append, String.toList_append, toList_behind hblank h]
  simp [FunDecl.form, FunDecl.name, FunDecl.params, FunDecl.body, Form.text, spaced, spaced_eq, hparams,
    Stmt.forms_eq]

theorem stmt_text {s : Stmt} (hs : s.OfWords Token.Spelled) : ∀ {room : Nat} {text : String},
    stmt room s = .ok text → text.toList = s.form.text := by
  induction hs with
  | empty =>
    intro room text h
    obtain ⟨room, rfl⟩ := stmt_room h
    rw [stmt] at h
    cases h
    rfl
  | @expression e he | @print e he =>
    intro room text h
    obtain ⟨room, rfl⟩ := stmt_room h
    rw [stmt] at h
    obtain ⟨value, hvalue, h⟩ := bind_eq_ok.mp h
    cases h
    exact form_text [e.form] (by simp [expr_text he hvalue]) (by simpa using he.clear)
  | @var name i _ hi =>
    intro room text h
    obtain ⟨room, rfl⟩ := stmt_room h
    cases i with
    | none =>
      rw [stmt] at h
      cases h
      simp [Stmt.form, Form.text, spaced]
    | some e =>
      rw [stmt] at h
      obtain ⟨value, hvalue, h⟩ := bind_eq_ok.mp h
      cases h
      simp [Stmt.form, Form.text, spaced, expr_text (hi e rfl) hvalue]
  | @block ss hss ih =>
    intro room text h
    obtain ⟨room, rfl⟩ := stmt_room h
    rw [stmt] at h
    obtain ⟨texts, htexts, h⟩ := bind_eq_ok.mp h
    cases h
    rw [Stmt.form, Stmt.forms_eq]
    exact form_text _ (texts_eq (fun s hs _ h ↦ ih s hs h) htexts) (by simpa using fun s hs ↦ (hss s hs).clear)
  | @branch c yes no hc hyes hno ih ih' =>
    intro room text h
    obtain ⟨room, rfl⟩ := stmt_room h
    cases no with
    | none =>
      rw [stmt] at h
      obtain ⟨condition, hcondition, h⟩ := bind_eq_ok.mp h
      obtain ⟨first, hfirst, h⟩ := bind_eq_ok.mp h
      cases h
      exact form_text [c.form, yes.form] (by simp [expr_text hc hcondition, ih hfirst])
        (by simpa using ⟨hc.clear, hyes.clear⟩)
    | some no =>
      rw [stmt] at h
      obtain ⟨condition, hcondition, h⟩ := bind_eq_ok.mp h
      obtain ⟨first, hfirst, h⟩ := bind_eq_ok.mp h
      obtain ⟨second, hsecond, h⟩ := bind_eq_ok.mp h
      cases h
      exact form_text [c.form, yes.form, no.form]
        (by simp [expr_text hc hcondition, ih hfirst, ih' no rfl hsecond])
        (by simpa using ⟨hc.clear, hyes.clear, (hno no rfl).clear⟩)
  | @loop c body hc hbody ih =>
    intro room text h
    obtain ⟨room, rfl⟩ := stmt_room h
    rw [stmt] at h
    obtain ⟨condition, hcondition, h⟩ := bind_eq_ok.mp h
    obtain ⟨round, hround, h⟩ := bind_eq_ok.mp h
    cases h
    exact form_text [c.form, body.form] (by simp [expr_text hc hcondition, ih hround])
      (by simpa using ⟨hc.clear, hbody.clear⟩)
  | function _ _ _ ih =>
    intro room text h
    obtain ⟨room, rfl⟩ := stmt_room h
    rw [stmt] at h
    obtain ⟨body, hbody, h⟩ := bind_eq_ok.mp h
    cases h
    exact function_text (texts_eq (fun s hs _ h ↦ ih s hs h) hbody)
  | @returns keyword value _ hvalue =>
    intro room text h
    obtain ⟨room, rfl⟩ := stmt_room h
    cases value with
    | none =>
      rw [stmt] at h
      cases h
      rfl
    | some e =>
      rw [stmt] at h
      obtain ⟨value, hv, h⟩ := bind_eq_ok.mp h
      cases h
      exact form_text [e.form] (by simp [expr_text (hvalue e rfl) hv])
        (by simpa using (hvalue e rfl).clear)
  | @cls name ds _ hnames hparams hbodies ih =>
    intro room text h
    obtain ⟨room, rfl⟩ := stmt_room h
    rw [stmt] at h
    obtain ⟨texts, htexts, h⟩ := bind_eq_ok.mp h
    cases h
    have hmethods : texts.map String.toList = (ds.map FunDecl.form).map Form.text := by
      refine texts_eq (fun d hd text h ↦ ?_) htexts
      obtain ⟨body, hbody, h⟩ := bind_eq_ok.mp h
      cases h
      exact function_text (texts_eq (fun s hs _ h ↦ ih d hd s hs h) hbody)
    have hclear : ∀ f ∈ ds.map FunDecl.form, f.Clear := List.forall_mem_map.mpr fun d hd ↦
      FunDecl.clear (hnames d hd) (hparams d hd) fun s hs ↦ (hbodies d hd s hs).clear
    rw [toList_form hmethods hclear]
    simp [Stmt.form, Form.text, spaced, spaced_eq, FunDecl.forms_eq]

/-- What is printed of a program that has been read is the texts of its forms, one in each line. -/
theorem program_text {ss : List Stmt} (hss : ∀ s ∈ ss, s.OfWords Token.Spelled) {room : Nat} {text : String}
    (h : program room ss = .ok text) : text.toList = (joined '\n' (ss.map Stmt.form)).tail := by
  rw [program] at h
  obtain ⟨texts, htexts, h⟩ := bind_eq_ok.mp h
  cases h
  exact toList_separated (by decide) (texts_eq (fun s hs _ h ↦ stmt_text (hss s hs) h) htexts)

end Printer

end Text

end TreeWalk
