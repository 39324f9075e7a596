import Mathlib.Data.List.Forall2
import TreeWalk.Tree.Anchor

namespace TreeWalk

/-- Two tokens that differ in their lines only. -/
structure Token.Like (t t' : Token) : Prop where
  kind_eq : t'.kind = t.kind
  lexeme_eq : t'.lexeme = t.lexeme
  literal_eq : t'.literal = t.literal

theorem Token.Like.refl (t : Token) : t.Like t := ⟨rfl, rfl, rfl⟩

section Alike

variable (R : Token → Token → Prop)

inductive Expr.Alike : Expr → Expr → Prop
  | literal {value : Scalar} : Alike (.literal value) (.literal value)
  | group {e e' : Expr} : Alike e e' → Alike (.group e) (.group e')
  | unary {operator operator' : Token} {e e' : Expr} :
      R operator operator' → Alike e e' → Alike (.unary operator e) (.unary operator' e')
  | binary {operator operator' : Token} {l l' r r' : Expr} :
      Alike l l' → R operator operator' → Alike r r' →
      Alike (.binary l operator r) (.binary l' operator' r')
  | logical {operator operator' : Token} {l l' r r' : Expr} :
      Alike l l' → R operator operator' → Alike r r' →
      Alike (.logical l operator r) (.logical l' operator' r')
  | var {name name' : Token} {ref : Ref} :
      R name name' → Alike (.var name ref) (.var name' ref)
  | assign {name name' : Token} {ref : Ref} {e e' : Expr} :
      R name name' → Alike e e' → Alike (.assign name e ref) (.assign name' e' ref)
  | call {paren paren' : Token} {e e' : Expr} {es es' : List Expr} :
      Alike e e' → R paren paren' → List.Forall₂ Alike es es' →
      Alike (.call e paren es) (.call e' paren' es')
  | get {name name' : Token} {e e' : Expr} :
      Alike e e' → R name name' → Alike (.get e name) (.get e' name')
  | set {name name' : Token} {e e' i i' : Expr} :
      Alike e e' → R name name' → Alike i i' → Alike (.set e name i) (.set e' name' i')
  | self {keyword keyword' : Token} {ref : Ref} :
      R keyword keyword' → Alike (.self keyword ref) (.self keyword' ref)

mutual

inductive Stmt.Alike : Stmt → Stmt → Prop
  | empty : Stmt.Alike .empty .empty
  | expression {e e' : Expr} : e.Alike R e' → Stmt.Alike (.expression e) (.expression e')
  | print {e e' : Expr} : e.Alike R e' → Stmt.Alike (.print e) (.print e')
  | var {name name' : Token} {i i' : Option Expr} :
      R name name' → Option.Rel (Expr.Alike R) i i' → Stmt.Alike (.var name i) (.var name' i')
  | block {ss ss' : List Stmt} :
      List.Forall₂ Stmt.Alike ss ss' → Stmt.Alike (.block ss) (.block ss')
  | branch {c c' : Expr} {yes yes' : Stmt} {no no' : Option Stmt} :
      c.Alike R c' → Stmt.Alike yes yes' → Option.Rel Stmt.Alike no no' →
      Stmt.Alike (.branch c yes no) (.branch c' yes' no')
  | loop {c c' : Expr} {body body' : Stmt} :
      c.Alike R c' → Stmt.Alike body body' → Stmt.Alike (.loop c body) (.loop c' body')
  | function {d d' : FunDecl} : FunDecl.Alike d d' → Stmt.Alike (.function d) (.function d')
  | returns {keyword keyword' : Token} {e e' : Option Expr} :
      R keyword keyword' → Option.Rel (Expr.Alike R) e e' →
      Stmt.Alike (.returns keyword e) (.returns keyword' e')
  | cls {name name' : Token} {ds ds' : List FunDecl} :
      R name name' → List.Forall₂ FunDecl.Alike ds ds' →
      Stmt.Alike (.cls name ds) (.cls name' ds')

inductive FunDecl.Alike : FunDecl → FunDecl → Prop
  | mk {name name' : Token} {params params' : List Token} {body body' : List Stmt} :
      R name name' → List.Forall₂ R params params' → List.Forall₂ Stmt.Alike body body' →
      FunDecl.Alike (.mk name params body) (.mk name' params' body')

end

inductive Node.Alike : Node → Node → Prop
  | expr {e e' : Expr} : e.Alike R e' → Alike (.expr e) (.expr e')
  | stmt {s s' : Stmt} : s.Alike R s' → Alike (.stmt s) (.stmt s')
  | function {d d' : FunDecl} : d.Alike R d' → Alike (.function d) (.function d')

end Alike

section FunDecl

variable {R : Token → Token → Prop} {d d' : FunDecl}

theorem FunDecl.Alike.name (h : d.Alike R d') : R d.name d'.name := by
  cases h with
  | mk hname => exact hname

theorem FunDecl.Alike.params (h : d.Alike R d') : List.Forall₂ R d.params d'.params := by
  cases h with
  | mk _ hparams => exact hparams

theorem FunDecl.Alike.body (h : d.Alike R d') : List.Forall₂ (Stmt.Alike R) d.body d'.body := by
  cases h with
  | mk _ _ hbody => exact hbody

end FunDecl

namespace Node

variable {R : Token → Token → Prop} {n n' : Node}

theorem Alike.token? (h : n.Alike R n') : Option.Rel R n.token? n'.token? := by
  cases h with
  | expr h =>
    cases h with
    | literal | group => exact .none
    | unary ht | binary _ ht | logical _ ht | var ht | assign ht | call _ ht | get _ ht
    | set _ ht | self ht => exact .some ht
  | stmt h =>
    cases h with
    | function h => cases h with | mk hname => exact .some hname
    | var hname | returns hname | cls hname => exact .some hname
    | _ => exact .none
  | function h => exact .some h.name

theorem toList_map_alike {α : Type} {S : α → α → Prop} {f : α → Node}
    {o o' : Option α} (h : Option.Rel S o o') (hf : ∀ a a', S a a' → (f a).Alike R (f a')) :
    List.Forall₂ (Node.Alike R) (o.toList.map f) (o'.toList.map f) := by
  cases h with
  | none => exact .nil
  | some ha => exact .cons (hf _ _ ha) .nil

theorem exprChildren_alike {e e' : Expr} (h : e.Alike R e') :
    List.Forall₂ (Node.Alike R) (exprChildren e) (exprChildren e') := by
  cases h with
  | literal | var | self => exact .nil
  | group he | unary _ he | assign _ he | get he => exact .cons (.expr he) .nil
  | binary hl _ hr | logical hl _ hr | set hl _ hr => exact .cons (.expr hl) (.cons (.expr hr) .nil)
  | call he _ hes => exact .cons (.expr he) (List.rel_map (fun _ _ ↦ .expr) hes)

theorem stmtChildren_alike {s s' : Stmt} (h : s.Alike R s') :
    List.Forall₂ (Node.Alike R) (stmtChildren s) (stmtChildren s') := by
  cases h with
  | empty => exact .nil
  | expression he | print he => exact .cons (.expr he) .nil
  | var _ he | returns _ he => exact toList_map_alike he fun _ _ ↦ .expr
  | block hss => exact List.rel_map (fun _ _ ↦ .stmt) hss
  | branch hc hyes hno =>
    exact .cons (.expr hc) (.cons (.stmt hyes) (toList_map_alike hno fun _ _ ↦ .stmt))
  | loop hc hbody => exact .cons (.expr hc) (.cons (.stmt hbody) .nil)
  | function hd => cases hd with | mk _ _ hss => exact List.rel_map (fun _ _ ↦ .stmt) hss
  | cls _ hds => exact List.rel_map (fun _ _ ↦ .function) hds

theorem Alike.children (h : n.Alike R n') :
    List.Forall₂ (Node.Alike R) n.children n'.children := by
  cases h with
  | expr he => exact exprChildren_alike he
  | stmt hs => exact stmtChildren_alike hs
  | function hd => exact List.rel_map (fun _ _ ↦ .stmt) hd.body

theorem anchorAmong_alike (ns ns' : List Node) (h : List.Forall₂ (Node.Alike R) ns ns') :
    Option.Rel R (anchorAmong ns) (anchorAmong ns') := by
  induction ns using anchorAmong.induct generalizing ns' with
  | case1 =>
    cases h
    rw [anchorAmong]
    exact .none
  | case2 n waiting t ht =>
    cases h with
    | @cons _ n' _ _ hn _ =>
      have htoken := hn.token?
      rw [ht] at htoken
      rw [anchorAmong, anchorAmong, ht]
      generalize n'.token? = token at htoken ⊢
      cases htoken with
      | some ht => exact .some ht
  | case3 n waiting hnone ih =>
    cases h with
    | @cons _ n' _ _ hn hwaiting =>
      have htoken := hn.token?
      rw [hnone] at htoken
      rw [anchorAmong, anchorAmong, hnone]
      generalize n'.token? = token at htoken ⊢
      cases htoken with
      | none => exact ih _ (List.rel_append hwaiting hn.children)

end Node

theorem Stmt.Alike.anchor {R : Token → Token → Prop} {s s' : Stmt} (h : s.Alike R s') :
    Option.Rel R s.anchor s'.anchor :=
  Node.anchorAmong_alike _ _ (.cons (.stmt h) .nil)

end TreeWalk
