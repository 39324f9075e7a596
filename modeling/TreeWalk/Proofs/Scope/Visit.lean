import TreeWalk.Proofs.Scope.Effect
import Mathlib.Logic.Relation

namespace TreeWalk

open Resolving

/-- A part of a program, in the room that a walk has for it. -/
inductive Part where
  | expr (room : Nat) (e : Expr)
  | stmt (room : Nat) (s : Stmt)
  | function (room : Nat) (role : Role) (d : FunDecl)
  | methods (room : Nat) (ds : List FunDecl)

structure Visit where
  part : Part
  state : Resolution

namespace Visit

inductive Leads : Visit → Visit → Prop
  | group {room : Nat} {e : Expr} {r : Resolution} :
      Leads ⟨.expr (room + 2) (.group e), r⟩ ⟨.expr room e, r⟩
  | unary {room : Nat} {operator : Token} {e : Expr} {r : Resolution} :
      Leads ⟨.expr (room + 2) (.unary operator e), r⟩ ⟨.expr room e, r⟩
  | binaryLeft {room : Nat} {operator : Token} {e i : Expr} {r : Resolution} :
      Leads ⟨.expr (room + 2) (.binary e operator i), r⟩ ⟨.expr room e, r⟩
  | binaryRight {room : Nat} {operator : Token} {e i : Expr} {r : Resolution} :
      Leads ⟨.expr (room + 2) (.binary e operator i), r⟩ ⟨.expr room i, after (expr room e) r⟩
  | logicalLeft {room : Nat} {operator : Token} {e i : Expr} {r : Resolution} :
      Leads ⟨.expr (room + 2) (.logical e operator i), r⟩ ⟨.expr room e, r⟩
  | logicalRight {room : Nat} {operator : Token} {e i : Expr} {r : Resolution} :
      Leads ⟨.expr (room + 2) (.logical e operator i), r⟩ ⟨.expr room i, after (expr room e) r⟩
  | assigned {room : Nat} {name : Token} {ref : Ref} {e : Expr} {r : Resolution} :
      Leads ⟨.expr (room + 2) (.assign name e ref), r⟩ ⟨.expr room e, r⟩
  | callee {room : Nat} {paren : Token} {e : Expr} {es : List Expr} {r : Resolution} :
      Leads ⟨.expr (room + 2) (.call e paren es), r⟩ ⟨.expr room e, r⟩
  | argument {room : Nat} {paren : Token} {e i : Expr} {es is : List Expr} {r : Resolution} :
      Leads ⟨.expr (room + 2) (.call e paren (es ++ i :: is)), r⟩
        ⟨.expr room i, after (es.mapM (expr room)) (after (expr room e) r)⟩
  | object {room : Nat} {name : Token} {e : Expr} {r : Resolution} :
      Leads ⟨.expr (room + 2) (.get e name), r⟩ ⟨.expr room e, r⟩
  | field {room : Nat} {name : Token} {e i : Expr} {r : Resolution} :
      Leads ⟨.expr (room + 2) (.set e name i), r⟩ ⟨.expr room i, r⟩
  | owner {room : Nat} {name : Token} {e i : Expr} {r : Resolution} :
      Leads ⟨.expr (room + 2) (.set e name i), r⟩ ⟨.expr room e, after (expr room i) r⟩
  | expression {room : Nat} {e : Expr} {r : Resolution} :
      Leads ⟨.stmt (room + 4) (.expression e), r⟩ ⟨.expr (room + 2) e, r⟩
  | printed {room : Nat} {e : Expr} {r : Resolution} :
      Leads ⟨.stmt (room + 4) (.print e), r⟩ ⟨.expr (room + 2) e, r⟩
  | initializer {room : Nat} {name : Token} {e : Expr} {r : Resolution} :
      Leads ⟨.stmt (room + 4) (.var name (some e)), r⟩
        ⟨.expr (room + 2) e, after (declare name) r⟩
  | item {room : Nat} {s : Stmt} {ss rest : List Stmt} {r : Resolution} :
      Leads ⟨.stmt (room + 4) (.block (ss ++ s :: rest)), r⟩
        ⟨.stmt (room + 1) s, after (ss.mapM (stmt (room + 1))) (r.within (.empty :: r.scopes))⟩
  | condition {room : Nat} {e : Expr} {yes : Stmt} {no : Option Stmt} {r : Resolution} :
      Leads ⟨.stmt (room + 4) (.branch e yes no), r⟩ ⟨.expr (room + 2) e, r⟩
  | yes {room : Nat} {e : Expr} {yes : Stmt} {no : Option Stmt} {r : Resolution} :
      Leads ⟨.stmt (room + 4) (.branch e yes no), r⟩
        ⟨.stmt (room + 2) yes, after (expr (room + 2) e) r⟩
  | no {room : Nat} {e : Expr} {yes no : Stmt} {r : Resolution} :
      Leads ⟨.stmt (room + 4) (.branch e yes (some no)), r⟩
        ⟨.stmt (room + 2) no, after (stmt (room + 2) yes) (after (expr (room + 2) e) r)⟩
  | test {room : Nat} {e : Expr} {body : Stmt} {r : Resolution} :
      Leads ⟨.stmt (room + 4) (.loop e body), r⟩ ⟨.expr (room + 2) e, r⟩
  | round {room : Nat} {e : Expr} {body : Stmt} {r : Resolution} :
      Leads ⟨.stmt (room + 4) (.loop e body), r⟩
        ⟨.stmt (room + 2) body, after (expr (room + 2) e) r⟩
  | returned {room : Nat} {keyword : Token} {e : Expr} {r : Resolution} :
      Leads ⟨.stmt (room + 4) (.returns keyword (some e)), r⟩
        ⟨.expr (room + 2) e, after (checkReturn keyword true) r⟩
  | function {room : Nat} {d : FunDecl} {r : Resolution} :
      Leads ⟨.stmt (room + 4) (.function d), r⟩
        ⟨.function room .function d, after (define d.name) (after (declare d.name) r)⟩
  | methods {room : Nat} {name : Token} {ds : List FunDecl} {r : Resolution} :
      Leads ⟨.stmt (room + 4) (.cls name ds), r⟩
        ⟨.methods room ds, after (define name) (after (declare name) { r with inClass := true })⟩
  | method {room : Nat} {d : FunDecl} {ds rest : List FunDecl} {r : Resolution} :
      Leads ⟨.methods room (ds ++ d :: rest), r⟩
        ⟨.function room (methodRole d) d,
          after (ds.mapM (method room)) (r.within (thisScope :: r.scopes))⟩
  | statement {room : Nat} {role : Role} {name : Token} {params : List Token} {s : Stmt}
      {ss rest : List Stmt} {r : Resolution} :
      Leads ⟨.function room role (.mk name params (ss ++ s :: rest)), r⟩
        ⟨.stmt room s, after (ss.mapM (stmt room))
          (after (parameters params) { r with role, scopes := .empty :: r.scopes })⟩

def Encloses : Visit → Visit → Prop := Relation.ReflTransGen Leads

end Visit

/-- The visits of a walk over the statements of a program. -/
def Visits (room : Nat) (program : List Stmt) (v : Visit) : Prop :=
  ∃ ss s rest, program = ss ++ s :: rest ∧
    Visit.Encloses ⟨.stmt room s, after (ss.mapM (topLevel room)) {}⟩ v

theorem Visits.tail {room : Nat} {program : List Stmt} {v v' : Visit} (h : Visits room program v)
    (hv : v.Leads v') : Visits room program v' := by
  obtain ⟨ss, s, rest, hp, h⟩ := h
  exact ⟨ss, s, rest, hp, .tail h hv⟩

end TreeWalk
