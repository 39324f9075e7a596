import TreeWalk.Proofs.Scope.Renamed
import TreeWalk.Proofs.Tree.Named

namespace TreeWalk

namespace Resolving

theorem function_named {room : Nat} {role : Role} {d d' : FunDecl} {r r' : Resolution}
    (hstmt : ∀ {s s' : Stmt} {r r' : Resolution}, s.Named → Runs (stmt room s) r s' r' → s'.Named)
    (hd : d.Named) (h : OfFunction room role r d d' r') : d'.Named := by
  cases h with
  | mk _ hb =>
    exact ⟨hd.params, (hb.all (stmt_careful room)).forall_mem fun s hmem ↦ hstmt (hd.body s hmem)⟩

theorem stmt_named {room : Nat} {s s' : Stmt} {r r' : Resolution} (hs : s.Named)
    (hwalk : Runs (stmt room s) r s' r') : s'.Named := by
  obtain ⟨room, rfl, hform⟩ := stmt_runs hwalk
  cases hform with
  | empty => exact .empty
  | expression => exact .expression
  | print => exact .print
  | var | initialized => cases hs with | var hname => exact .var hname
  | block h =>
    cases hs with
    | block hss =>
      exact .block ((h.all (stmt_careful _)).forall_mem fun s hmem ↦ stmt_named (hss s hmem))
  | branch _ h => cases hs with | branch hyes => exact .branch (stmt_named hyes h) (by simp)
  | branches _ h h' =>
    cases hs with
    | branch hyes hno =>
      exact .branch (stmt_named hyes h) (by simpa using stmt_named (hno _ rfl) h')
  | loop _ h => cases hs with | loop hbody => exact .loop (stmt_named hbody h)
  | function _ _ h =>
    cases hs with
    | function hparams hbody =>
      have hd := function_named stmt_named ⟨hparams, hbody⟩ (function_runs h)
      exact .function hd.params hd.body
  | returns | returnsValue => exact .returns
  | cls _ _ h =>
    cases hs with
    | cls hparams hbody =>
      have hds := (h.all (method_careful room)).forall_mem (P := FunDecl.Named)
        fun d hmem _ _ _ h ↦
          function_named stmt_named ⟨hparams d hmem, hbody d hmem⟩ (function_runs h)
      exact .cls (fun d hd ↦ (hds d hd).params) fun d hd ↦ (hds d hd).body
  | ofExpr => cases hs
termination_by room

end Resolving

section Renames

variable {x y : String} {R : Token → Token → Prop}

/-- A token that is an identifier, and a name of the tree in which related tokens are the same. -/
def Token.Names (R : Token → Token → Prop) (x : String) (t : Token) : Prop :=
  t.kind = .identifier ∧ t.lexeme = x ∧ R t t

theorem Stmt.DeclareVar.names {ss : List Stmt} (h : Stmt.DeclareVar x ss)
    (hss : ∀ s ∈ ss, s.Named) (ha : List.Forall₂ (Stmt.Alike R) ss ss) : ∃ t, Token.Names R x t := by
  obtain ⟨name, e, hmem, hlexeme⟩ := h
  cases hss _ hmem with
  | var hkind =>
    cases List.forall₂_same.mp ha _ hmem with
    | var ht => exact ⟨name, hkind, hlexeme, ht⟩

mutual

theorem Stmt.Renames.names : ∀ {a a' : Stmt}, a.Renames x y a' → a.Named → a.Alike R a →
    ∃ t, Token.Names R x t
  | _, _, .block h, .block hss, .block ha => h.names hss ha
  | _, _, .inBlock h, .block hss, .block ha => Stmt.RenamesAmong.names h hss ha
  | _, _, .yes h, .branch hyes _, .branch _ ha _ => h.names hyes ha
  | _, _, .no h, .branch _ hno, .branch _ _ (.some ha) => h.names (hno _ rfl) ha
  | _, _, .loop h, .loop hbody, .loop _ ha => h.names hbody ha
  | _, _, .function h, .function hparams hbody, .function ha =>
    FunDecl.Renames.names h ⟨hparams, hbody⟩ ha
  | _, _, .method h, .cls hparams hbody, .cls _ ha =>
    FunDecl.Renames.names h ⟨hparams _ (by simp), hbody _ (by simp)⟩
      (List.forall₂_same.mp ha _ (by simp))

theorem Stmt.RenamesAmong.names : ∀ {as as' : List Stmt}, Stmt.RenamesAmong x y as as' →
    (∀ s ∈ as, s.Named) → List.Forall₂ (Stmt.Alike R) as as → ∃ t, Token.Names R x t
  | _, _, .mk h, hss, ha => h.names (hss _ (by simp)) (List.forall₂_same.mp ha _ (by simp))

theorem FunDecl.Renames.names : ∀ {d d' : FunDecl}, d.Renames x y d' → d.Named → d.Alike R d →
    ∃ t, Token.Names R x t
  | _, _, .own (.inl ⟨t, ht, hlexeme⟩), hd, ha =>
    ⟨t, hd.params t ht, hlexeme, List.forall₂_same.mp ha.params t ht⟩
  | _, _, .own (.inr h), hd, ha => h.names hd.body ha.body
  | _, _, .inBody h, hd, ha => Stmt.RenamesAmong.names h hd.body ha.body

end

end Renames

end TreeWalk
