import TreeWalk.Proofs.Tree.Respelled

namespace TreeWalk

/-- A token stays as it is, and its lexeme is not `y`. -/
structure Token.Known (y : String) (t t' : Token) : Prop where
  eq : t' = t
  ne : t.lexeme ≠ y

def Stmt.DeclaresAsVar (x : String) (s : Stmt) : Prop :=
  ∀ name ∈ s.declared?, name.lexeme = x → ∃ e, s = .var name e

variable {x y : String} {marks : List Bool} {depth : Nat}

section Unmarked

theorem markAt_cons_false (h : ∀ hops, markAt marks hops = false) (hops : Option Nat) :
    markAt (false :: marks) hops = false := by
  rcases hops with _ | _ | hops
  · rfl
  · rfl
  · exact h (some hops)

theorem Token.Known.unmarked {anew : Bool} {t t' : Token} (h : t.Known y t') (ha : anew = false) :
    t.Respelled x y anew t' := by
  rw [h.eq, ha]
  exact .same h.ne

theorem Token.Known.refl {t t' : Token} (h : t.Known y t') : t.Known y t := ⟨rfl, h.ne⟩

theorem Token.Known.of_mem {ts ts' : List Token} (h : List.Forall₂ (Token.Known y) ts ts') :
    ∀ t ∈ ts, t.Known y t := by
  induction h with
  | nil => simp
  | cons ht _ ih => simpa using ⟨ht.refl, ih⟩

mutual

theorem Expr.Alike.unmarked (hm : ∀ hops, markAt marks hops = false) :
    ∀ {e e' : Expr}, e.Alike (Token.Known y) e' → e.Respelled x y marks e'
  | .literal _, _, .literal => .literal
  | .group _, _, .group he => .group (he.unmarked hm)
  | .unary _ _, _, .unary ht he => ht.eq ▸ .unary (he.unmarked hm)
  | .binary _ _ _, _, .binary hl ht hr => ht.eq ▸ .binary (hl.unmarked hm) (hr.unmarked hm)
  | .logical _ _ _, _, .logical hl ht hr => ht.eq ▸ .logical (hl.unmarked hm) (hr.unmarked hm)
  | .var _ _, _, .var ht => .var (ht.unmarked (hm _))
  | .assign _ _ _, _, .assign ht he => .assign (ht.unmarked (hm _)) (he.unmarked hm)
  | .call _ _ _, _, .call he ht hes => ht.eq ▸ .call (he.unmarked hm) (exprs_unmarked hm hes)
  | .get _ _, _, .get he ht => ht.eq ▸ .get (he.unmarked hm)
  | .set _ _ _, _, .set he ht hi => ht.eq ▸ .set (he.unmarked hm) (hi.unmarked hm)
  | .self _ _, _, .self ht => ht.eq.symm ▸ .self (ht.refl.unmarked (hm _))

theorem exprs_unmarked (hm : ∀ hops, markAt marks hops = false) :
    ∀ {es es' : List Expr}, List.Forall₂ (Expr.Alike (Token.Known y)) es es' →
      List.Forall₂ (Expr.Respelled x y marks) es es'
  | [], _, .nil => .nil
  | _ :: _, _, .cons he hes => .cons (he.unmarked hm) (exprs_unmarked hm hes)

end

theorem Expr.option_unmarked (hm : ∀ hops, markAt marks hops = false) {i i' : Option Expr}
    (h : Option.Rel (Expr.Alike (Token.Known y)) i i') :
    Option.Rel (Expr.Respelled x y marks) i i' := by
  cases h with
  | none => exact .none
  | some he => exact .some (he.unmarked hm)

mutual

theorem Stmt.Alike.unmarked : ∀ {s s' : Stmt} {marks : List Bool},
    (∀ hops, markAt marks hops = false) → s.Alike (Token.Known y) s' → s.Respelled x y marks s'
  | .empty, _, _, _, .empty => .empty
  | .expression _, _, _, hm, .expression he => .expression (he.unmarked hm)
  | .print _, _, _, hm, .print he => .print (he.unmarked hm)
  | .var _ _, _, _, hm, .var ht hi => .var (ht.unmarked (hm _)) (Expr.option_unmarked hm hi)
  | .block _, _, _, hm, .block hss => .block (stmts_unmarked (markAt_cons_false hm) hss)
  | .branch _ _ none, _, _, hm, .branch hc hyes .none => .branch (hc.unmarked hm) (hyes.unmarked hm)
  | .branch _ _ (some _), _, _, hm, .branch hc hyes (.some hno) =>
    .branches (hc.unmarked hm) (hyes.unmarked hm) (hno.unmarked hm)
  | .loop _ _, _, _, hm, .loop hc hbody => .loop (hc.unmarked hm) (hbody.unmarked hm)
  | .function _, _, _, hm, .function hd =>
    .function (hd.name.refl.unmarked (hm _)) (FunDecl.Alike.unmarked hm hd)
  | .returns _ _, _, _, hm, .returns ht he => ht.eq ▸ .returns (Expr.option_unmarked hm he)
  | .cls _ _, _, _, hm, .cls ht hds =>
    ht.eq.symm ▸ .cls (ht.refl.unmarked (hm _))
      (functions_unmarked (markAt_cons_false hm) hds)

theorem stmts_unmarked : ∀ {ss ss' : List Stmt} {marks : List Bool},
    (∀ hops, markAt marks hops = false) → List.Forall₂ (Stmt.Alike (Token.Known y)) ss ss' →
      Stmt.AllRespelled x y marks ss ss'
  | [], _, _, _, .nil => .nil
  | _ :: _, _, _, hm, .cons hs hss => .cons (hs.unmarked hm) (stmts_unmarked hm hss)

theorem FunDecl.Alike.unmarked : ∀ {d d' : FunDecl} {marks : List Bool},
    (∀ hops, markAt marks hops = false) → d.Alike (Token.Known y) d' → d.Respelled x y marks d'
  | .mk _ _ _, _, _, hm, .mk hname hparams hbody =>
    hname.eq ▸ .mk (hparams.imp fun _ _ h ↦ h.unmarked rfl)
      (stmts_unmarked (markAt_cons_false hm) hbody)

theorem functions_unmarked : ∀ {ds ds' : List FunDecl} {marks : List Bool},
    (∀ hops, markAt marks hops = false) → List.Forall₂ (FunDecl.Alike (Token.Known y)) ds ds' →
      FunDecl.AllRespelled x y marks ds ds'
  | [], _, _, _, .nil => .nil
  | _ :: _, _, _, hm, .cons hd hds =>
    .cons (FunDecl.Alike.unmarked hm hd) (functions_unmarked hm hds)

end

end Unmarked

section Renamed

def MarkedAt (depth : Nat) (marks : List Bool) : Prop :=
  ∀ hops, markAt marks hops = (hops == some depth)

theorem MarkedAt.inside (h : MarkedAt depth marks) : MarkedAt (depth + 1) (false :: marks) := by
  intro hops
  rcases hops with _ | _ | hops
  · rfl
  · rfl
  · exact (h (some hops)).trans (by simp)

theorem MarkedAt.own (h : ∀ hops, markAt marks hops = false) : MarkedAt 0 (true :: marks) := by
  intro hops
  rcases hops with _ | _ | hops
  · rfl
  · rfl
  · exact h (some hops)

theorem Token.Known.marked {anew anew' : Bool} {t t' : Token} (h : t.Known y t') (ha : anew = anew') :
    t.Respelled x y anew (t.spelled x y anew') := ⟨h.ne, ha ▸ rfl⟩

mutual

theorem Expr.Alike.marked (hx : x ≠ "this") (hm : MarkedAt depth marks) :
    ∀ {e e' : Expr}, e.Alike (Token.Known y) e' → e.Regular →
      e.Respelled x y marks (e.renamed x y depth)
  | .literal _, _, .literal, _ => .literal
  | .group _, _, .group he, .group hr => .group (he.marked hx hm hr)
  | .unary _ _, _, .unary _ he, .unary hr => .unary (he.marked hx hm hr)
  | .binary _ _ _, _, .binary hl _ hr, .binary hl' hr' =>
    .binary (hl.marked hx hm hl') (hr.marked hx hm hr')
  | .logical _ _ _, _, .logical hl _ hr, .logical hl' hr' =>
    .logical (hl.marked hx hm hl') (hr.marked hx hm hr')
  | .var _ _, _, .var ht, _ => .var (ht.marked (hm _))
  | .assign _ _ _, _, .assign ht he, .assign hr =>
    .assign (ht.marked (hm _)) (he.marked hx hm hr)
  | .call _ _ _, _, .call he _ hes, .call hr hrs =>
    .call (he.marked hx hm hr) (exprs_marked hx hm hes hrs)
  | .get _ _, _, .get he _, .get hr => .get (he.marked hx hm hr)
  | .set _ _ _, _, .set he _ hi, .set hr hr' => .set (he.marked hx hm hr) (hi.marked hx hm hr')
  | .self _ _, _, .self ht, .self hthis => .self (.other ht.ne fun h ↦ hx (h.symm.trans hthis))

theorem exprs_marked (hx : x ≠ "this") (hm : MarkedAt depth marks) :
    ∀ {es es' : List Expr}, List.Forall₂ (Expr.Alike (Token.Known y)) es es' →
      (∀ e ∈ es, e.Regular) →
      List.Forall₂ (Expr.Respelled x y marks) es (Expr.renamedAll x y depth es)
  | [], _, .nil, _ => .nil
  | _ :: _, _, .cons he hes, hr =>
    .cons (he.marked hx hm (hr _ (.head _))) (exprs_marked hx hm hes fun e h ↦ hr e (.tail _ h))

end

theorem Token.Known.declared {t t' : Token} (hm : MarkedAt depth marks) (h : t.Known y t')
    (hx : depth = 0 → t.lexeme ≠ x) : t.Respelled x y (markAt marks (some 0)) t := by
  cases depth with
  | zero => exact .other h.ne (hx rfl)
  | succ depth => exact h.refl.unmarked (hm _)

theorem Stmt.DeclaresAsVar.of_none {s : Stmt} (h : s.declared? = none) : s.DeclaresAsVar x :=
  fun _ hname ↦ absurd (h ▸ hname) (by simp)

mutual

theorem Stmt.Alike.marked (hx : x ≠ "this") : ∀ {s s' : Stmt} {marks : List Bool} {depth : Nat},
    MarkedAt depth marks → s.Alike (Token.Known y) s' → s.Regular →
      (depth = 0 → s.DeclaresAsVar x) → s.Respelled x y marks (s.renamed x y depth)
  | .empty, _, _, _, _, .empty, _, _ => .empty
  | .expression _, _, _, _, hm, .expression he, .expression hr, _ => .expression (he.marked hx hm hr)
  | .print _, _, _, _, hm, .print he, .print hr, _ => .print (he.marked hx hm hr)
  | .var _ none, _, _, _, hm, .var ht _, _, _ => .var (ht.marked ((hm _).trans (by simp [eq_comm]))) .none
  | .var _ (some _), _, _, _, hm, .var ht (.some he), .var _ hr, _ =>
    .var (ht.marked ((hm _).trans (by simp [eq_comm]))) (.some (he.marked hx hm (hr _ rfl)))
  | .block _, _, _, _, hm, .block hss, .block hr, _ =>
    .block (stmts_marked hx hm.inside hss hr (by simp))
  | .branch _ _ none, _, _, _, hm, .branch hc hyes _, .branch hrc hryes hnone _ _, _ =>
    .branch (hc.marked hx hm hrc) (hyes.marked hx hm hryes fun _ ↦ .of_none hnone)
  | .branch _ _ (some _), _, _, _, hm, .branch hc hyes (.some hno), .branch hrc hryes hnone hrno hnone', _ =>
    .branches (hc.marked hx hm hrc) (hyes.marked hx hm hryes fun _ ↦ .of_none hnone)
      (hno.marked hx hm (hrno _ rfl) fun _ ↦ .of_none (hnone' _ rfl))
  | .loop _ _, _, _, _, hm, .loop hc hbody, .loop hrc hrbody hnone, _ =>
    .loop (hc.marked hx hm hrc) (hbody.marked hx hm hrbody fun _ ↦ .of_none hnone)
  | .function (.mk name _ _), _, _, _, hm, .function hd, .function hr, hown =>
    have hname := hd.name.declared hm fun h hx' ↦ nomatch hown h name rfl hx'
    .function hname (FunDecl.Alike.marked hx hm hd hr)
  | .returns _ none, _, _, _, _, .returns _ _, _, _ => .returns .none
  | .returns _ (some _), _, _, _, hm, .returns _ (.some he), .returns hr, _ =>
    .returns (.some (he.marked hx hm (hr _ rfl)))
  | .cls name _, _, _, _, hm, .cls ht hds, .cls hr, hown =>
    have hname := ht.declared hm fun h hx' ↦ nomatch hown h name rfl hx'
    .cls hname (functions_marked hx hm.inside hds hr)

theorem stmts_marked (hx : x ≠ "this") : ∀ {ss ss' : List Stmt} {marks : List Bool} {depth : Nat},
    MarkedAt depth marks → List.Forall₂ (Stmt.Alike (Token.Known y)) ss ss' →
      (∀ s ∈ ss, s.Regular) → (depth = 0 → ∀ s ∈ ss, s.DeclaresAsVar x) →
      Stmt.AllRespelled x y marks ss (Stmt.renamedAll x y depth ss)
  | [], _, _, _, _, .nil, _, _ => .nil
  | _ :: _, _, _, _, hm, .cons hs hss, hr, hown =>
    .cons (hs.marked hx hm (hr _ (.head _)) fun h ↦ hown h _ (.head _))
      (stmts_marked hx hm hss (fun s h ↦ hr s (.tail _ h)) fun hd s h ↦ hown hd s (.tail _ h))

theorem FunDecl.Alike.marked (hx : x ≠ "this") :
    ∀ {d d' : FunDecl} {marks : List Bool} {depth : Nat},
    MarkedAt depth marks → d.Alike (Token.Known y) d' → (∀ s ∈ d.body, s.Regular) →
      d.Respelled x y marks (d.renamed x y depth)
  | .mk _ params _, _, _, _, hm, .mk _ hparams hbody, hr =>
    have hsame : List.Forall₂ (Token.Respelled x y false) params params :=
      List.forall₂_same.mpr fun _ ht ↦ .same (Token.Known.of_mem hparams _ ht).ne
    .mk hsame (stmts_marked hx hm.inside hbody hr (by simp))

theorem functions_marked (hx : x ≠ "this") :
    ∀ {ds ds' : List FunDecl} {marks : List Bool} {depth : Nat},
    MarkedAt depth marks → List.Forall₂ (FunDecl.Alike (Token.Known y)) ds ds' →
      (∀ d ∈ ds, ∀ s ∈ d.body, s.Regular) →
      FunDecl.AllRespelled x y marks ds (FunDecl.renamedAll x y depth ds)
  | [], _, _, _, _, .nil, _ => .nil
  | _ :: _, _, _, _, hm, .cons hd hds, hr =>
    .cons (FunDecl.Alike.marked hx hm hd (hr _ (.head _)))
      (functions_marked hx hm hds fun d h ↦ hr d (.tail _ h))

end

end Renamed

end TreeWalk
