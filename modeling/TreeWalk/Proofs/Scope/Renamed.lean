import TreeWalk.Proofs.Scope.Program
import TreeWalk.Proofs.Tree.Marked

namespace TreeWalk

namespace Resolving

variable {α β : Type} {r r' : Resolution} {room : Nat}

section Regular

theorem RunsAll.forall_mem {f : α → Resolving β} {P : β → Prop} {as : List α} {bs : List β}
    (h : RunsAll f r as bs r')
    (hP : ∀ a ∈ as, ∀ {r b r'}, Runs (f a) r b r' → P b) : ∀ b ∈ bs, P b := by
  induction h with
  | nil => simp
  | cons ha _ ih =>
    exact List.forall_mem_cons.mpr ⟨hP _ (.head _) ha, ih fun a h ↦ hP a (.tail _ h)⟩

mutual

theorem expr_regular {room : Nat} {e e' : Expr} {r r' : Resolution} (he : e.Regular)
    (hwalk : Runs (expr room e) r e' r') : e'.Regular := by
  obtain ⟨room, rfl, hform⟩ := expr_runs hwalk
  cases hform with
  | literal => exact .literal
  | group h => cases he with | group he => exact .group (expr_regular he h)
  | unary h => cases he with | unary he => exact .unary (expr_regular he h)
  | binary h h' =>
    cases he with | binary he he' => exact .binary (expr_regular he h) (expr_regular he' h')
  | logical h h' =>
    cases he with | logical he he' => exact .logical (expr_regular he h) (expr_regular he' h')
  | var => exact .var
  | assign h => cases he with | assign he => exact .assign (expr_regular he h)
  | call h h' =>
    cases he with
    | call he hes =>
      exact .call (expr_regular he h)
        ((h'.all (expr_careful room)).forall_mem fun e hmem ↦ expr_regular (hes e hmem))
  | get h => cases he with | get he => exact .get (expr_regular he h)
  | set h h' => cases he with | set he he' => exact .set (expr_regular he h') (expr_regular he' h)
  | self => cases he with | self hthis => exact .self hthis
  | ofStmt => cases he
termination_by room

theorem function_regular {room : Nat} {role : Role} {d d' : FunDecl} {r r' : Resolution}
    (hd : ∀ s ∈ d.body, s.Regular) (h : OfFunction room role r d d' r') :
    ∀ s ∈ d'.body, s.Regular := by
  cases h with
  | mk _ hb =>
    exact (hb.all (stmt_careful room)).forall_mem fun s hmem ↦ stmt_regular (hd s hmem)
termination_by room + 1

theorem stmt_regular {room : Nat} {s s' : Stmt} {r r' : Resolution} (hs : s.Regular)
    (hwalk : Runs (stmt room s) r s' r') : s'.Regular := by
  obtain ⟨room, rfl, hform⟩ := stmt_runs hwalk
  cases hform with
  | empty => exact .empty
  | expression h => cases hs with | expression he => exact .expression (expr_regular he h)
  | print h => cases hs with | print he => exact .print (expr_regular he h)
  | var => cases hs with | var hname => exact .var hname (by simp)
  | initialized _ h =>
    cases hs with
    | var hname he => exact .var hname (by simpa using expr_regular (he _ rfl) h)
  | block h =>
    cases hs with
    | block hss =>
      exact .block ((h.all (stmt_careful _)).forall_mem fun s hmem ↦ stmt_regular (hss s hmem))
  | branch h h' =>
    cases hs with
    | branch he hs hplain =>
      exact .branch (expr_regular he h) (stmt_regular hs h') ((declared?_eq h').trans hplain)
        (by simp) (by simp)
  | branches h h' h'' =>
    cases hs with
    | branch he hs hplain hs' hplain' =>
      exact .branch (expr_regular he h) (stmt_regular hs h') ((declared?_eq h').trans hplain)
        (by simpa using stmt_regular (hs' _ rfl) h'')
        (by simpa using (declared?_eq h'').trans (hplain' _ rfl))
  | loop h h' =>
    cases hs with
    | loop he hs hplain =>
      exact .loop (expr_regular he h) (stmt_regular hs h') ((declared?_eq h').trans hplain)
  | function _ _ h =>
    cases hs with | function hss => exact .function (function_regular hss (function_runs h))
  | returns => exact .returns (by simp)
  | returnsValue _ h =>
    cases hs with | returns he => exact .returns (by simpa using expr_regular (he _ rfl) h)
  | cls _ _ h =>
    cases hs with
    | cls hss =>
      exact .cls ((h.all (method_careful room)).forall_mem
        fun d hmem _ _ _ h ↦ function_regular (hss d hmem) (function_runs h))
  | ofExpr => cases hs
termination_by room

end

end Regular

section Distinct

def Has (scopes : List Scope) (name : String) : Prop :=
  ∃ scope ∈ scopes.head?, scope.contains name = true

theorem declareIn_ne_nil (name : String) {scopes : List Scope} (hne : scopes ≠ []) :
    declareIn name scopes ≠ [] := by
  obtain ⟨scope, outer, rfl⟩ := List.exists_cons_of_ne_nil hne
  simp [declareIn, markIn]

theorem has_declareIn {name k : String} {scopes : List Scope} (hne : scopes ≠ []) :
    Has (declareIn name scopes) k ↔ k = name ∨ Has scopes k := by
  obtain ⟨scope, outer, rfl⟩ := List.exists_cons_of_ne_nil hne
  have hset : Has (declareIn name (scope :: outer)) k ↔
      ((scope.set name false).set name true).contains k = true := by
    simp [Has, declareIn, markIn]
  have hscope : Has (scope :: outer) k ↔ scope.contains k = true := by simp [Has]
  rw [hset, hscope, Bindings.contains, get?_declare]
  split
  · next h => simp [h]
  · next h => simp [h, Bindings.contains]

theorem declare_fresh {name : Token} {u : Unit} (h : Runs (declare name) r u r') :
    ¬ Has r.scopes name.lexeme := by
  rintro ⟨scope, hscope, hcontains⟩
  have h := h.of_get
  dsimp only at h
  split at h
  · next hnil => rw [hnil] at hscope; cases hscope
  · next hcons =>
    rw [hcons] at hscope
    cases hscope
    rw [if_pos hcontains] at h
    obtain ⟨_, _, h, -⟩ := h.bind_inv fun _ ↦ unclean_kept.mark _ _
    exact absurd h not_runs_complain

theorem stmt_fresh {s s' : Stmt} (hwalk : Runs (stmt room s) r s' r') :
    ∀ name ∈ s'.declared?, ¬ Has r.scopes name.lexeme := by
  obtain ⟨room, rfl, hform⟩ := stmt_runs hwalk
  cases hform with
  | var hd | initialized hd =>
    rintro name ⟨⟩
    exact declare_fresh hd
  | cls hd =>
    rintro name ⟨⟩
    exact fun h ↦ declare_fresh hd h
  | function hd _ h =>
    cases function_runs h
    rintro name ⟨⟩
    exact declare_fresh hd
  | _ => simp [Stmt.declared?]

theorem stmt_has {s s' : Stmt} (hs : s.Regular) (hwalk : Runs (stmt room s) r s' r')
    (hne : r.scopes ≠ []) (k : String) :
    Has r'.scopes k ↔ (∃ name ∈ s'.declared?, name.lexeme = k) ∨ Has r.scopes k := by
  rw [stmt_scopes hs hwalk, Stmt.declaredIn, declared?_eq hwalk]
  split
  · next hnone => simp [hnone]
  · next name hsome =>
    rw [has_declareIn hne, hsome]
    simp [eq_comm]

variable {x : String} {ss ss' : List Stmt}

theorem scopes_ne_nil {s s' : Stmt} (hs : s.Regular) (hwalk : Runs (stmt room s) r s' r')
    (hne : r.scopes ≠ []) : r'.scopes ≠ [] := by
  rw [stmt_scopes hs hwalk, Stmt.declaredIn]
  split
  · exact hne
  · exact declareIn_ne_nil _ hne

/-- What the innermost scope has already is not declared there. -/
theorem RunsAll.not_declared (h : RunsAll (stmt room) r ss ss' r') (hss : ∀ s ∈ ss, s.Regular)
    (hne : r.scopes ≠ []) (hx : Has r.scopes x) :
    ∀ s ∈ ss', ∀ name ∈ s.declared?, name.lexeme ≠ x := by
  induction h with
  | nil => simp
  | @cons r r₁ r' s a ss as hs _ ih =>
    have hregular := hss s (.head _)
    refine List.forall_mem_cons.mpr ⟨fun name hname hlexeme ↦ ?_, ?_⟩
    · exact stmt_fresh hs name hname (hlexeme ▸ hx)
    · exact ih (fun s h ↦ hss s (.tail _ h)) (scopes_ne_nil hregular hs hne)
        ((stmt_has hregular hs hne x).mpr (.inr hx))

/-- In a scope that has a variable, or in which it is declared by `var`, nothing else declares it. -/
theorem RunsAll.declaresAsVar (h : RunsAll (stmt room) r ss ss' r') (hss : ∀ s ∈ ss, s.Regular)
    (hne : r.scopes ≠ []) (hx : Has r.scopes x ∨ Stmt.DeclareVar x ss') :
    ∀ s ∈ ss', s.DeclaresAsVar x := by
  induction h with
  | nil => simp
  | @cons r r₁ r' s a ss as hs hrest ih =>
    have hregular := hss s (.head _)
    have hregulars : ∀ s ∈ ss, s.Regular := fun s h ↦ hss s (.tail _ h)
    have hne₁ := scopes_ne_nil hregular hs hne
    have hhas := stmt_has hregular hs hne x
    -- If this statement declares the variable, the scope has it from here on, so that no other does.
    by_cases hdeclared : ∃ name ∈ a.declared?, name.lexeme = x
    · have hothers := hrest.not_declared hregulars hne₁ (hhas.mpr (.inl hdeclared))
      refine List.forall_mem_cons.mpr ⟨fun name hname hlexeme ↦ ?_, ?_⟩
      · rcases hx with hx | ⟨name', e, hmem, hlexeme'⟩
        · exact absurd (hlexeme ▸ hx) (stmt_fresh hs name hname)
        · rcases List.mem_cons.mp hmem with rfl | hmem
          · cases hname
            exact ⟨e, rfl⟩
          · exact absurd hlexeme' (hothers _ hmem name' rfl)
      · exact fun s hmem name hname hlexeme ↦ absurd hlexeme (hothers s hmem name hname)
    · refine List.forall_mem_cons.mpr
        ⟨fun name hname hlexeme ↦ absurd ⟨name, hname, hlexeme⟩ hdeclared, ?_⟩
      refine ih hregulars hne₁ ?_
      rcases hx with hx | ⟨name', e, hmem, hlexeme'⟩
      · exact .inl (hhas.mpr (.inr hx))
      · rcases List.mem_cons.mp hmem with rfl | hmem
        · exact absurd ⟨name', rfl, hlexeme'⟩ hdeclared
        · exact .inr ⟨name', e, hmem, hlexeme'⟩

theorem parameters_has {ts : List Token} {scopes : List Scope} (hne : scopes ≠ []) (k : String) :
    ts.foldl (fun scopes t ↦ declareIn t.lexeme scopes) scopes ≠ [] ∧
      (Has (ts.foldl (fun scopes t ↦ declareIn t.lexeme scopes) scopes) k ↔
        (∃ t ∈ ts, t.lexeme = k) ∨ Has scopes k) := by
  induction ts generalizing scopes with
  | nil => simpa using hne
  | cons t ts ih =>
    obtain ⟨hne', hhas⟩ := ih (declareIn_ne_nil t.lexeme hne)
    refine ⟨hne', ?_⟩
    rw [List.foldl_cons, hhas, has_declareIn hne, @eq_comm _ k, ← or_assoc, or_comm (b := _ = k)]
    simp

end Distinct

theorem RunsAll.stmts {ss ss' : List Stmt} (h : RunsAll (topLevel room) r ss ss' r') :
    RunsAll (stmt room) r ss ss' r' := by
  induction h with
  | nil => exact .nil
  | cons hs _ ih => exact .cons (topLevel_runs hs) ih

end Resolving

open Resolving

section Renames

variable {x y : String}

mutual

theorem Stmt.Renames.respelled (hx : x ≠ "this") :
    ∀ {a a' s : Stmt} {room : Nat} {r r' : Resolution} {marks : List Bool}, a.Renames x y a' →
      Runs (stmt room s) r a r' → s.Regular → a.Alike (Token.Known y) a →
      (∀ hops, markAt marks hops = false) → a.Respelled x y marks a'
  | _, _, _, _, _, _, _, .block hdeclare, hwalk, hs, ha, hm => by
    obtain ⟨room, rfl, hform⟩ := stmt_runs hwalk
    cases hform with
    | block h =>
      cases hs with
      | block hss =>
        cases ha with
        | block ha =>
          have hall := h.all (stmt_careful _)
          have hregular := hall.forall_mem fun s hmem ↦ stmt_regular (hss s hmem)
          have hown := hall.declaresAsVar hss (by simp) (.inr hdeclare)
          exact .block (stmts_marked hx (.own hm) ha hregular fun _ ↦ hown)
  | _, _, _, _, _, _, _, .inBlock hamong, hwalk, hs, ha, hm => by
    obtain ⟨room, rfl, hform⟩ := stmt_runs hwalk
    cases hform with
    | block h =>
      cases hs with
      | block hss =>
        cases ha with
        | block ha =>
          exact .block (hamong.respelled hx (h.all (stmt_careful _)) hss ha (markAt_cons_false hm))
  | _, _, _, _, _, _, _, .yes hyes, hwalk, hs, ha, hm => by
    obtain ⟨room, rfl, hform⟩ := stmt_runs hwalk
    cases ha with
    | branch hac hayes hano =>
      cases hform with
      | branch _ h =>
        cases hs with
        | branch _ hsyes =>
          exact .branch (hac.unmarked hm) (hyes.respelled hx h hsyes hayes hm)
      | branches _ h =>
        cases hs with
        | branch _ hsyes =>
          cases hano with
          | some hano =>
            exact .branches (hac.unmarked hm) (hyes.respelled hx h hsyes hayes hm)
              (hano.unmarked hm)
  | _, _, _, _, _, _, _, .no hno, hwalk, hs, ha, hm => by
    obtain ⟨room, rfl, hform⟩ := stmt_runs hwalk
    cases hform with
    | branches _ _ h =>
      cases hs with
      | branch _ _ _ hsno =>
        cases ha with
        | branch hac hayes hano =>
          cases hano with
          | some hano =>
            exact .branches (hac.unmarked hm) (hayes.unmarked hm)
              (hno.respelled hx h (hsno _ rfl) hano hm)
  | _, _, _, _, _, _, _, .loop hbody, hwalk, hs, ha, hm => by
    obtain ⟨room, rfl, hform⟩ := stmt_runs hwalk
    cases hform with
    | loop _ h =>
      cases hs with
      | loop _ hsbody =>
        cases ha with
        | loop hac habody =>
          exact .loop (hac.unmarked hm) (hbody.respelled hx h hsbody habody hm)
  | _, _, _, _, _, _, _, .function hd, hwalk, hs, ha, hm => by
    obtain ⟨room, rfl, hform⟩ := stmt_runs hwalk
    cases hform with
    | function _ _ h =>
      cases hs with
      | function hss =>
        cases ha with
        | function ha =>
          exact .function (ha.name.unmarked (hm _))
            (FunDecl.Renames.respelled hx hd (function_runs h) hss ha hm)
  | _, _, _, _, _, _, _, .method hd, hwalk, hs, ha, hm => by
    obtain ⟨room, rfl, hform⟩ := stmt_runs hwalk
    cases hform with
    | cls _ _ h =>
      cases hs with
      | cls hss =>
        cases ha with
        | cls hname ha =>
          obtain ⟨as₁, d₀, as₂, r₁, r₂, rfl, -, hrun, -⟩ := (h.all (method_careful _)).split
          have ha := List.forall₂_same.mp ha
          have hm' := markAt_cons_false hm
          have hsame {ds : List FunDecl} (hds : ∀ d ∈ ds, d.Alike (Token.Known y) d) :=
            functions_unmarked (x := x) hm' (List.forall₂_same.mpr hds)
          have hone := FunDecl.Renames.respelled hx hd (function_runs hrun) (hss _ (by simp))
            (ha _ (by simp)) hm'
          refine .cls (hname.unmarked (hm _)) (FunDecl.allRespelled_iff.mpr ?_)
          exact List.rel_append
            (FunDecl.allRespelled_iff.mp (hsame fun d h ↦ ha d (List.mem_append_left _ h)))
            (.cons hone (FunDecl.allRespelled_iff.mp
              (hsame fun d h ↦ ha d (List.mem_append_right _ (.tail _ h)))))

theorem Stmt.RenamesAmong.respelled (hx : x ≠ "this") :
    ∀ {as as' ss : List Stmt} {room : Nat} {r r' : Resolution} {marks : List Bool},
      Stmt.RenamesAmong x y as as' → RunsAll (stmt room) r ss as r' → (∀ s ∈ ss, s.Regular) →
      List.Forall₂ (Stmt.Alike (Token.Known y)) as as → (∀ hops, markAt marks hops = false) →
      Stmt.AllRespelled x y marks as as'
  | _, _, _, _, _, _, _, .mk h, hwalk, hss, ha, hm => by
    obtain ⟨as₁, s, as₂, r₁, r₂, rfl, -, hrun, -⟩ := hwalk.split
    have ha := List.forall₂_same.mp ha
    have hsame {ss : List Stmt} (hss : ∀ s ∈ ss, s.Alike (Token.Known y) s) :=
      stmts_unmarked (x := x) hm (List.forall₂_same.mpr hss)
    have hone := h.respelled hx hrun (hss _ (by simp)) (ha _ (by simp)) hm
    refine Stmt.allRespelled_iff.mpr (List.rel_append
      (Stmt.allRespelled_iff.mp (hsame fun s h ↦ ha s (List.mem_append_left _ h)))
      (.cons hone (Stmt.allRespelled_iff.mp
        (hsame fun s h ↦ ha s (List.mem_append_right _ (.tail _ h))))))

theorem FunDecl.Renames.respelled (hx : x ≠ "this") :
    ∀ {d d' d₀ : FunDecl} {room : Nat} {role : Role} {r r' : Resolution} {marks : List Bool},
      d.Renames x y d' → OfFunction room role r d₀ d r' → (∀ s ∈ d₀.body, s.Regular) →
      d.Alike (Token.Known y) d → (∀ hops, markAt marks hops = false) → d.Respelled x y marks d'
  | _, _, _, _, _, _, _, _, .own hdeclare, hwalk, hss, ha, hm => by
    cases hwalk with
    | mk hp hb =>
      have hall := hb.all (stmt_careful _)
      have hregular := hall.forall_mem fun s hmem ↦ stmt_regular (hss s hmem)
      have hscopes := parameters_runs hp
      obtain ⟨hne, hhas⟩ := hscopes ▸ parameters_has (List.cons_ne_nil _ _) x
      have hown := hall.declaresAsVar hss hne (hdeclare.imp_left fun h ↦ hhas.mpr (.inl h))
      have hparams := List.forall₂_map_right_iff.mpr (List.forall₂_same.mpr fun t ht ↦
        (Token.Known.of_mem ha.params t ht).marked (x := x) (Eq.refl true))
      exact .mk hparams (stmts_marked hx (.own hm) ha.body hregular fun _ ↦ hown)
  | _, _, _, _, _, _, _, _, .inBody hamong, hwalk, hss, ha, hm => by
    cases hwalk with
    | mk hp hb =>
      exact .mk (ha.params.imp fun _ _ h ↦ h.unmarked rfl)
        (hamong.respelled hx (hb.all (stmt_careful _)) hss ha.body (markAt_cons_false hm))

end

end Renames

end TreeWalk
