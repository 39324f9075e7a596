import TreeWalk.Proofs.Scope.Parts

namespace TreeWalk

def Stmt.declaredIn (s : Stmt) (scopes : List Scope) : List Scope :=
  match s.declared? with
  | none => scopes
  | some name => declareIn name.lexeme scopes

theorem markIn_tail (name : String) (defined : Bool) (scopes : List Scope) :
    (markIn name defined scopes).tail = scopes.tail := by
  cases scopes <;> rfl

theorem Stmt.declaredIn_tail (s : Stmt) (scopes : List Scope) :
    (s.declaredIn scopes).tail = scopes.tail := by
  unfold declaredIn declareIn
  split
  · rfl
  · rw [markIn_tail, markIn_tail]

theorem Stmt.declaredIn_of_none {s : Stmt} (h : s.declared? = none) (scopes : List Scope) :
    s.declaredIn scopes = scopes := by
  rw [declaredIn, h]

theorem markIn_length (name : String) (defined : Bool) (scopes : List Scope) :
    (markIn name defined scopes).length = scopes.length := by
  cases scopes <;> rfl

theorem declareIn_length (name : String) (scopes : List Scope) :
    (declareIn name scopes).length = scopes.length := by
  rw [declareIn, markIn_length, markIn_length]

theorem Stmt.declaredIn_length (s : Stmt) (scopes : List Scope) :
    (s.declaredIn scopes).length = scopes.length := by
  unfold declaredIn
  split
  · rfl
  · exact declareIn_length _ _

theorem parameters_length (ts : List Token) (scopes : List Scope) :
    (ts.foldl (fun scopes t ↦ declareIn t.lexeme scopes) scopes).length = scopes.length := by
  induction ts generalizing scopes with
  | nil => rfl
  | cons t ts ih => rw [List.foldl_cons, ih, declareIn_length]

namespace Resolving

variable {α β : Type} {r r' : Resolution}

section Lists

variable {f : α → Resolving β}

/-- Walks that go well, one after the other. -/
inductive RunsAll (f : α → Resolving β) : Resolution → List α → List β → Resolution → Prop
  | nil {r : Resolution} : RunsAll f r [] [] r
  | cons {r r₁ r' : Resolution} {a : α} {b : β} {as : List α} {bs : List β} :
      Runs (f a) r b r₁ → RunsAll f r₁ as bs r' → RunsAll f r (a :: as) (b :: bs) r'

theorem Runs.all (hf : ∀ a, Careful (f a)) :
    ∀ {as : List α} {r : Resolution} {bs : List β}, Runs (as.mapM f) r bs r' →
      RunsAll f r as bs r'
  | [], r, bs, h => by
    obtain ⟨rfl, rfl, -⟩ := runs_pure.mp h
    exact .nil
  | a :: as, r, bs, h => by
    rw [List.mapM_cons] at h
    obtain ⟨b, r₁, ha, hrest⟩ := h.bind_inv fun _ ↦ (Careful.mapM hf as).bind fun _ ↦ .pure
    obtain ⟨_, has, rfl⟩ := hrest.map_inv
    exact .cons ha (has.all hf)

theorem RunsAll.run_eq {as : List α} {bs : List β} (h : RunsAll f r as bs r') :
    (as.mapM f).run r = (bs, r') := by
  induction h with
  | nil => rfl
  | @cons r r₁ r' a b as bs ha _ ih =>
    have hrun : ((a :: as).mapM f).run r = (do
        let bs ← as.mapM f
        return ((f a).run r).1 :: bs : Resolving (List β)).run ((f a).run r).2 := by
      rw [List.mapM_cons]
      rfl
    rw [hrun, ha.1, StateT.run_bind, ih]
    rfl

theorem RunsAll.after_eq {as : List α} {bs : List β} (h : RunsAll f r as bs r') :
    after (as.mapM f) r = r' := congrArg Prod.snd h.run_eq

theorem RunsAll.clean {as : List α} {bs : List β} (h : RunsAll f r as bs r') (hr : r.Clean) :
    r'.Clean := by
  induction h with
  | nil => exact hr
  | cons ha _ ih => exact ih ha.2

theorem RunsAll.append {as as₂ : List α} {bs bs₂ : List β} {r₂ : Resolution}
    (h : RunsAll f r as bs r') (h₂ : RunsAll f r' as₂ bs₂ r₂) :
    RunsAll f r (as ++ as₂) (bs ++ bs₂) r₂ := by
  induction h with
  | nil => exact h₂
  | cons ha _ ih => exact .cons ha (ih h₂)

/-- The walk to one of the results leads through the walks to those before it. -/
theorem RunsAll.split : ∀ {bs₁ : List β} {b : β} {bs₂ : List β} {as : List α} {r : Resolution},
    RunsAll f r as (bs₁ ++ b :: bs₂) r' →
    ∃ as₁ a as₂ r₁ r₂, as = as₁ ++ a :: as₂ ∧ RunsAll f r as₁ bs₁ r₁ ∧ Runs (f a) r₁ b r₂ ∧
      RunsAll f r₂ as₂ bs₂ r'
  | [], _, _, _, _, .cons ha has => ⟨[], _, _, _, _, rfl, .nil, ha, has⟩
  | _ :: _, _, _, _, _, .cons ha has => by
    obtain ⟨as₁, a, as₂, r₁, r₂, rfl, h, hb⟩ := has.split
    exact ⟨_ :: as₁, a, as₂, r₁, r₂, rfl, .cons ha h, hb⟩

end Lists

def declaredAll (ss : List Stmt) (scopes : List Scope) : List Scope :=
  ss.foldl (fun scopes s ↦ s.declaredIn scopes) scopes

theorem declaredAll_tail (ss : List Stmt) (scopes : List Scope) :
    (declaredAll ss scopes).tail = scopes.tail := by
  induction ss generalizing scopes with
  | nil => rfl
  | cons s ss ih => exact (ih _).trans (s.declaredIn_tail scopes)

theorem RunsAll.scopes_eq {f : α → Resolving β} {as : List α} {bs : List β}
    (h : RunsAll f r as bs r')
    (has : ∀ a ∈ as, ∀ {r b r'}, Runs (f a) r b r' → r'.scopes = r.scopes) :
    r'.scopes = r.scopes := by
  induction h with
  | nil => rfl
  | cons ha _ ih => exact (ih fun a h ↦ has a (.tail _ h)).trans (has _ (.head _) ha)

theorem RunsAll.scopes_declared {room : Nat} {ss ss' : List Stmt}
    (h : RunsAll (stmt room) r ss ss' r')
    (hss : ∀ s ∈ ss, ∀ {r s' r'}, Runs (stmt room s) r s' r' →
      r'.scopes = s.declaredIn r.scopes) :
    r'.scopes = declaredAll ss r.scopes := by
  induction h with
  | nil => rfl
  | cons hs _ ih =>
    rw [ih fun s h ↦ hss s (.tail _ h), hss _ (.head _) hs]
    rfl

theorem parameters_runs {ts : List Token} {u : Unit} (h : Runs (parameters ts) r u r') :
    r'.scopes = ts.foldl (fun scopes t ↦ declareIn t.lexeme scopes) r.scopes := by
  induction ts generalizing r with
  | nil => rw [(runs_pure.mp h).2.1]; rfl
  | cons t ts ih =>
    obtain ⟨_, r₁, hd, hrest⟩ := h.bind_inv fun _ ↦
      (unclean_kept.define t).bind fun _ ↦ unclean_kept.parameters ts
    obtain ⟨_, r₂, hd', hrest⟩ := hrest.bind_inv fun _ ↦ unclean_kept.parameters ts
    rw [ih hrest, define_runs hd', declare_runs hd]
    rfl

theorem foldl_declareIn_tail (ts : List Token) (scopes : List Scope) :
    (ts.foldl (fun scopes t ↦ declareIn t.lexeme scopes) scopes).tail = scopes.tail := by
  induction ts generalizing scopes with
  | nil => rfl
  | cons t ts ih => rw [List.foldl_cons, ih, declareIn, markIn_tail, markIn_tail]

mutual

theorem expr_scopes {room : Nat} {e e' : Expr} {r r' : Resolution} (he : e.Regular)
    (hwalk : Runs (expr room e) r e' r') : r'.scopes = r.scopes := by
  obtain ⟨room, rfl, hform⟩ := expr_runs hwalk
  cases hform with
  | literal => rfl
  | group h => cases he with | group he => exact expr_scopes he h
  | unary h => cases he with | unary he => exact expr_scopes he h
  | binary h h' =>
    cases he with
    | binary he he' => exact (expr_scopes he' h').trans (expr_scopes he h)
  | logical h h' =>
    cases he with
    | logical he he' => exact (expr_scopes he' h').trans (expr_scopes he h)
  | var _ h => exact h
  | assign h h' => cases he with | assign he => exact h'.trans (expr_scopes he h)
  | call h h' =>
    cases he with
    | call he hes =>
      exact ((h'.all (expr_careful room)).scopes_eq fun e hmem ↦ expr_scopes (hes e hmem)).trans
        (expr_scopes he h)
  | get h => cases he with | get he => exact expr_scopes he h
  | set h h' =>
    cases he with
    | set he he' => exact (expr_scopes he h').trans (expr_scopes he' h)
  | self _ h => exact h
  | ofStmt => cases he
termination_by room

theorem function_scopes {room : Nat} {role : Role} {d d' : FunDecl} {r r' : Resolution}
    (hd : ∀ s ∈ d.body, s.Regular) (h : OfFunction room role r d d' r') : r'.scopes = r.scopes := by
  cases h with
  | mk hp hb hs =>
    have hbody := (hb.all (stmt_careful room)).scopes_declared fun s hmem ↦ stmt_scopes (hd s hmem)
    rw [hs, hbody, declaredAll_tail, parameters_runs hp, foldl_declareIn_tail]
    rfl
termination_by room + 1

theorem stmt_scopes {room : Nat} {s s' : Stmt} {r r' : Resolution} (hs : s.Regular)
    (hwalk : Runs (stmt room s) r s' r') : r'.scopes = s.declaredIn r.scopes := by
  obtain ⟨room, rfl, hform⟩ := stmt_runs hwalk
  cases hform with
  | empty => rfl
  | expression h => cases hs with | expression he => exact expr_scopes he h
  | print h => cases hs with | print he => exact expr_scopes he h
  | var hd hd' =>
    rw [define_runs hd', declare_runs hd]
    rfl
  | initialized hd h hd' =>
    cases hs with
    | var _ he =>
      rw [define_runs hd', Resolution.within_scopes, expr_scopes (he _ rfl) h, declare_runs hd]
      rfl
  | block h he =>
    cases hs with
    | block hss =>
      have hbody := (h.all (stmt_careful _)).scopes_declared fun s hmem ↦ stmt_scopes (hss s hmem)
      rw [he, hbody, declaredAll_tail]
      rfl
  | branch h h' =>
    cases hs with
    | branch he hs hplain =>
      rw [stmt_scopes hs h', Stmt.declaredIn_of_none hplain, expr_scopes he h]
      rfl
  | branches h h' h'' =>
    cases hs with
    | branch he hs hplain hs' hplain' =>
      rw [stmt_scopes (hs' _ rfl) h'', Stmt.declaredIn_of_none (hplain' _ rfl), stmt_scopes hs h',
        Stmt.declaredIn_of_none hplain, expr_scopes he h]
      rfl
  | loop h h' =>
    cases hs with
    | loop he hs hplain =>
      rw [stmt_scopes hs h', Stmt.declaredIn_of_none hplain, expr_scopes he h]
      rfl
  | function hd hd' h =>
    cases hs with
    | function hss =>
      rw [function_scopes hss (function_runs h), define_runs hd', declare_runs hd]
      rfl
  | returns => rfl
  | returnsValue hr h =>
    cases hs with
    | returns he =>
      rw [expr_scopes (he _ rfl) h, checkReturn_runs hr]
      rfl
  | cls hd hd' h he =>
    cases hs with
    | cls hss =>
      have hmethods := (h.all (method_careful room)).scopes_eq
        fun d hmem _ _ _ h ↦ function_scopes (hss d hmem) (function_runs h)
      rw [he, hmethods, define_runs hd', declare_runs hd]
      rfl
  | ofExpr => cases hs
termination_by room

end

theorem declared?_eq {room : Nat} {s s' : Stmt} (hwalk : Runs (stmt room s) r s' r') :
    s'.declared? = s.declared? := by
  obtain ⟨room, rfl, hform⟩ := stmt_runs hwalk
  cases hform with
  | function _ _ h =>
    cases function_runs h
    rfl
  | _ => rfl

theorem RunsAll.declaredAll_eq {room : Nat} {ss ss' : List Stmt}
    (h : RunsAll (stmt room) r ss ss' r') (scopes : List Scope) :
    declaredAll ss' scopes = declaredAll ss scopes := by
  induction h generalizing scopes with
  | nil => rfl
  | @cons r r₁ r' s s' ss ss' hs _ ih =>
    have he : s'.declaredIn scopes = s.declaredIn scopes := by
      rw [Stmt.declaredIn, Stmt.declaredIn, declared?_eq hs]
    exact (congrArg (declaredAll ss') he).trans (ih _)

end Resolving

def Settled (scopes : List Scope) : Prop :=
  ∀ scope ∈ scopes, ∀ name, scope.get? name ≠ some false

section Settled

variable {scopes : List Scope} {scope : Scope} {name k : String}

theorem get?_declare : ((scope.set name false).set name true).get? k =
    if k = name then some true else scope.get? k := by
  rw [Bindings.get?_set]
  split
  · rfl
  · next h => rw [Bindings.get?_set, if_neg h]

theorem Settled.cons (h : Settled scopes) (hs : ∀ name, scope.get? name ≠ some false) :
    Settled (scope :: scopes) := by
  intro s hmem
  rcases List.mem_cons.mp hmem with rfl | hmem
  · exact hs
  · exact h s hmem

theorem Settled.tail (h : Settled scopes) : Settled scopes.tail :=
  fun s hmem ↦ h s (List.mem_of_mem_tail hmem)

theorem Settled.head (h : Settled scopes) :
    ∀ scope ∈ scopes.head?, scope.get? name ≠ some false :=
  fun s hmem ↦ h s (List.mem_of_mem_head? hmem) name

theorem Settled.markIn_head {defined : Bool} (h : Settled scopes) (hk : k ≠ name) :
    ∀ scope ∈ (markIn name defined scopes).head?, scope.get? k ≠ some false := by
  cases scopes with
  | nil => simp [markIn]
  | cons scope outer =>
    rintro _ ⟨⟩
    rw [Bindings.get?_set, if_neg hk]
    exact h scope (.head _) k

theorem Settled.inside (h : Settled scopes) : Settled (.empty :: scopes) :=
  h.cons fun name ↦ by simp [Bindings.empty, Bindings.get?]

theorem Settled.declareIn (h : Settled scopes) (name : String) :
    Settled (declareIn name scopes) := by
  cases scopes with
  | nil => exact h
  | cons scope outer =>
    refine Settled.cons h.tail fun k ↦ ?_
    rw [get?_declare]
    split
    · simp
    · exact h scope (.head _) k

theorem Settled.declaredIn (h : Settled scopes) (s : Stmt) : Settled (s.declaredIn scopes) := by
  unfold Stmt.declaredIn
  split
  · exact h
  · exact h.declareIn _

theorem Settled.declaredAll (h : Settled scopes) (ss : List Stmt) :
    Settled (Resolving.declaredAll ss scopes) := by
  induction ss generalizing scopes with
  | nil => exact h
  | cons s ss ih => exact ih (h.declaredIn s)

theorem Settled.parameters (h : Settled scopes) (ts : List Token) :
    Settled (ts.foldl (fun scopes t ↦ TreeWalk.declareIn t.lexeme scopes) scopes) := by
  induction ts generalizing scopes with
  | nil => exact h
  | cons t ts ih => exact ih (h.declareIn t.lexeme)

end Settled

end TreeWalk
