import TreeWalk.Proofs.Machine.Lockstep

namespace TreeWalk

inductive Flow.Alike (R : Token → Token → Prop) : Flow → Flow → Prop
  | next : Alike R .next .next
  | returned {v v' : Value} : v.Alike R v' → Alike R (.returned v) (.returned v')

namespace Exec

inductive Callee.Alike (R : Token → Token → Prop) : Callee → Callee → Prop
  | native {n : Native} : n.Blind → Alike R (.native n) (.native n)
  | function {c c' : Closure} : c.Alike R c' → Alike R (.function c) (.function c')
  | cls {info info' : ClassInfo} : info.Alike R info' → Alike R (.cls info) (.cls info')

theorem Callee.Alike.arity_eq {R : Token → Token → Prop} {c c' : Callee} (h : c.Alike R c') :
    c'.arity = c.arity := by
  cases h with
  | native => rfl
  | function hc => exact congrArg Int.ofNat hc.arity_eq
  | cls hc => exact congrArg Int.ofNat hc.arity_eq

variable (R : Token → Token → Prop) (before : List String)

def StmtsLockstep (run : Stmt → Exec Flow) : Prop :=
  ∀ s s', s.Alike R s' → Lockstep R before (Flow.Alike R) (run s) (run s')

variable {R before}

section Parts

theorem repeatWhile_lockstep (hR : ∀ t t', R t t' → t.Like t') {test test' : Exec Value}
    {body body' : Exec Flow}
    (htest : Lockstep R before (Value.Alike R) test test')
    (hbody : Lockstep R before (Flow.Alike R) body body') (rounds : Nat) :
    Lockstep R before (Flow.Alike R) (repeatWhile test body rounds)
      (repeatWhile test' body' rounds) := by
  induction rounds with
  | zero => exact .throw .endless
  | succ rounds ih =>
    refine htest.bind fun v v' hv ↦ ?_
    rw [(hv.like hR).isTruthy_eq]
    split
    · refine hbody.bind fun flow flow' hflow ↦ ?_
      cases hflow with
      | next => exact ih
      | returned hv => exact .pure (.returned hv)
    · exact .pure .next

theorem bind_lockstep {c c' : Closure} {this this' : Value} (hc : c.Alike R c')
    (hthis : this.Alike R this') :
    Lockstep R before (Closure.Alike R) (bind c this) (bind c' this') := by
  refine (newFrame_lockstep (Bindings.Rel.empty.set "this" hthis)).bind fun f f' hf ↦ .pure ?_
  exact ⟨hc.decl, by rw [hc.env_eq, hf], hc.isInitializer_eq⟩

theorem parameters_rel {ts ts' : List Token} {vs vs' : List Value}
    (hR : ∀ t t', R t t' → t.Like t') (hts : List.Forall₂ R ts ts')
    (hvs : List.Forall₂ (Value.Alike R) vs vs') :
    Bindings.Rel (Value.Alike R) (.ofList ((ts.map (·.lexeme)).zip vs))
      (.ofList ((ts'.map (·.lexeme)).zip vs')) := by
  refine .ofList ?_
  induction hts generalizing vs vs' with
  | nil => exact .nil
  | cons ht _ ih =>
    cases hvs with
    | nil => exact .nil
    | cons hv hvs => exact .cons ⟨(hR _ _ ht).lexeme_eq, hv⟩ (ih hvs)

theorem writable_lockstep {o o' : Value} {t t' : Token} (ho : o.Alike R o') (ht : R t t') :
    Lockstep R before Eq (writable o t) (writable o' t') := by
  cases ho with
  | object => exact .pure rfl
  | scalar | native | function | cls | completion => exact fail_lockstep _ ht

theorem getProperty_lockstep {o o' : Value} {t t' : Token} (hR : ∀ t t', R t t' → t.Like t')
    (ho : o.Alike R o') (ht : R t t') :
    Lockstep R before (Value.Alike R) (getProperty o t) (getProperty o' t') := by
  cases ho with
  | @object id info info' hinfo =>
    unfold getProperty
    dsimp only
    rw [(hR t t' ht).lexeme_eq]
    refine (field?_lockstep id t.lexeme).bind fun v v' hv ↦ ?_
    cases hv with
    | some hv => exact .pure hv
    | none =>
      have hmethod := hinfo.methods.get? t.lexeme
      dsimp only
      generalize info.methods.get? t.lexeme = c at hmethod ⊢
      generalize info'.methods.get? t.lexeme = c' at hmethod ⊢
      cases hmethod with
      | none => exact fail_lockstep _ ht
      | some hc =>
        refine (bind_lockstep hc (.object hinfo)).bind fun c c' hc ↦ ?_
        exact identity_lockstep.bind fun _ _ hid ↦ .pure (hid ▸ .function hc)
  | scalar | native | function | cls | completion => exact fail_lockstep _ ht

theorem classOf_alike (env : Env) {name name' : Token} {ds ds' : List FunDecl}
    (hR : ∀ t t', R t t' → t.Like t') (hname : R name name')
    (hds : List.Forall₂ (FunDecl.Alike R) ds ds') :
    (classOf env name ds).Alike R (classOf env name' ds') := by
  refine ⟨(hR _ _ hname).lexeme_eq, .ofList (List.rel_map (fun d d' hd ↦ ?_) hds)⟩
  have hlexeme := (hR _ _ hd.name).lexeme_eq
  exact ⟨hlexeme, hd, rfl, by rw [hlexeme]⟩

end Parts

section Calls

variable {run : Stmt → Exec Flow} (hrun : StmtsLockstep R before run)
include hrun

theorem sequence_lockstep {ss ss' : List Stmt} (hss : List.Forall₂ (Stmt.Alike R) ss ss') :
    Lockstep R before (Flow.Alike R) (sequence run ss) (sequence run ss') := by
  induction hss with
  | nil => exact .pure .next
  | cons hs _ ih =>
    refine (hrun _ _ hs).bind fun flow flow' hflow ↦ ?_
    cases hflow with
    | next => exact ih
    | returned hv => exact .pure (.returned hv)

theorem block_lockstep {ss ss' : List Stmt} (hss : List.Forall₂ (Stmt.Alike R) ss ss') :
    Lockstep R before (Flow.Alike R) (block run ss) (block run ss') := by
  refine (newFrame_lockstep .empty).bind fun f f' hf ↦ Lockstep.get.bind fun m m' hm ↦ ?_
  rw [hm.env_eq, hf]
  exact .within _ (sequence_lockstep hrun hss)

variable (hR : ∀ t t', R t t' → t.Like t') {vs vs' : List Value}
  (hvs : List.Forall₂ (Value.Alike R) vs vs')
include hR hvs

theorem enter_lockstep {c c' : Closure} (hc : c.Alike R c') :
    Lockstep R before (Value.Alike R) (enter run c vs) (enter run c' vs') := by
  refine (newFrame_lockstep (parameters_rel hR hc.decl.params hvs)).bind fun f f' hf ↦ ?_
  rw [hc.env_eq, ← hf]
  refine (Lockstep.within _ (sequence_lockstep hrun hc.decl.body)).bind fun flow flow' hflow ↦ ?_
  rw [hc.isInitializer_eq]
  split
  · exact Lockstep.get.bind fun m m' hm ↦ getAt_lockstep hm.frames _ _ _
  · cases hflow with
    | next => exact .pure .scalar
    | returned hv => exact .pure hv

theorem instantiate_lockstep {info info' : ClassInfo} (hinfo : info.Alike R info') :
    Lockstep R before (Value.Alike R) (instantiate run info vs) (instantiate run info' vs') := by
  refine newObject_lockstep.bind fun o o' ho ↦ ?_
  subst ho
  have hobject : Value.Alike R (.object o info) (.object o info') := .object hinfo
  have hinit := hinfo.initializer?
  generalize info.initializer? = c at hinit ⊢
  generalize info'.initializer? = c' at hinit ⊢
  cases hinit with
  | none => exact .pure hobject
  | some hc =>
    refine (bind_lockstep hc hobject).bind fun c c' hc ↦ ?_
    exact (enter_lockstep hrun hR hvs hc).discard.bind fun _ _ _ ↦ .pure hobject

theorem apply_lockstep {c c' : Callee} (hc : c.Alike R c') :
    Lockstep R before (Value.Alike R) (c.apply run vs) (c'.apply run vs') := by
  cases hc with
  | native hn => exact .pure (hn R hR _ _ hvs)
  | function hc => exact enter_lockstep hrun hR hvs hc
  | cls hinfo => exact instantiate_lockstep hrun hR hvs hinfo

end Calls

section Trees

variable {setup : Setup}

theorem callee?_alike {v v' : Value} (hblind : setup.Blind) (hv : v.Alike R v') :
    Option.Rel (Callee.Alike R) (callee? setup v) (callee? setup v') := by
  cases hv with
  | @native i =>
    have hblind (n : Native) (hn : setup.natives[i]? = some n) : n.Blind := by
      rcases List.mem_cons.mp (List.mem_of_getElem? hn) with rfl | hn
      · exact fun _ _ _ _ _ ↦ .scalar
      · exact hblind n hn
    unfold callee?
    dsimp only
    cases h : setup.natives[i]? with
    | none => exact .none
    | some n => exact .some (.native (hblind n h))
  | function hc => exact .some (.function hc)
  | cls hinfo => exact .some (.cls hinfo)
  | scalar | object | completion => exact .none

theorem call_lockstep (hblind : setup.Blind) (hR : ∀ t t', R t t' → t.Like t')
    {run : Callee → Stmt → Exec Flow} {paren paren' : Token} {v v' : Value}
    {vs vs' : List Value} (hrun : ∀ c c', c.Alike R c' → run c' = run c)
    (hstmts : ∀ c, StmtsLockstep R before (run c)) (hparen : R paren paren')
    (hv : v.Alike R v') (hvs : List.Forall₂ (Value.Alike R) vs vs') :
    Lockstep R before (Value.Alike R) (call setup run paren v vs)
      (call setup run paren' v' vs') := by
  have hcallee := callee?_alike hblind hv
  unfold call
  generalize callee? setup v = c at hcallee ⊢
  generalize callee? setup v' = c' at hcallee ⊢
  cases hcallee with
  | none => exact fail_lockstep _ hparen
  | @some c c' hc =>
    dsimp only
    rw [hc.arity_eq, hrun _ _ hc, ← hvs.length_eq]
    split
    · exact fail_lockstep _ hparen
    · refine Lockstep.get.bind fun m m' hm ↦ ?_
      rw [hm.depth_eq]
      split
      · exact fail_lockstep _ hparen
      · exact .active hparen (apply_lockstep (hstmts c) hR hvs hc)

mutual

theorem eval_lockstep (hblind : setup.Blind) (hR : ∀ t t', R t t' → t.Like t') :
    ∀ room e e', Expr.Alike R e e' →
    Lockstep R before (Value.Alike R) (eval setup room e) (eval setup room e')
  | 0, _, _ | 1, _, _ | 2, _, _ | 3, _, _ | 4, _, _ => fun _ ↦ by
    unfold eval
    exact .throw .tooDeep
  | room + 5, e, e' => fun he ↦ by
    have hpart := eval_lockstep hblind hR (room + 3)
    unfold eval
    cases he with
    | literal => exact .pure .scalar
    | group he => exact hpart _ _ he
    | unary ht he =>
      exact (hpart _ _ he).bind fun _ _ hv ↦ (Lockstep.ofExcept (unary_tried hR ht hv)).bind
        fun _ _ hw ↦ result_lockstep hw
    | binary hl ht hr =>
      exact (hpart _ _ hl).bind fun _ _ hv ↦ (hpart _ _ hr).bind fun _ _ hw ↦
        (Lockstep.ofExcept (binary_tried hR ht hv hw)).bind fun _ _ hx ↦ result_lockstep hx
    | logical hl ht hr =>
      refine (hpart _ _ hl).bind fun v v' hv ↦ ?_
      rw [(hv.like hR).isTruthy_eq]
      dsimp only
      rw [decides_eq hR ht]
      split
      · exact .pure .scalar
      · exact (hpart _ _ hr).bind fun _ _ hw ↦ .pure ((hw.like hR).isTruthy_eq ▸ .scalar)
    | var ht => exact read_lockstep hR ht _
    | assign ht he =>
      exact (hpart _ _ he).bind fun _ _ hv ↦ (write_lockstep hR ht _ hv).bind fun _ _ _ ↦ .pure hv
    | call he ht hes =>
      refine (hpart _ _ he).bind fun f f' hf ↦
        (Lockstep.mapM hes (eval_lockstep hblind hR (room + 2))).bind fun vs vs' hvs ↦ ?_
      refine call_lockstep hblind hR (fun c c' hc ↦ ?_) (fun c ↦ ?_) ht hf hvs
      · cases hc <;> rfl
      · cases c with
        | cls => exact exec_lockstep hblind hR room
        | native | function => exact exec_lockstep hblind hR (room + 1)
    | get he ht => exact (hpart _ _ he).bind fun _ _ ho ↦ getProperty_lockstep hR ho ht
    | set he ht hi =>
      refine (hpart _ _ he).bind fun o o' ho ↦ (writable_lockstep ho ht).bind fun id id' hid ↦
        (hpart _ _ hi).bind fun v v' hv ↦ ?_
      rw [hid, (hR _ _ ht).lexeme_eq]
      exact (setField_lockstep _ _ hv).bind fun _ _ _ ↦ .pure hv
    | self ht => exact read_lockstep hR ht _

theorem exec_lockstep (hblind : setup.Blind) (hR : ∀ t t', R t t' → t.Like t') :
    ∀ room, StmtsLockstep R before (exec setup room)
  | 0 | 1 | 2 => fun _ _ _ ↦ by
    unfold exec
    exact .throw .tooDeep
  | room + 3 => fun s s' hs ↦ by
    have hexpr := eval_lockstep hblind hR (room + 1)
    unfold exec
    cases hs with
    | empty => exact .pure .next
    | expression he => exact (hexpr _ _ he).discard.bind fun _ _ _ ↦ .pure .next
    | print he =>
      refine (hexpr _ _ he).bind fun v v' hv ↦ ?_
      rw [(hv.like hR).text_eq]
      exact (print_lockstep _).bind fun _ _ _ ↦ .pure .next
    | var ht he =>
      cases he with
      | none =>
        dsimp only
        rw [(hR _ _ ht).lexeme_eq]
        exact (define_lockstep _ .scalar).bind fun _ _ _ ↦ .pure .next
      | some he =>
        refine (hexpr _ _ he).bind fun v v' hv ↦ ?_
        rw [(hR _ _ ht).lexeme_eq]
        exact (define_lockstep _ hv).bind fun _ _ _ ↦ .pure .next
    | block hss => exact block_lockstep (exec_lockstep hblind hR room) hss
    | branch hc hyes hno =>
      refine (hexpr _ _ hc).bind fun v v' hv ↦ ?_
      rw [(hv.like hR).isTruthy_eq]
      split
      · exact exec_lockstep hblind hR (room + 1) _ _ hyes
      · cases hno with
        | none => exact .pure .next
        | some hno => exact exec_lockstep hblind hR (room + 1) _ _ hno
    | loop hc hbody =>
      exact repeatWhile_lockstep hR (hexpr _ _ hc) (exec_lockstep hblind hR (room + 1) _ _ hbody) _
    | function hd =>
      refine Lockstep.get.bind fun m m' hm ↦ identity_lockstep.bind fun id id' hid ↦ ?_
      rw [(hR _ _ hd.name).lexeme_eq, hid]
      have hc : Closure.Alike R ⟨_, m.env, false⟩ ⟨_, m'.env, false⟩ := ⟨hd, hm.env_eq, rfl⟩
      exact (define_lockstep _ (.function hc)).bind fun _ _ _ ↦ .pure .next
    | returns ht he =>
      cases he with
      | none => exact .pure (.returned .scalar)
      | some he => exact (hexpr _ _ he).bind fun _ _ hv ↦ .pure (.returned hv)
    | cls ht hds =>
      refine Lockstep.get.bind fun m m' hm ↦ identity_lockstep.bind fun id id' hid ↦ ?_
      rw [(hR _ _ ht).lexeme_eq, hid, hm.env_eq]
      exact (define_lockstep _ (.cls (classOf_alike m.env hR ht hds))).bind fun _ _ _ ↦
        .pure .next

end

theorem topLevel_lockstep (hblind : setup.Blind) (hR : ∀ t t', R t t' → t.Like t') {s s' : Stmt}
    (hs : s.Alike R s') :
    Lockstep R before Eq (topLevel setup s) (topLevel setup s') := by
  intro m m' hm
  have hexec := exec_lockstep hblind hR setup.limits.nesting s s' hs hm
  have htoken : R (s.anchor.getD ⟨.eof, "", .nil, 1⟩) (s'.anchor.getD ⟨.eof, "", .nil, 1⟩) ∨
      s.anchor.getD ⟨.eof, "", .nil, 1⟩ = ⟨.eof, "", .nil, 1⟩ ∧
        s'.anchor.getD ⟨.eof, "", .nil, 1⟩ = ⟨.eof, "", .nil, 1⟩ := by
    have hanchor := hs.anchor
    generalize s.anchor = t at hanchor ⊢
    generalize s'.anchor = t' at hanchor ⊢
    cases hanchor with
    | none => exact .inr ⟨rfl, rfl⟩
    | some ht => exact .inl ht
  unfold topLevel
  generalize exec setup setup.limits.nesting s m = x at hexec ⊢
  generalize exec setup setup.limits.nesting s' m' = x' at hexec ⊢
  cases hexec with
  | ok _ hm₁ hplace => exact .ok rfl hm₁ hplace
  | error hi hm₁ =>
    cases hi with
    | tooDeep => exact .error (.error ⟨rfl, htoken⟩) hm₁
    | error he => exact .error (.error he) hm₁
    | misfit => exact .error .misfit hm₁
    | unknown => exact .error .unknown hm₁
    | endless => exact .error .endless hm₁

theorem forM_lockstep (hblind : setup.Blind) (hR : ∀ t t', R t t' → t.Like t')
    {ss ss' : List Stmt} (hss : List.Forall₂ (Stmt.Alike R) ss ss') :
    Lockstep R before Eq (ss.forM (topLevel setup)) (ss'.forM (topLevel setup)) := by
  induction hss with
  | nil => exact .pure rfl
  | cons hs _ ih => exact (topLevel_lockstep hblind hR hs).bind fun _ _ _ ↦ ih

end Trees

end Exec

end TreeWalk
