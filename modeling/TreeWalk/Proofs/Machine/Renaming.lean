import TreeWalk.Proofs.Machine.Abreast
import TreeWalk.Proofs.Machine.Operator

namespace TreeWalk

inductive Flow.Respelled (x y : String) (w : List Bool) : Flow → Flow → Prop
  | next : Respelled x y w .next .next
  | returned {v v' : Value} : v.Respelled x y w v' → Respelled x y w (.returned v) (.returned v')

theorem Flow.Respelled.mono {x y : String} {w w' : List Bool} {flow flow' : Flow}
    (h : flow.Respelled x y w flow') (hw : w <+: w') : flow.Respelled x y w' flow' := by
  cases h with
  | next => exact .next
  | returned hv => exact .returned (hv.mono hw)

namespace Exec

inductive Callee.Respelled (x y : String) (w : List Bool) : Callee → Callee → Prop
  | native {n : Native} : n.Indifferent → Respelled x y w (.native n) (.native n)
  | function {c c' : Closure} :
      c.Respelled x y w [] c' → Respelled x y w (.function c) (.function c')
  | cls {info info' : ClassInfo} :
      info.Respelled x y w info' → Respelled x y w (.cls info) (.cls info')

theorem Callee.Respelled.arity_eq {x y : String} {w : List Bool} {c c' : Callee}
    (h : c.Respelled x y w c') : c'.arity = c.arity := by
  cases h with
  | native => rfl
  | function hc => exact congrArg Int.ofNat hc.arity_eq
  | cls hc => exact congrArg Int.ofNat hc.arity_eq

variable (x y : String)

def StmtsAbreast (run : Stmt → Exec Flow) : Prop :=
  ∀ w marks s s', s.Respelled x y marks s' →
    Abreast x y w marks (Flow.Respelled x y) (run s) (run s')

variable {x y} {w marks : List Bool}

theorem flow_abreast {flow flow' : Flow} (h : flow.Respelled x y w flow') :
    Abreast x y w marks (Flow.Respelled x y) (pure flow) (pure flow') :=
  .pure fun _ hw ↦ h.mono hw

section Parts

theorem repeatWhile_abreast {test test' : Exec Value} {body body' : Exec Flow}
    (htest : Abreast x y w marks (Value.Respelled x y) test test')
    (hbody : Abreast x y w marks (Flow.Respelled x y) body body') (rounds : Nat) :
    Abreast x y w marks (Flow.Respelled x y) (repeatWhile test body rounds)
      (repeatWhile test' body' rounds) := by
  induction rounds with
  | zero => exact .throw .endless
  | succ rounds ih =>
    refine htest.bind fun w₁ v v' hw hv ↦ ?_
    rw [hv.like.isTruthy_eq]
    split
    · refine (hbody.mono hw).bind fun w₂ flow flow' hw₂ hflow ↦ ?_
      cases hflow with
      | next => exact ih.mono (hw.trans hw₂)
      | returned hv => exact flow_abreast (.returned hv)
    · exact flow_abreast .next

theorem bind_abreast (hy : y ≠ "this") {c c' : Closure} {this this' : Value}
    (hc : c.Respelled x y w [false] c') (hthis : this.Respelled x y w this') :
    Abreast x y w marks (fun w₁ ↦ Closure.Respelled x y w₁ []) (bind c this) (bind c' this') := by
  have hframe := (@Bindings.Respelled.empty Value x y false _).set hy.symm hthis
  rw [spelling_false] at hframe
  refine (newFrame_abreast false hframe).bind fun w₁ f f' hw hf ↦ .pure fun w₂ hw₂ ↦ ?_
  obtain ⟨⟨marks', hspans, hdecl⟩, henv, hinit⟩ := hc
  obtain ⟨rfl, hmark⟩ := hf
  refine ⟨⟨false :: marks', .inside (mark_mono hw₂ hmark) ?_, hdecl⟩, by rw [henv], hinit⟩
  exact hspans.mono (hw.trans hw₂)

theorem parameters_respelled {anew : Bool} {ts ts' : List Token} {vs vs' : List Value}
    (hts : List.Forall₂ (Token.Respelled x y anew) ts ts')
    (hvs : List.Forall₂ (Value.Respelled x y w) vs vs') :
    Bindings.Respelled x y anew (Value.Respelled x y w) (.ofList ((ts.map (·.lexeme)).zip vs))
      (.ofList ((ts'.map (·.lexeme)).zip vs')) := by
  refine .ofList ?_
  induction hts generalizing vs vs' with
  | nil => exact .nil
  | cons ht _ ih =>
    cases hvs with
    | nil => exact .nil
    | cons hv hvs => exact .cons ⟨ht.known, ht.lexeme_eq, hv⟩ (ih hvs)

theorem writable_abreast {o o' : Value} (t : Token) (ho : o.Respelled x y w o') :
    Abreast x y w marks (fun _ ↦ Eq) (writable o t) (writable o' t) := by
  cases ho with
  | object => exact .pure fun _ _ ↦ rfl
  | scalar | native | function | cls | completion => exact fail_abreast _ _

theorem getProperty_abreast (hy : y ≠ "this") {o o' : Value} (t : Token)
    (ho : o.Respelled x y w o') :
    Abreast x y w marks (Value.Respelled x y) (getProperty o t) (getProperty o' t) := by
  cases ho with
  | @object id info info' hinfo =>
    refine (field?_abreast id t.lexeme).bind fun w₁ v v' hw hv ↦ ?_
    cases hv with
    | some hv => exact value_abreast hv
    | none =>
      have hinfo := hinfo.mono hw
      have hmethod := hinfo.methods.get? t.lexeme
      dsimp only
      generalize info.methods.get? t.lexeme = c at hmethod ⊢
      generalize info'.methods.get? t.lexeme = c' at hmethod ⊢
      cases hmethod with
      | none => exact fail_abreast _ _
      | some hc =>
        refine (bind_abreast hy hc (.object hinfo)).bind fun w₂ c c' _ hc ↦ ?_
        exact identity_abreast.bind fun w₃ _ _ hw₃ hid ↦
          value_abreast (hid ▸ .function (hc.mono hw₃))
  | scalar | native | function | cls | completion => exact fail_abreast _ _

theorem classOf_respelled {env : Env} (name : Token) {ds ds' : List FunDecl}
    (henv : Spans w env.chain marks)
    (hds : List.Forall₂ (FunDecl.Respelled x y (false :: marks)) ds ds') :
    (classOf env name ds).Respelled x y w (classOf env name ds') := by
  refine ⟨rfl, .ofList (List.rel_map (fun d d' hd ↦ ?_) hds)⟩
  exact ⟨by rw [hd.name_eq], ⟨marks, henv, hd⟩, rfl, by rw [hd.name_eq]⟩

end Parts

section Calls

variable {run : Stmt → Exec Flow} (hrun : StmtsAbreast x y run)
include hrun

theorem sequence_abreast {ss ss' : List Stmt} (hss : List.Forall₂ (Stmt.Respelled x y marks) ss ss') :
    Abreast x y w marks (Flow.Respelled x y) (sequence run ss) (sequence run ss') := by
  induction hss generalizing w with
  | nil => exact flow_abreast .next
  | cons hs _ ih =>
    refine (hrun w marks _ _ hs).bind fun w₁ flow flow' _ hflow ↦ ?_
    cases hflow with
    | next => exact ih
    | returned hv => exact flow_abreast (.returned hv)

theorem block_abreast {anew : Bool} {ss ss' : List Stmt}
    (hss : List.Forall₂ (Stmt.Respelled x y (anew :: marks)) ss ss') :
    Abreast x y w marks (Flow.Respelled x y) (block run ss) (block run ss') := by
  refine (newFrame_abreast anew .empty).bind fun w₁ f f' _ ⟨hf, hmark⟩ ↦
    Abreast.get.bind fun w₂ m m' hw₂ ⟨hm, hspans⟩ ↦ ?_
  rw [hm.env_eq, hf]
  exact (sequence_abreast hrun hss).within (.inside (mark_mono hw₂ hmark) hspans)

variable (hx : x ≠ "this") (hy : y ≠ "this") {vs vs' : List Value}
  (hvs : List.Forall₂ (Value.Respelled x y w) vs vs')
include hx hy hvs

theorem enter_abreast {c c' : Closure} (hc : c.Respelled x y w [] c') :
    Abreast x y w marks (Value.Respelled x y) (enter run c vs) (enter run c' vs') := by
  obtain ⟨⟨marks', hspans, hdecl⟩, henv, hinit⟩ := hc
  obtain ⟨decl, env, isInitializer⟩ := c
  obtain ⟨decl', env', isInitializer'⟩ := c'
  dsimp only at hspans hdecl henv hinit
  subst henv hinit
  cases hdecl with
  | @mk _ anew name params params' body body' hparams hbody =>
    refine (newFrame_abreast anew (parameters_respelled hparams hvs)).bind
      fun w₁ f f' hw ⟨hf, hmark⟩ ↦ ?_
    subst hf
    have hinside : Spans w₁ (env'.inside f').chain (anew :: marks') :=
      .inside hmark (hspans.mono hw)
    refine ((sequence_abreast hrun (Stmt.allRespelled_iff.mp hbody)).within hinside).bind
      fun w₂ flow flow' hw₂ hflow ↦ ?_
    dsimp only
    split
    -- An initializer gives `this` whatever it returns, and no variable is named so.
    · refine Abreast.get.bind fun w₃ m m' hw₃ ⟨hm, _⟩ ↦ ?_
      have hget : Abreast x y w₃ marks _ _ _ := getAt_abreast hm.frames
        (hspans.mono ((hw.trans hw₂).trans hw₃)) 0 hy.symm
      rwa [spelling_of_ne hx.symm] at hget
    · cases hflow with
      | next => exact value_abreast .scalar
      | returned hv => exact value_abreast hv

theorem instantiate_abreast {info info' : ClassInfo} (hinfo : info.Respelled x y w info') :
    Abreast x y w marks (Value.Respelled x y) (instantiate run info vs)
      (instantiate run info' vs') := by
  refine newObject_abreast.bind fun w₁ o o' hw ho ↦ ?_
  subst ho
  have hinfo := hinfo.mono hw
  have hobject : Value.Respelled x y w₁ (.object o info) (.object o info') := .object hinfo
  have hinit := hinfo.initializer?
  generalize info.initializer? = c at hinit ⊢
  generalize info'.initializer? = c' at hinit ⊢
  cases hinit with
  | none => exact value_abreast hobject
  | some hc =>
    refine (bind_abreast hy hc hobject).bind fun w₂ c c' hw₂ hc ↦ ?_
    have hvs := hvs.imp fun _ _ hv ↦ hv.mono (hw.trans hw₂)
    exact (enter_abreast hrun hx hy hvs hc).discard.bind fun w₃ _ _ hw₃ _ ↦
      value_abreast (hobject.mono (hw₂.trans hw₃))

theorem apply_abreast {c c' : Callee} (hc : c.Respelled x y w c') :
    Abreast x y w marks (Value.Respelled x y) (c.apply run vs) (c'.apply run vs') := by
  cases hc with
  | native hn => exact value_abreast (hn x y w _ _ hvs)
  | function hc => exact enter_abreast hrun hx hy hvs hc
  | cls hinfo => exact instantiate_abreast hrun hx hy hvs hinfo

end Calls

section Trees

variable {setup : Setup}

theorem callee?_respelled {v v' : Value} (hsetup : setup.Indifferent) (hv : v.Respelled x y w v') :
    Option.Rel (Callee.Respelled x y w) (callee? setup v) (callee? setup v') := by
  cases hv with
  | @native i =>
    have hnative (n : Native) (hn : setup.natives[i]? = some n) : n.Indifferent := by
      rcases List.mem_cons.mp (List.mem_of_getElem? hn) with rfl | hn
      · exact fun _ _ _ _ _ _ ↦ .scalar
      · exact hsetup n hn
    unfold callee?
    dsimp only
    cases h : setup.natives[i]? with
    | none => exact .none
    | some n => exact .some (.native (hnative n h))
  | function hc => exact .some (.function hc)
  | cls hinfo => exact .some (.cls hinfo)
  | scalar | object | completion => exact .none

theorem call_abreast (hsetup : setup.Indifferent) (hx : x ≠ "this") (hy : y ≠ "this")
    {run : Callee → Stmt → Exec Flow} {paren : Token} {v v' : Value} {vs vs' : List Value}
    (hrun : ∀ c c', c.Respelled x y w c' → run c' = run c)
    (hstmts : ∀ c, StmtsAbreast x y (run c)) (hv : v.Respelled x y w v')
    (hvs : List.Forall₂ (Value.Respelled x y w) vs vs') :
    Abreast x y w marks (Value.Respelled x y) (call setup run paren v vs)
      (call setup run paren v' vs') := by
  have hcallee := callee?_respelled hsetup hv
  unfold call
  generalize callee? setup v = c at hcallee ⊢
  generalize callee? setup v' = c' at hcallee ⊢
  cases hcallee with
  | none => exact fail_abreast _ _
  | @some c c' hc =>
    dsimp only
    rw [hc.arity_eq, hrun _ _ hc, ← hvs.length_eq]
    split
    · exact fail_abreast _ _
    · refine Abreast.get.bind fun w₁ m m' hw ⟨hm, _⟩ ↦ ?_
      rw [hm.depth_eq]
      split
      · exact fail_abreast _ _
      · exact ((apply_abreast (hstmts c) hx hy hvs hc).mono hw).active

mutual

theorem eval_abreast (hsetup : setup.Indifferent) (hx : x ≠ "this") (hy : y ≠ "this") :
    ∀ room w marks e e', Expr.Respelled x y marks e e' →
    Abreast x y w marks (Value.Respelled x y) (eval setup room e) (eval setup room e')
  | 0, _, _, _, _ | 1, _, _, _, _ | 2, _, _, _, _ | 3, _, _, _, _ | 4, _, _, _, _ => fun _ ↦ by
    unfold eval
    exact .throw .tooDeep
  | room + 5, w, marks, e, e' => fun he ↦ by
    have hpart := eval_abreast hsetup hx hy (room + 3)
    unfold eval
    cases he with
    | literal => exact value_abreast .scalar
    | group he => exact hpart _ _ _ _ he
    | @unary operator _ _ he =>
      refine (hpart _ _ _ _ he).bind fun w₁ v v' _ hv ↦ ?_
      rw [hv.like.unary_eq operator]
      refine (ofExcept_abreast _).bind fun w₂ u u' _ ⟨hu, hok⟩ ↦ ?_
      obtain ⟨s, rfl⟩ := Operator.unary_scalar hok
      rw [hu]
      exact result_abreast s
    | @binary operator _ _ _ _ hl hr =>
      refine (hpart _ _ _ _ hl).bind fun w₁ v v' _ hv ↦
        (hpart _ _ _ _ hr).bind fun w₂ u u' hw₂ hu ↦ ?_
      rw [(hv.mono hw₂).like.binary_eq hu.like operator]
      refine (ofExcept_abreast _).bind fun w₃ r r' _ ⟨hr, hok⟩ ↦ ?_
      obtain ⟨s, rfl⟩ := Operator.binary_scalar hok
      rw [hr]
      exact result_abreast s
    | logical hl hr =>
      refine (hpart _ _ _ _ hl).bind fun w₁ v v' _ hv ↦ ?_
      rw [hv.like.isTruthy_eq]
      dsimp only
      split
      · exact value_abreast .scalar
      · exact (hpart _ _ _ _ hr).bind fun w₂ u u' _ hu ↦
          hu.like.isTruthy_eq ▸ value_abreast .scalar
    | var ht => exact read_abreast ht
    | assign ht he =>
      exact (hpart _ _ _ _ he).bind fun w₁ v v' _ hv ↦ (write_abreast ht hv).bind
        fun w₂ _ _ hw₂ _ ↦ value_abreast (hv.mono hw₂)
    | call he hes =>
      refine (hpart _ _ _ _ he).bind fun w₁ f f' _ hf ↦ ?_
      have harguments := Abreast.mapM (fun hw hv ↦ hv.mono hw) hes
        (eval_abreast hsetup hx hy (room + 2) w₁ marks)
      refine harguments.bind fun w₂ vs vs' hw₂ hvs ↦ ?_
      refine call_abreast hsetup hx hy (fun c c' hc ↦ ?_) (fun c ↦ ?_) (hf.mono hw₂) hvs
      · cases hc <;> rfl
      · cases c with
        | cls => exact exec_abreast hsetup hx hy room
        | native | function => exact exec_abreast hsetup hx hy (room + 1)
    | get he => exact (hpart _ _ _ _ he).bind fun w₁ o o' _ ho ↦ getProperty_abreast hy _ ho
    | set he hi =>
      refine (hpart _ _ _ _ he).bind fun w₁ o o' _ ho ↦ (writable_abreast _ ho).bind
        fun w₂ id id' _ hid ↦ (hpart _ _ _ _ hi).bind fun w₃ v v' _ hv ↦ ?_
      rw [hid]
      exact (setField_abreast _ _ hv).bind fun w₄ _ _ hw₄ _ ↦ value_abreast (hv.mono hw₄)
    | self ht => exact read_abreast ht

theorem exec_abreast (hsetup : setup.Indifferent) (hx : x ≠ "this") (hy : y ≠ "this") :
    ∀ room, StmtsAbreast x y (exec setup room)
  | 0 | 1 | 2 => fun _ _ _ _ _ ↦ by
    unfold exec
    exact .throw .tooDeep
  | room + 3 => fun w marks s s' hs ↦ by
    have hexpr := eval_abreast hsetup hx hy (room + 1)
    unfold exec
    cases hs with
    | empty => exact flow_abreast .next
    | expression he =>
      exact (hexpr _ _ _ _ he).discard.bind fun _ _ _ _ _ ↦ flow_abreast .next
    | print he =>
      refine (hexpr _ _ _ _ he).bind fun w₁ v v' _ hv ↦ ?_
      rw [hv.like.text_eq]
      exact (print_abreast _).bind fun _ _ _ _ _ ↦ flow_abreast .next
    | var ht he =>
      cases he with
      | none => exact (define_abreast ht .scalar).bind fun _ _ _ _ _ ↦ flow_abreast .next
      | some he =>
        exact (hexpr _ _ _ _ he).bind fun w₁ v v' _ hv ↦
          (define_abreast ht hv).bind fun _ _ _ _ _ ↦ flow_abreast .next
    | block hss => exact block_abreast (exec_abreast hsetup hx hy room) (Stmt.allRespelled_iff.mp hss)
    | branch hc hyes =>
      refine (hexpr _ _ _ _ hc).bind fun w₁ v v' _ hv ↦ ?_
      rw [hv.like.isTruthy_eq]
      split
      · exact exec_abreast hsetup hx hy (room + 1) _ _ _ _ hyes
      · exact flow_abreast .next
    | branches hc hyes hno =>
      refine (hexpr _ _ _ _ hc).bind fun w₁ v v' _ hv ↦ ?_
      rw [hv.like.isTruthy_eq]
      split
      · exact exec_abreast hsetup hx hy (room + 1) _ _ _ _ hyes
      · exact exec_abreast hsetup hx hy (room + 1) _ _ _ _ hno
    | loop hc hbody =>
      exact repeatWhile_abreast (hexpr _ _ _ _ hc) (exec_abreast hsetup hx hy (room + 1) _ _ _ _ hbody) _
    | @function _ d d' hname hd =>
      refine Abreast.get.bind fun w₁ m m' _ ⟨hm, hspans⟩ ↦
        identity_abreast.bind fun w₂ id id' hw₂ hid ↦ ?_
      rw [hd.name_eq, hid]
      have hc : Closure.Respelled x y w₂ [] ⟨d, m.env, false⟩ ⟨d', m'.env, false⟩ :=
        ⟨⟨marks, hspans.mono hw₂, hd⟩, hm.env_eq, rfl⟩
      exact (define_abreast hname (.function hc)).bind fun _ _ _ _ _ ↦ flow_abreast .next
    | returns he =>
      cases he with
      | none => exact flow_abreast (.returned .scalar)
      | some he =>
        exact (hexpr _ _ _ _ he).bind fun w₁ v v' _ hv ↦ flow_abreast (.returned hv)
    | @cls _ name _ _ hname hds =>
      refine Abreast.get.bind fun w₁ m m' _ ⟨hm, hspans⟩ ↦
        identity_abreast.bind fun w₂ id id' hw₂ hid ↦ ?_
      rw [hid, hm.env_eq]
      have hinfo := classOf_respelled name (hspans.mono hw₂) (FunDecl.allRespelled_iff.mp hds)
      exact (define_abreast hname (.cls hinfo)).bind fun _ _ _ _ _ ↦ flow_abreast .next

end

theorem topLevel_abreast (hsetup : setup.Indifferent) (hx : x ≠ "this") (hy : y ≠ "this")
    {s s' : Stmt} (hs : s.Respelled x y [] s') :
    Abreast x y w [] (fun _ ↦ Eq) (topLevel setup s) (topLevel setup s') := by
  intro w₁ m m' hw hm hspans
  have hexec := exec_abreast hsetup hx hy setup.limits.nesting w [] s s' hs hw hm hspans
  have htoken : (s.anchor.getD ⟨.eof, "", .nil, 1⟩).Renamed x y
      (s'.anchor.getD ⟨.eof, "", .nil, 1⟩) := by
    have hanchor := hs.alike.anchor
    generalize s.anchor = t at hanchor ⊢
    generalize s'.anchor = t' at hanchor ⊢
    cases hanchor with
    | none => exact .refl _
    | some ht => exact ht
  unfold topLevel
  generalize exec setup setup.limits.nesting s m = r at hexec ⊢
  generalize exec setup setup.limits.nesting s' m' = r' at hexec ⊢
  cases hexec with
  | ok hw₂ _ hm₁ hplace => exact .ok hw₂ rfl hm₁ hplace
  | error hw₂ hi hm₁ =>
    cases hi with
    | tooDeep => exact .error hw₂ (.error ⟨rfl, htoken⟩) hm₁
    | error he => exact .error hw₂ (.error he) hm₁
    | pastGlobals => exact .error hw₂ .pastGlobals hm₁
    | unbound => exact .error hw₂ .unbound hm₁
    | unknown => exact .error hw₂ .unknown hm₁
    | endless => exact .error hw₂ .endless hm₁

/-- Programs that are respelled run abreast. -/
theorem forM_abreast (hsetup : setup.Indifferent) (hx : x ≠ "this") (hy : y ≠ "this")
    {ss ss' : List Stmt} (hss : List.Forall₂ (Stmt.Respelled x y []) ss ss') :
    Abreast x y w [] (fun _ ↦ Eq) (ss.forM (topLevel setup)) (ss'.forM (topLevel setup)) := by
  induction hss generalizing w with
  | nil => exact .pure fun _ _ ↦ rfl
  | cons hs _ ih => exact (topLevel_abreast hsetup hx hy hs).bind fun _ _ _ _ _ ↦ ih

end Trees

end Exec

end TreeWalk
