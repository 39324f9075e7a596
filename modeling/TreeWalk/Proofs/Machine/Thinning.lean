import TreeWalk.Proofs.Machine.Operator
import TreeWalk.Proofs.Machine.Restoration
import TreeWalk.Proofs.Machine.Tandem

namespace TreeWalk

inductive Flow.Thinned (w : List FrameId) : Flow → Flow → Prop
  | next : Thinned w .next .next
  | returned {v v' : Value} : v.Thinned w v' → Thinned w (.returned v) (.returned v')

theorem Flow.Thinned.mono {w w' : List FrameId} {flow flow' : Flow} (h : flow.Thinned w flow')
    (hw : w <+: w') : flow.Thinned w' flow' := by
  cases h with
  | next => exact .next
  | returned hv => exact .returned (hv.mono hw)

namespace Exec

inductive Callee.Thinned (w : List FrameId) : Callee → Callee → Prop
  | native {n : Native} : n.Unaware → Thinned w (.native n) (.native n)
  | function {c c' : Closure} : c.Thinned w [] c' → Thinned w (.function c) (.function c')
  | cls {info info' : ClassInfo} : info.Thinned w info' → Thinned w (.cls info) (.cls info')

theorem Callee.Thinned.arity_eq {w : List FrameId} {c c' : Callee} (h : c.Thinned w c') :
    c'.arity = c.arity := by
  cases h with
  | native => rfl
  | function hc => exact congrArg Int.ofNat hc.arity_eq
  | cls hinfo => exact congrArg Int.ofNat hinfo.arity_eq

def StmtsTandem (run : Stmt → Exec Flow) : Prop :=
  ∀ w marks s s', s.Thinned marks s' → Tandem w marks Flow.Thinned (run s) (run s')

variable {w : List FrameId} {marks : List Bool}

theorem flow_tandem {flow flow' : Flow} (h : flow.Thinned w flow') :
    Tandem w marks Flow.Thinned (pure flow) (pure flow') :=
  .pure fun _ hw ↦ h.mono hw

section Parts

theorem repeatWhile_tandem {test test' : Exec Value} {body body' : Exec Flow}
    (htest : Tandem w marks Value.Thinned test test')
    (hbody : Tandem w marks Flow.Thinned body body') (rounds : Nat) :
    Tandem w marks Flow.Thinned (repeatWhile test body rounds) (repeatWhile test' body' rounds) := by
  induction rounds with
  | zero => exact .throw .endless
  | succ rounds ih =>
    refine htest.bind fun w₁ v v' hw hv ↦ ?_
    rw [hv.like.isTruthy_eq]
    split
    · refine (hbody.mono hw).bind fun w₂ flow flow' hw₂ hflow ↦ ?_
      cases hflow with
      | next => exact ih.mono (hw.trans hw₂)
      | returned hv => exact flow_tandem (.returned hv)
    · exact flow_tandem .next

theorem bind_tandem {c c' : Closure} {this this' : Value} (hc : c.Thinned w [false] c')
    (hthis : this.Thinned w this') :
    Tandem w marks (fun w₁ ↦ Closure.Thinned w₁ []) (bind c this) (bind c' this') := by
  refine (newFrame_tandem (.of_rel (Bindings.Rel.empty.set "this" hthis))).bind fun w₁ f f' hw hf ↦
    .pure fun w₂ hw₂ ↦ ?_
  obtain ⟨⟨marks', halign, hdecl, -⟩, hinit⟩ := hc
  exact ⟨⟨false :: marks', .frame (pair_mono hw₂ hf) (halign.mono (hw.trans hw₂)), hdecl,
    fun _ ↦ declares_scope⟩, hinit⟩

theorem parameters_thinned (ts : List Token) {vs vs' : List Value}
    (hvs : List.Forall₂ (Value.Thinned w) vs vs') :
    Bindings.Rel (Value.Thinned w) (.ofList ((ts.map (·.lexeme)).zip vs))
      (.ofList ((ts.map (·.lexeme)).zip vs')) := by
  refine .ofList ?_
  induction ts generalizing vs vs' with
  | nil => exact .nil
  | cons t ts ih =>
    cases hvs with
    | nil => exact .nil
    | cons hv hvs => exact .cons ⟨rfl, hv⟩ (ih hvs)

theorem writable_tandem {o o' : Value} (t : Token) (ho : o.Thinned w o') :
    Tandem w marks (fun _ ↦ Eq) (writable o t) (writable o' t) := by
  cases ho with
  | object => exact .pure fun _ _ ↦ rfl
  | scalar | native | function | cls | completion => exact fail_tandem _ _

theorem getProperty_tandem {o o' : Value} (t : Token) (ho : o.Thinned w o') :
    Tandem w marks Value.Thinned (getProperty o t) (getProperty o' t) := by
  cases ho with
  | @object id info info' hinfo =>
    refine (field?_tandem id t.lexeme).bind fun w₁ v v' hw hv ↦ ?_
    cases hv with
    | some hv => exact value_tandem hv
    | none =>
      have hinfo := hinfo.mono hw
      have hmethod := hinfo.methods t.lexeme
      dsimp only
      generalize info.methods.get? t.lexeme = c at hmethod ⊢
      generalize info'.methods.get? t.lexeme = c' at hmethod ⊢
      cases hmethod with
      | none => exact fail_tandem _ _
      | some hc =>
        refine (bind_tandem hc (.object hinfo)).bind fun w₂ c c' _ hc ↦ ?_
        exact identity_tandem.bind fun w₃ _ _ hw₃ hid ↦
          value_tandem (hid ▸ .function (hc.mono hw₃))
  | scalar | native | function | cls | completion => exact fail_tandem _ _

theorem classOf_thinned {env env' : Env} (name : Token) {ds ds' : List FunDecl}
    (henv : Aligned w env.chain env'.chain marks)
    (hds : List.Forall₂ (FunDecl.Thinned (false :: marks)) ds ds') :
    (classOf env name ds).Thinned w (classOf env' name ds') := by
  refine ⟨rfl, .of_rel <| .ofList (List.rel_map (fun d d' hd ↦ ?_) hds)⟩
  exact ⟨by rw [hd.name_eq], ⟨marks, henv, hd, fun _ ↦ declares_scope⟩, by rw [hd.name_eq]⟩

end Parts

section Calls

variable {run : Stmt → Exec Flow} (hrun : StmtsTandem run)
include hrun

theorem sequence_tandem {ss ss' : List Stmt} (hss : List.Forall₂ (Stmt.Thinned marks) ss ss') :
    Tandem w marks Flow.Thinned (sequence run ss) (sequence run ss') := by
  induction hss generalizing w with
  | nil => exact flow_tandem .next
  | cons hs _ ih =>
    refine (hrun w marks _ _ hs).bind fun w₁ flow flow' _ hflow ↦ ?_
    cases hflow with
    | next => exact ih
    | returned hv => exact flow_tandem (.returned hv)

theorem block_tandem {ss ss' : List Stmt}
    (hss : List.Forall₂ (Stmt.Thinned (false :: marks)) ss ss') :
    Tandem w marks Flow.Thinned (block run ss) (block run ss') :=
  (newFrame_tandem (.of_rel .empty)).bind fun _ _ _ _ hf ↦ Tandem.get.bind fun _ _ _ hw ⟨_, halign⟩ ↦
    (sequence_tandem hrun hss).within (.frame (pair_mono hw hf) halign)

variable {vs vs' : List Value} (hvs : List.Forall₂ (Value.Thinned w) vs vs')
include hvs

theorem enter_tandem {c c' : Closure} (hc : c.Thinned w [] c') :
    Tandem w marks Value.Thinned (enter run c vs) (enter run c' vs') := by
  obtain ⟨⟨marks', halign, hdecl, hdeclares⟩, hinit⟩ := hc
  unfold enter
  rw [hdecl.params_eq, hinit]
  refine (newFrame_tandem (.of_rel (parameters_thinned c.decl.params hvs))).bind fun w₁ f f' hw hf ↦ ?_
  have hinside : Aligned w₁ (c.env.inside f).chain (c'.env.inside f').chain (false :: marks') :=
    .frame hf (halign.mono hw)
  refine ((sequence_tandem hrun hdecl.body).within hinside).bind fun w₂ flow flow' hw₂ hflow ↦ ?_
  split
  · next hinitial =>
    refine Tandem.get.bind fun w₃ m m' hw₃ ⟨hm, _⟩ ↦ ?_
    exact getAt_tandem hm rfl rfl
      ((halign.mono ((hw.trans hw₂).trans hw₃)).head (hdeclares hinitial)) "this"
  · cases hflow with
    | next => exact value_tandem .scalar
    | returned hv => exact value_tandem hv

theorem instantiate_tandem {info info' : ClassInfo} (hinfo : info.Thinned w info') :
    Tandem w marks Value.Thinned (instantiate run info vs) (instantiate run info' vs') := by
  refine newObject_tandem.bind fun w₁ o o' hw ho ↦ ?_
  subst ho
  have hinfo := hinfo.mono hw
  have hobject : Value.Thinned w₁ (.object o info) (.object o info') := .object hinfo
  have hinit := hinfo.initializer?
  generalize info.initializer? = c at hinit ⊢
  generalize info'.initializer? = c' at hinit ⊢
  cases hinit with
  | none => exact value_tandem hobject
  | some hc =>
    refine (bind_tandem hc hobject).bind fun w₂ c c' hw₂ hc ↦ ?_
    have hvs := hvs.imp fun _ _ hv ↦ hv.mono (hw.trans hw₂)
    exact (enter_tandem hrun hvs hc).discard.bind fun w₃ _ _ hw₃ _ ↦
      value_tandem (hobject.mono (hw₂.trans hw₃))

theorem apply_tandem {c c' : Callee} (hc : c.Thinned w c') :
    Tandem w marks Value.Thinned (c.apply run vs) (c'.apply run vs') := by
  cases hc with
  | native hn => exact value_tandem (hn w _ _ hvs)
  | function hc => exact enter_tandem hrun hvs hc
  | cls hinfo => exact instantiate_tandem hrun hvs hinfo

end Calls

section Trees

variable {setup : Setup}

theorem callee?_thinned {v v' : Value} (hsetup : setup.Unaware) (hv : v.Thinned w v') :
    Option.Rel (Callee.Thinned w) (callee? setup v) (callee? setup v') := by
  cases hv with
  | @native i =>
    have hnative (n : Native) (hn : setup.natives[i]? = some n) : n.Unaware := by
      rcases List.mem_cons.mp (List.mem_of_getElem? hn) with rfl | hn
      · exact fun _ _ _ _ ↦ .scalar
      · exact hsetup n hn
    unfold callee?
    dsimp only
    cases h : setup.natives[i]? with
    | none => exact .none
    | some n => exact .some (.native (hnative n h))
  | function hc => exact .some (.function hc)
  | cls hinfo => exact .some (.cls hinfo)
  | scalar | object | completion => exact .none

theorem call_tandem (hsetup : setup.Unaware) {run : Callee → Stmt → Exec Flow} {paren : Token}
    {v v' : Value} {vs vs' : List Value} (hrun : ∀ c c', c.Thinned w c' → run c' = run c)
    (hstmts : ∀ c, StmtsTandem (run c)) (hv : v.Thinned w v')
    (hvs : List.Forall₂ (Value.Thinned w) vs vs') :
    Tandem w marks Value.Thinned (call setup run paren v vs) (call setup run paren v' vs') := by
  have hcallee := callee?_thinned hsetup hv
  unfold call
  generalize callee? setup v = c at hcallee ⊢
  generalize callee? setup v' = c' at hcallee ⊢
  cases hcallee with
  | none => exact fail_tandem _ _
  | @some c c' hc =>
    dsimp only
    rw [hc.arity_eq, hrun _ _ hc, ← hvs.length_eq]
    split
    · exact fail_tandem _ _
    · refine Tandem.get.bind fun w₁ m m' hw ⟨hm, _⟩ ↦ ?_
      rw [hm.depth_eq]
      split
      · exact fail_tandem _ _
      · exact ((apply_tandem (hstmts c) hvs hc).mono hw).active

theorem runIn_tandem {room : Nat} (h : StmtsTandem (exec setup room))
    (h' : StmtsTandem (exec setup (room + 1))) (c : Callee) : StmtsTandem (runIn setup room c) := by
  cases c with
  | cls => exact h
  | native | function => exact h'

mutual

theorem eval_tandem (hsetup : setup.Unaware) : ∀ room w marks e e', Expr.Thinned marks e e' →
    Tandem w marks Value.Thinned (eval setup room e) (eval setup room e')
  | 0, _, _, _, _ | 1, _, _, _, _ | 2, _, _, _, _ | 3, _, _, _, _ | 4, _, _, _, _ => fun _ ↦ by
    unfold eval
    exact .throw .tooDeep
  | room + 5, w, marks, e, e' => fun he ↦ by
    have hpart := eval_tandem hsetup (room + 3)
    cases he with
    | literal => unfold eval; exact value_tandem .scalar
    | group he => unfold eval; exact hpart _ _ _ _ he
    | @unary operator _ _ he =>
      unfold eval
      refine (hpart _ _ _ _ he).bind fun w₁ v v' _ hv ↦ ?_
      rw [hv.like.unary_eq operator]
      refine (ofExcept_tandem _).bind fun w₂ u u' _ ⟨hu, hok⟩ ↦ ?_
      obtain ⟨s, rfl⟩ := Operator.unary_scalar hok
      rw [hu]
      exact result_tandem s
    | @binary operator _ _ _ _ hl hr =>
      unfold eval
      refine (hpart _ _ _ _ hl).bind fun w₁ v v' _ hv ↦
        (hpart _ _ _ _ hr).bind fun w₂ u u' _ hu ↦ ?_
      rw [hv.like.binary_eq hu.like operator]
      refine (ofExcept_tandem _).bind fun w₃ r r' _ ⟨hr, hok⟩ ↦ ?_
      obtain ⟨s, rfl⟩ := Operator.binary_scalar hok
      rw [hr]
      exact result_tandem s
    | logical hl hr =>
      unfold eval
      refine (hpart _ _ _ _ hl).bind fun w₁ v v' _ hv ↦ ?_
      rw [hv.like.isTruthy_eq]
      dsimp only
      split
      · exact value_tandem .scalar
      · exact (hpart _ _ _ _ hr).bind fun w₂ u u' _ hu ↦
          hu.like.isTruthy_eq ▸ value_tandem .scalar
    | var href => unfold eval; exact read_tandem href _
    | assign href he =>
      unfold eval
      exact (hpart _ _ _ _ he).bind fun w₁ v v' _ hv ↦ (write_tandem href _ hv).bind
        fun w₂ _ _ hw₂ _ ↦ value_tandem (hv.mono hw₂)
    | call he hes =>
      rw [eval_call, eval_call]
      refine (hpart _ _ _ _ he).bind fun w₁ f f' _ hf ↦ ?_
      have harguments := Tandem.mapM (fun hw hv ↦ hv.mono hw) hes
        (eval_tandem hsetup (room + 2) w₁ marks)
      refine harguments.bind fun w₂ vs vs' hw₂ hvs ↦ ?_
      have hstmts := runIn_tandem (exec_tandem hsetup room) (exec_tandem hsetup (room + 1))
      exact call_tandem hsetup (fun c c' hc ↦ by cases hc <;> rfl) hstmts (hf.mono hw₂) hvs
    | get he =>
      unfold eval
      exact (hpart _ _ _ _ he).bind fun w₁ o o' _ ho ↦ getProperty_tandem _ ho
    | set he hi =>
      unfold eval
      refine (hpart _ _ _ _ he).bind fun w₁ o o' _ ho ↦ (writable_tandem _ ho).bind
        fun w₂ id id' _ hid ↦ (hpart _ _ _ _ hi).bind fun w₃ v v' _ hv ↦ ?_
      rw [hid]
      exact (setField_tandem _ _ hv).bind fun w₄ _ _ hw₄ _ ↦ value_tandem (hv.mono hw₄)
    | self href => unfold eval; exact read_tandem href _

theorem exec_tandem (hsetup : setup.Unaware) : ∀ room, StmtsTandem (exec setup room)
  | 0 | 1 | 2 => fun _ _ _ _ _ ↦ by
    unfold exec
    exact .throw .tooDeep
  | room + 3 => fun w marks s s' hs ↦ by
    have hexpr := eval_tandem hsetup (room + 1)
    have hstmt := exec_tandem hsetup (room + 1)
    unfold exec
    cases hs with
    | empty => exact flow_tandem .next
    | expression he =>
      exact (hexpr _ _ _ _ he).discard.bind fun _ _ _ _ _ ↦ flow_tandem .next
    | print he =>
      refine (hexpr _ _ _ _ he).bind fun w₁ v v' _ hv ↦ ?_
      rw [hv.like.text_eq]
      exact (print_tandem _).bind fun _ _ _ _ _ ↦ flow_tandem .next
    | var hmarks he =>
      cases he with
      | none => exact (define_tandem hmarks _ .scalar).bind fun _ _ _ _ _ ↦ flow_tandem .next
      | some he =>
        exact (hexpr _ _ _ _ he).bind fun w₁ v v' _ hv ↦
          (define_tandem hmarks _ hv).bind fun _ _ _ _ _ ↦ flow_tandem .next
    | block hss => exact block_tandem (exec_tandem hsetup room) (Stmt.allThinned_iff.mp hss)
    | branch hc hyes =>
      refine (hexpr _ _ _ _ hc).bind fun w₁ v v' _ hv ↦ ?_
      rw [hv.like.isTruthy_eq]
      split
      · exact hstmt _ _ _ _ hyes
      · exact flow_tandem .next
    | branches hc hyes hno =>
      refine (hexpr _ _ _ _ hc).bind fun w₁ v v' _ hv ↦ ?_
      rw [hv.like.isTruthy_eq]
      split
      · exact hstmt _ _ _ _ hyes
      · exact hstmt _ _ _ _ hno
    | loop hc hbody => exact repeatWhile_tandem (hexpr _ _ _ _ hc) (hstmt _ _ _ _ hbody) _
    | @function _ d d' hmarks hd =>
      refine Tandem.get.bind fun w₁ m m' _ ⟨hm, halign⟩ ↦
        identity_tandem.bind fun w₂ id id' hw₂ hid ↦ ?_
      rw [hd.name_eq, hid]
      have hc : Closure.Thinned w₂ [] ⟨d, m.env, false⟩ ⟨d', m'.env, false⟩ :=
        ⟨⟨marks, halign.mono hw₂, hd, fun h ↦ absurd h (by simp)⟩, rfl⟩
      exact (define_tandem hmarks _ (.function hc)).bind fun _ _ _ _ _ ↦ flow_tandem .next
    | returns he =>
      cases he with
      | none => exact flow_tandem (.returned .scalar)
      | some he =>
        exact (hexpr _ _ _ _ he).bind fun w₁ v v' _ hv ↦ flow_tandem (.returned hv)
    | @cls _ name _ _ hmarks hds =>
      refine Tandem.get.bind fun w₁ m m' _ ⟨hm, halign⟩ ↦
        identity_tandem.bind fun w₂ id id' hw₂ hid ↦ ?_
      rw [hid]
      have hinfo := classOf_thinned name (halign.mono hw₂) (FunDecl.allThinned_iff.mp hds)
      exact (define_tandem hmarks _ (.cls hinfo)).bind fun _ _ _ _ _ ↦ flow_tandem .next

end

end Trees

end Exec

end TreeWalk
