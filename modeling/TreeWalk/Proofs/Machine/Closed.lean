import TreeWalk.Proofs.Machine.Mirror
import TreeWalk.Proofs.Machine.Operator

namespace TreeWalk

inductive Flow.Twin (W : Pairing) : Flow → Flow → Prop
  | next : Twin W .next .next
  | returned {v v' : Value} : v.Twin W v' → Twin W (.returned v) (.returned v')

namespace Exec

inductive Callee.Twin (W : Pairing) : Callee → Callee → Prop
  | function {c c' : Closure} : c.Twin W 0 c' → Twin W (.function c) (.function c')
  | cls {info info' : ClassInfo} : info.Twin W info' → Twin W (.cls info) (.cls info')

theorem Callee.Twin.arity_eq {W : Pairing} {c c' : Callee} (h : c.Twin W c') :
    c'.arity = c.arity := by
  cases h with
  | function hc => exact congrArg Int.ofNat hc.arity_eq
  | cls hinfo => exact congrArg Int.ofNat hinfo.arity_eq

def StmtsMirror (run : Stmt → Exec Flow) : Prop :=
  ∀ W n s, s.Closed (n + 1) → Mirrors W (n + 1) Flow.Twin (run s) (run s)

variable {W : Pairing} {n : Nat} {v v' : Value}

theorem next_mirrors : Mirrors W n Flow.Twin (pure .next) (pure .next) := .pure fun _ _ ↦ .next

theorem returned_mirrors (hv : v.Twin W v') :
    Mirrors W n Flow.Twin (pure (.returned v)) (pure (.returned v')) :=
  .pure fun _ hW ↦ .returned (hv.mono hW)

section Parts

theorem repeatWhile_mirrors {test : Exec Value} {body : Exec Flow}
    (htest : Mirrors W n Value.Twin test test) (hbody : Mirrors W n Flow.Twin body body)
    (rounds : Nat) :
    Mirrors W n Flow.Twin (repeatWhile test body rounds) (repeatWhile test body rounds) := by
  induction rounds with
  | zero => exact .throw _
  | succ rounds ih =>
    refine htest.bind fun W₁ v v' hW hv ↦ ?_
    rw [hv.isTruthy_eq]
    split
    · refine (hbody.mono hW).bind fun W₂ flow flow' hW₂ hflow ↦ ?_
      cases hflow with
      | next => exact ih.mono (hW.trans hW₂)
      | returned hv => exact returned_mirrors hv
    · exact next_mirrors

theorem bind_mirrors {c c' : Closure} {this this' : Value} (hc : c.Twin W 1 c')
    (hthis : this.Twin W this') :
    Mirrors W n (fun W₁ ↦ Closure.Twin W₁ 0) (bind c this) (bind c' this') := by
  refine (newFrame_mirrors (Bindings.Rel.empty.set "this" hthis)).bind fun W₁ f f' hW hf ↦
    .pure fun W₂ hW₂ ↦ ?_
  obtain ⟨hdecl, hinit, k, henv, hclosed, hthis⟩ := hc
  exact ⟨hdecl, hinit, k + 1, (henv.mono (hW.trans hW₂)).inside (hW₂ _ _ _ hf), hclosed, hthis⟩

theorem parameters_twin (ts : List Token) {vs vs' : List Value}
    (hvs : List.Forall₂ (Value.Twin W) vs vs') :
    Bindings.Rel (Value.Twin W) (.ofList ((ts.map (·.lexeme)).zip vs))
      (.ofList ((ts.map (·.lexeme)).zip vs')) := by
  refine .ofList ?_
  induction ts generalizing vs vs' with
  | nil => exact .nil
  | cons t ts ih =>
    cases hvs with
    | nil => exact .nil
    | cons hv hvs => exact .cons ⟨rfl, hv⟩ (ih hvs)

theorem writable_mirrors {o o' : Value} (t : Token) (ho : o.Twin W o') :
    Mirrors W n (fun W₁ ↦ W₁ .objects) (writable o t) (writable o' t) := by
  cases ho with
  | object ho => exact .pure fun _ hW ↦ hW _ _ _ ho
  | scalar | nan | function | cls => exact fail_mirrors _ _

theorem getProperty_mirrors {o o' : Value} (t : Token) (ho : o.Twin W o') :
    Mirrors W n Value.Twin (getProperty o t) (getProperty o' t) := by
  cases ho with
  | @object o o' info info' ho hinfo =>
    refine (field?_mirrors ho t.lexeme).bind fun W₁ v v' hW hv ↦ ?_
    cases hv with
    | some hv => exact value_mirrors hv
    | none =>
      have hinfo := hinfo.mono hW
      have hmethod := hinfo.methods.get? t.lexeme
      dsimp only
      generalize info.methods.get? t.lexeme = c at hmethod ⊢
      generalize info'.methods.get? t.lexeme = c' at hmethod ⊢
      cases hmethod with
      | none => exact fail_mirrors _ _
      | some hc =>
        refine (bind_mirrors hc (.object (hW _ _ _ ho) hinfo)).bind fun W₂ c c' _ hc ↦ ?_
        exact identity_mirrors.bind fun W₃ _ _ hW₃ hi ↦ value_mirrors (.function hi (hc.mono hW₃))
  | scalar | nan | function | cls => exact fail_mirrors _ _

theorem classOf_twin {env env' : Env} (name : Token) {ds : List FunDecl}
    (henv : env.Twin W n env') (hds : ∀ d ∈ ds, d.Closed (n + 1)) :
    (classOf env name ds).Twin W (classOf env' name ds) := by
  refine ⟨rfl, .ofList ?_⟩
  rw [List.forall₂_map_left_iff, List.forall₂_map_right_iff, List.forall₂_same]
  exact fun d hd ↦ ⟨rfl, rfl, rfl, n, henv, hds d hd, fun _ ↦ Nat.succ_pos n⟩

end Parts

section Calls

variable {run : Stmt → Exec Flow} (hrun : StmtsMirror run)
include hrun

theorem sequence_mirrors {ss : List Stmt} (hss : ∀ s ∈ ss, s.Closed (n + 1)) :
    Mirrors W (n + 1) Flow.Twin (sequence run ss) (sequence run ss) := by
  induction ss generalizing W with
  | nil => exact next_mirrors
  | cons s ss ih =>
    refine (hrun W n s (hss s (.head _))).bind fun W₁ flow flow' _ hflow ↦ ?_
    cases hflow with
    | next => exact ih fun s h ↦ hss s (.tail _ h)
    | returned hv => exact returned_mirrors hv

theorem block_mirrors {ss : List Stmt} (hss : ∀ s ∈ ss, s.Closed (n + 1)) :
    Mirrors W n Flow.Twin (block run ss) (block run ss) :=
  (newFrame_mirrors .empty).bind fun _ _ _ _ hf ↦ Mirrors.get.bind
    fun _ _ _ hW ⟨_, henv⟩ ↦ (sequence_mirrors hrun hss).within (henv.inside (hW _ _ _ hf))

variable {vs vs' : List Value} (hvs : List.Forall₂ (Value.Twin W) vs vs')
include hvs

theorem enter_mirrors {c c' : Closure} (hc : c.Twin W 0 c') :
    Mirrors W n Value.Twin (enter run c vs) (enter run c' vs') := by
  obtain ⟨hdecl, hinit, k, henv, hclosed, hthis⟩ := hc
  unfold enter
  rw [hdecl, hinit]
  refine (newFrame_mirrors (parameters_twin c.decl.params hvs)).bind fun W₁ f f' hW hf ↦ ?_
  refine ((sequence_mirrors hrun hclosed).within ((henv.mono hW).inside hf)).bind
    fun W₂ flow flow' hW₂ hflow ↦ ?_
  split
  · next hinit =>
    exact Mirrors.get.bind fun W₃ _ _ hW₃ ⟨hm, _⟩ ↦
      getAt_mirrors hm (henv.mono ((hW.trans hW₂).trans hW₃)) (hthis hinit) "this"
  · cases hflow with
    | next => exact value_mirrors .scalar
    | returned hv => exact value_mirrors hv

theorem instantiate_mirrors {info info' : ClassInfo} (hinfo : info.Twin W info') :
    Mirrors W n Value.Twin (instantiate run info vs) (instantiate run info' vs') := by
  refine newObject_mirrors.bind fun W₁ o o' hW ho ↦ ?_
  have hinfo := hinfo.mono hW
  have hobject : Value.Twin W₁ (.object o info) (.object o' info') := .object ho hinfo
  have hinit := hinfo.initializer?
  generalize info.initializer? = c at hinit ⊢
  generalize info'.initializer? = c' at hinit ⊢
  cases hinit with
  | none => exact value_mirrors hobject
  | some hc =>
    refine (bind_mirrors hc hobject).bind fun W₂ c c' hW₂ hc ↦ ?_
    have hvs := hvs.imp fun _ _ hv ↦ hv.mono (hW.trans hW₂)
    exact (enter_mirrors hrun hvs hc).discard.bind fun W₃ _ _ hW₃ _ ↦
      value_mirrors (hobject.mono (hW₂.trans hW₃))

theorem apply_mirrors {c c' : Callee} (hc : c.Twin W c') :
    Mirrors W n Value.Twin (c.apply run vs) (c'.apply run vs') := by
  cases hc with
  | function hc => exact enter_mirrors hrun hvs hc
  | cls hinfo => exact instantiate_mirrors hrun hvs hinfo

end Calls

section Trees

variable {setup : Setup}

theorem callee?_twin (hv : v.Twin W v') :
    Option.Rel (Callee.Twin W) (callee? setup v) (callee? setup v') := by
  cases hv with
  | function _ hc => exact .some (.function hc)
  | cls _ hinfo => exact .some (.cls hinfo)
  | scalar | nan | object => exact .none

theorem call_mirrors {run : Callee → Stmt → Exec Flow} {paren : Token} {vs vs' : List Value}
    (hrun : ∀ c c', c.Twin W c' → run c' = run c) (hstmts : ∀ c, StmtsMirror (run c))
    (hcallee : Option.Rel (Callee.Twin W) (callee? setup v) (callee? setup v'))
    (hvs : List.Forall₂ (Value.Twin W) vs vs') :
    Mirrors W n Value.Twin (call setup run paren v vs) (call setup run paren v' vs') := by
  unfold call
  generalize callee? setup v = c at hcallee ⊢
  generalize callee? setup v' = c' at hcallee ⊢
  cases hcallee with
  | none => exact fail_mirrors _ _
  | @some c c' hc =>
    dsimp only
    rw [hc.arity_eq, hrun _ _ hc, ← hvs.length_eq]
    split
    · exact fail_mirrors _ _
    · refine Mirrors.get.bind fun W₁ m m' hW ⟨hm, _⟩ ↦ ?_
      rw [hm.depth_eq]
      split
      · exact fail_mirrors _ _
      · exact ((apply_mirrors (hstmts c) hvs hc).mono hW).active

theorem runIn_mirror {room : Nat} (h : StmtsMirror (exec setup room))
    (h' : StmtsMirror (exec setup (room + 1))) (c : Callee) : StmtsMirror (runIn setup room c) := by
  cases c with
  | cls => exact h
  | native | function => exact h'

theorem runIn_eq {room : Nat} {c c' : Callee} (h : c.Twin W c') :
    runIn setup room c' = runIn setup room c := by
  cases h <;> rfl

mutual

theorem eval_mirrors : ∀ room W n e, Expr.Closed n e →
    Mirrors W n Value.Twin (eval setup room e) (eval setup room e)
  | 0, _, _, _ | 1, _, _, _ | 2, _, _, _ | 3, _, _, _ | 4, _, _, _ => fun _ ↦ by
    unfold eval
    exact .throw _
  | room + 5, W, n, e => fun he ↦ by
    have hpart := eval_mirrors (room + 3)
    cases he with
    | literal => unfold eval; exact value_mirrors .scalar
    | group he => unfold eval; exact hpart _ _ _ he
    | @unary operator _ he =>
      unfold eval
      refine (hpart _ _ _ he).bind fun W₁ v v' _ hv ↦ ?_
      rw [hv.unary_eq operator]
      refine (ofExcept_mirrors _).bind fun W₂ u u' _ ⟨hu, hok⟩ ↦ ?_
      obtain ⟨s, rfl⟩ := Operator.unary_scalar hok
      rw [hu]
      exact result_mirrors s
    | @binary _ _ operator hl hr =>
      unfold eval
      refine (hpart _ _ _ hl).bind fun W₁ v v' _ hv ↦
        (hpart _ _ _ hr).bind fun W₂ u u' hW₂ hu ↦ .of_unique fun hunique ↦ ?_
      rw [(hv.mono hW₂).binary_eq hunique hu operator]
      refine (ofExcept_mirrors _).bind fun W₃ r r' _ ⟨hr, hok⟩ ↦ ?_
      obtain ⟨s, rfl⟩ := Operator.binary_scalar hok
      rw [hr]
      exact result_mirrors s
    | logical hl hr =>
      unfold eval
      refine (hpart _ _ _ hl).bind fun W₁ v v' _ hv ↦ ?_
      rw [hv.isTruthy_eq]
      dsimp only
      split
      · exact value_mirrors .scalar
      · exact (hpart _ _ _ hr).bind fun W₂ u u' _ hu ↦
          hu.isTruthy_eq ▸ value_mirrors .scalar
    | var href => unfold eval; exact read_mirrors href _
    | assign he href =>
      unfold eval
      exact (hpart _ _ _ he).bind fun W₁ v v' _ hv ↦ (write_mirrors href _ hv).bind
        fun W₂ _ _ hW₂ _ ↦ value_mirrors (hv.mono hW₂)
    | call he hes =>
      rw [eval_call]
      refine (hpart _ _ _ he).bind fun W₁ f f' _ hf ↦ ?_
      have harguments := Mirrors.mapM _ (fun hW hv ↦ hv.mono hW)
        fun e hmem ↦ eval_mirrors (room + 2) W₁ n e (hes e hmem)
      refine harguments.bind fun W₂ vs vs' hW₂ hvs ↦ ?_
      exact call_mirrors (fun _ _ ↦ runIn_eq) (runIn_mirror (exec_mirrors room) (exec_mirrors (room + 1)))
        (callee?_twin (hf.mono hW₂)) hvs
    | get he => unfold eval; exact (hpart _ _ _ he).bind fun W₁ o o' _ ho ↦ getProperty_mirrors _ ho
    | set he hi =>
      unfold eval
      exact (hpart _ _ _ he).bind fun W₁ o o' _ ho ↦ (writable_mirrors _ ho).bind
        fun W₂ _ _ hW₂ ho ↦ (hpart _ _ _ hi).bind fun W₃ v v' hW₃ hv ↦
        (setField_mirrors (hW₃ _ _ _ ho) hv).bind fun W₄ _ _ hW₄ _ ↦ value_mirrors (hv.mono hW₄)
    | self href => unfold eval; exact read_mirrors href _

theorem exec_mirrors : ∀ room, StmtsMirror (exec setup room)
  | 0 | 1 | 2 => fun _ _ _ _ ↦ by
    unfold exec
    exact .throw _
  | room + 3 => fun W n s hs ↦ by
    have hexpr := eval_mirrors (room + 1)
    have hstmt := exec_mirrors (room + 1)
    unfold exec
    cases hs with
    | empty => exact next_mirrors
    | expression he => exact (hexpr _ _ _ he).discard.bind fun _ _ _ _ _ ↦ next_mirrors
    | print he =>
      refine (hexpr _ _ _ he).bind fun W₁ v v' _ hv ↦ ?_
      rw [hv.text_eq]
      exact (print_mirrors _).bind fun _ _ _ _ _ ↦ next_mirrors
    | @var _ name initializer he =>
      cases initializer with
      | none => exact (define_mirrors .scalar).bind fun _ _ _ _ _ ↦ next_mirrors
      | some e =>
        exact (hexpr _ _ _ (he e rfl)).bind fun W₁ v v' _ hv ↦
          (define_mirrors hv).bind fun _ _ _ _ _ ↦ next_mirrors
    | block hss => exact block_mirrors (exec_mirrors room) hss
    | @branch _ _ _ no hc hyes hno =>
      refine (hexpr _ _ _ hc).bind fun W₁ v v' _ hv ↦ ?_
      rw [hv.isTruthy_eq]
      split
      · exact hstmt _ _ _ hyes
      · cases no with
        | none => exact next_mirrors
        | some no => exact hstmt _ _ _ (hno no rfl)
    | loop hc hbody => exact repeatWhile_mirrors (hexpr _ _ _ hc) (hstmt _ _ _ hbody) _
    | @function _ d hd =>
      refine Mirrors.get.bind fun W₁ m m' _ ⟨hm, henv⟩ ↦
        identity_mirrors.bind fun W₂ i i' hW₂ hi ↦ ?_
      have hc : Closure.Twin W₂ 0 ⟨d, m.env, false⟩ ⟨d, m'.env, false⟩ :=
        ⟨rfl, rfl, n + 1, henv.mono hW₂, hd, fun h ↦ absurd h (by simp)⟩
      exact (define_mirrors (.function hi hc)).bind fun _ _ _ _ _ ↦ next_mirrors
    | @returns _ _ value he =>
      cases value with
      | none => exact returned_mirrors .scalar
      | some e => exact (hexpr _ _ _ (he e rfl)).bind fun W₁ v v' _ hv ↦ returned_mirrors hv
    | @cls _ name _ hds =>
      refine Mirrors.get.bind fun W₁ m m' _ ⟨hm, henv⟩ ↦
        identity_mirrors.bind fun W₂ i i' hW₂ hi ↦ ?_
      have hinfo := classOf_twin name (henv.mono hW₂) hds
      exact (define_mirrors (.cls hi hinfo)).bind fun _ _ _ _ _ ↦ next_mirrors

end

end Trees

end Exec

end TreeWalk
