import TreeWalk.Proofs.Session.Sound

namespace TreeWalk

namespace Session

open Exec Frames Resolving

section Parts

variable (setup : Setup) (sources : List String)

/-- What holds behind a statement: its declaration is bound, unless it returned a value. -/
def Behind (scopes : List Scope) (flow : Flow) (m : Machine) : Prop :=
  match flow with
  | .next => Lies m.frames m.env.chain scopes
  | .returned v => Proper setup sources m.frames v

def ExprsGo (room : Nat) : Prop :=
  ∀ ⦃e : Expr⦄ ⦃m : Machine⦄ ⦃v : Visit⦄, Sound setup sources m →
    Situated setup sources v (.expr room e) m.env m.frames →
    Happens setup sources ⟨.expr room e, m⟩ →
    Goes setup sources (eval setup room e) m fun w m' ↦ Proper setup sources m'.frames w

def StmtsGo (room : Nat) : Prop :=
  ∀ ⦃s : Stmt⦄ ⦃m : Machine⦄ ⦃v : Visit⦄, Sound setup sources m →
    Situated setup sources v (.stmt room s) m.env m.frames →
    Happens setup sources ⟨.stmt room s, m⟩ →
    Goes setup sources (exec setup room s) m
      (Behind setup sources (s.declaredIn v.state.scopes))

variable {setup sources} {m : Machine} {scopes : List Scope}

theorem sequence_goes (run : Stmt → Exec Flow) (ss : List Stmt) (hm : Sound setup sources m)
    (hlies : Lies m.frames m.env.chain scopes)
    (hs : ∀ before s rest, ss = before ++ s :: rest → ∀ m', sequence run before m = .ok .next m' →
      Sound setup sources m' → m'.env = m.env → Grow m.frames m'.frames →
      Lies m'.frames m'.env.chain (declaredAll before scopes) →
      Goes setup sources (run s) m'
        (Behind setup sources (s.declaredIn (declaredAll before scopes)))) :
    Goes setup sources (sequence run ss) m (Behind setup sources (declaredAll ss scopes)) := by
  induction ss generalizing m scopes with
  | nil => exact .pure hm hlies
  | cons s ss ih =>
    refine (hs [] s ss rfl m rfl hm rfl (.refl _) hlies).bind fun flow m₁ hrun hm₁ henv₁ hg₁ hb ↦ ?_
    cases flow with
    | returned v => exact .pure hm₁ hb
    | next =>
      refine ih hm₁ hb fun before s' rest hss m' hbefore hm' henv hg hlies' ↦ ?_
      refine hs (s :: before) s' rest (by rw [hss]; rfl) m' ?_ hm' (henv.trans henv₁)
        (hg₁.trans hg) hlies'
      simp only [Exec.sequence, Bind.bind, EStateM.bind, hrun]
      exact hbefore

theorem parameters_contains {c : Closure} {arguments : List Value}
    (hlen : arguments.length = c.arity) :
    ∀ t ∈ c.decl.params, (c.parameters arguments).contains t.lexeme = true := by
  intro t ht
  have hle : (c.decl.params.map (·.lexeme)).length ≤ arguments.length := by
    rw [List.length_map]
    exact Nat.le_of_eq hlen.symm
  rw [Closure.parameters, Bindings.contains_ofList, List.map_fst_zip hle]
  exact List.mem_map_of_mem ht

theorem statements_go {room : Nat} (hstmts : StmtsGo setup sources room) {c : Closure}
    {arguments : List Value} {v : Visit} {ss rest : List Stmt} (hm : Sound setup sources m)
    (hv : Situated setup sources v (.enter room c arguments) c.env m.frames)
    (harguments : ∀ a ∈ arguments, Proper setup sources m.frames a)
    (hlen : arguments.length = c.arity)
    (hμ : Happens setup sources ⟨.enter room c arguments, m⟩) (hbody : c.decl.body = ss ++ rest) :
    Goes setup sources (sequence (exec setup room) ss) (m.inside c.env (c.parameters arguments))
      (Behind setup sources (declaredAll ss
        (c.decl.params.foldl (fun scopes t ↦ declareIn t.lexeme scopes)
          (.empty :: v.state.scopes)))) := by
  have hinside : Sound setup sources (m.inside c.env (c.parameters arguments)) :=
    hm.inside fun name w hw ↦
      harguments w (List.of_mem_zip (Bindings.mem_of_get?_ofList hw)).2
  refine sequence_goes (exec setup room) ss hinside
    (hv.lies.parameters (parameters_contains hlen))
    fun before s after hss m' hbefore hm' henv hg hlies ↦ ?_
  have hbody : c.decl.body = before ++ s :: (after ++ rest) := by simp [hbody, hss]
  obtain ⟨v', hscopes, hv'⟩ := hv.statement hμ hbody
  rw [← hscopes] at hlies ⊢
  rw [henv] at hlies
  exact hstmts hm' (henv ▸ hv' room m'.frames hlies) (hμ.tail (.statement hbody hbefore))

theorem items_go {room : Nat} (hstmts : StmtsGo setup sources room) {v : Visit}
    {ss rest : List Stmt} (hm : Sound setup sources m)
    (hv : Situated setup sources v (.stmt (room + 3) (.block (ss ++ rest))) m.env m.frames)
    (hμ : Happens setup sources ⟨.stmt (room + 3) (.block (ss ++ rest)), m⟩) :
    Goes setup sources (sequence (exec setup room) ss) (m.inside m.env .empty)
      (Behind setup sources (declaredAll ss (.empty :: v.state.scopes))) := by
  have hinside : Sound setup sources (m.inside m.env .empty) :=
    hm.inside fun name w hw ↦ by simp [Bindings.empty, Bindings.get?] at hw
  have hlies : Lies (m.inside m.env .empty).frames (m.inside m.env .empty).env.chain
      (.empty :: v.state.scopes) :=
    hv.lies.push fun name hn ↦ by simp [Bindings.empty, Bindings.get?] at hn
  refine sequence_goes (exec setup room) ss hinside hlies
    fun before s after hss m' hbefore hm' henv hg hlies ↦ ?_
  rw [hss, List.append_assoc, List.cons_append] at hv hμ
  obtain ⟨v', hscopes, hv'⟩ := hv.item hμ
  rw [← hscopes] at hlies ⊢
  rw [henv] at hlies
  exact hstmts hm' (henv ▸ hv' room m'.frames hlies) (hμ.tail (.item hbefore))

theorem enter_goes {room : Nat} (hstmts : StmtsGo setup sources room) {c : Closure}
    {arguments : List Value} {v : Visit} (hm : Sound setup sources m)
    (hv : Situated setup sources v (.enter room c arguments) c.env m.frames)
    (hthis : c.isInitializer = true → (m.frames.bindings c.env.frame).contains "this" = true)
    (harguments : ∀ a ∈ arguments, Proper setup sources m.frames a)
    (hlen : arguments.length = c.arity)
    (hμ : Happens setup sources ⟨.enter room c arguments, m⟩) :
    Goes setup sources (enter (exec setup room) c arguments) m fun w m' ↦
      Proper setup sources m'.frames w := by
  have hbody := statements_go hstmts hm hv harguments hlen hμ (List.append_nil _).symm
  have hflow : Goes setup sources (do
      let frame ← newFrame (c.parameters arguments)
      within (c.env.inside frame) (sequence (exec setup room) c.decl.body)) m
      fun flow m' ↦ ∀ w, flow = .returned w → Proper setup sources m'.frames w := by
    refine within_goes (hbody.mono fun flow m' _ _ _ hb w hw ↦ ?_)
    subst hw
    exact hb
  have henter : enter (exec setup room) c arguments = (do
      let frame ← newFrame (c.parameters arguments)
      within (c.env.inside frame) (sequence (exec setup room) c.decl.body)) >>= fun flow ↦ do
        if c.isInitializer then ofFit ((← get).frames.getAt c.env 0 "this")
        else
          match flow with
          | .next => return .nil
          | .returned v => return v := by
    rw [bind_assoc]
    rfl
  rw [henter]
  refine hflow.bind fun flow m' _ hm' _ hg hw ↦ ?_
  split
  · next hi =>
    obtain ⟨this, hget⟩ := Bindings.contains_iff.mp (hg.contains _ _ (hthis hi))
    refine Goes.get ?_
    rw [getAt_eq rfl hget]
    exact .pure hm' (hm'.bound _ _ _ hget)
  · cases flow with
    | next => exact .pure hm' trivial
    | returned w => exact .pure hm' (hw w rfl)

theorem bind_goes {c : Closure} {this : Value} {v : Visit} (hm : Sound setup sources m)
    (hv : Situated setup sources v (.bind c this) c.env m.frames)
    (hthis : Proper setup sources m.frames this) (hμ : Happens setup sources ⟨.bind c this, m⟩) :
    Goes setup sources (bind c this) m fun c' m' ↦
      Callable setup sources m'.frames c' ∧ c'.decl = c.decl := by
  obtain ⟨v', hv'⟩ := hv.bound hμ
  have hinside : Sound setup sources (m.inside c.env (Bindings.empty.set "this" this)) := by
    refine hm.inside fun name w hw ↦ ?_
    rw [Bindings.get?_set] at hw
    split at hw
    · cases hw
      exact hthis
    · simp [Bindings.empty, Bindings.get?] at hw
  refine ⟨hinside.congr rfl rfl, rfl, grow_push _ _, ⟨⟨v', fun room arguments ↦ ?_⟩, fun _ ↦ ?_⟩, rfl⟩
  · exact hv' room c.isInitializer arguments
  · show (bindings (m.frames.push _) m.frames.next).contains "this" = true
    rw [bindings_push, if_pos rfl, Bindings.contains_set]
    exact .inl rfl

theorem instantiate_goes {room : Nat} (hstmts : StmtsGo setup sources room) {info : ClassInfo}
    {arguments : List Value} (hm : Sound setup sources m)
    (hinfo : ∀ name c, info.methods.get? name = some c → Bindable setup sources m.frames c)
    (harguments : ∀ a ∈ arguments, Proper setup sources m.frames a)
    (hlen : arguments.length = info.arity)
    (hbind : ∀ c, info.initializer? = some c →
      Happens setup sources ⟨.bind c (.object m.objects.size info), m.newObject⟩)
    (henter : ∀ c c' m', info.initializer? = some c →
      bind c (.object m.objects.size info) m.newObject = .ok c' m' →
      Happens setup sources ⟨.enter room c' arguments, m'⟩) :
    Goes setup sources (instantiate (exec setup room) info arguments) m fun w m' ↦
      Proper setup sources m'.frames w := by
  have hobject : Goes setup sources Exec.newObject m fun object m' ↦
      object = m.objects.size ∧ m' = m.newObject :=
    ⟨hm.newObject, rfl, .refl _, rfl, rfl⟩
  refine hobject.bind fun object m' _ hm' _ _ ho ↦ ?_
  obtain ⟨rfl, rfl⟩ := ho
  cases hi : info.initializer? with
  | none => exact .pure hm' hinfo
  | some c =>
    obtain ⟨v, hv⟩ := hinfo "init" c hi
    have hproper : Proper setup sources m.frames (.object m.objects.size info) := hinfo
    refine (bind_goes hm' (hv _) hproper (hbind c hi)).bind fun c' m₁ hc' hm₁ _ hg₁ hcall ↦ ?_
    obtain ⟨⟨⟨v', hv'⟩, hthis⟩, hdecl⟩ := hcall
    have harity : arguments.length = c'.arity := by
      rw [hlen, ClassInfo.arity, hi, Closure.arity, hdecl]
      rfl
    have hgo := enter_goes hstmts hm₁ (hv' room arguments) hthis
      (fun a ha ↦ (harguments a ha).grow hg₁) harity (henter c c' m₁ hi hc')
    refine (hgo.bind fun _ m₂ _ hm₂ _ _ _ ↦ .pure hm₂ trivial : Goes setup sources
      (discard (enter (exec setup room) c' arguments)) m₁ fun _ _ ↦ True).bind
      fun _ m₂ _ hm₂ _ hg₂ _ ↦ .pure hm₂ ?_
    exact hproper.grow (hg₁.trans hg₂)

theorem called_goes (callee : Callee) (run : Stmt → Exec Flow) {paren : Token}
    {arguments : List Value} (hm : Sound setup sources m)
    (hgo : (arguments.length : Int) = callee.arity → (m.depth : Int) < setup.maxDepth →
      Goes setup sources (callee.apply run arguments) m.called fun w m' ↦
        Proper setup sources m'.frames w) :
    Goes setup sources (do
      if (arguments.length : Int) ≠ callee.arity then
        fail (.argumentCount callee.arity arguments.length) paren
      else if setup.maxDepth ≤ (← get).depth then fail .stackOverflow paren
      else active paren (callee.apply run arguments)) m fun w m' ↦
        Proper setup sources m'.frames w := by
  split
  · exact .throw hm trivial
  · next hlen =>
    refine Goes.get ?_
    split
    · exact .throw hm trivial
    · next hdepth => exact active_goes (hgo (Decidable.not_not.mp hlen) (Int.not_le.mp hdepth))

theorem call_goes {room : Nat} (hlawful : setup.Lawful) (hstmts : StmtsGo setup sources room)
    (hstmts' : StmtsGo setup sources (room + 1)) {callee : Expr} {paren : Token} {es : List Expr}
    {m₁ m₂ : Machine} {f : Value} {arguments : List Value} (hm : Sound setup sources m₂)
    (hf : Proper setup sources m₂.frames f)
    (harguments : ∀ a ∈ arguments, Proper setup sources m₂.frames a)
    (hcallee : eval setup (room + 3) callee m = .ok f m₁)
    (hes : es.mapM (eval setup (room + 2)) m₁ = .ok arguments m₂)
    (hμ : Happens setup sources ⟨.expr (room + 5) (.call callee paren es), m⟩) :
    Goes setup sources
      (call setup (fun | .cls _ => exec setup room | _ => exec setup (room + 1)) paren f arguments)
      m₂ fun w m' ↦ Proper setup sources m'.frames w := by
  have hcalled : Sound setup sources m₂.called := hm.congr rfl rfl
  unfold call
  cases f with
  | scalar | object | completion => exact .throw hm trivial
  | native index =>
    have hc : callee? setup (.native index) = setup.natives[index]?.map .native := rfl
    rw [hc]
    cases hn : setup.natives[index]? with
    | none => exact .throw hm trivial
    | some n =>
      refine called_goes (.native n) _ hm fun hlen _ ↦ .pure hcalled (Proper.from harguments ?_)
      rcases List.mem_cons.mp (List.mem_of_getElem? hn) with rfl | hn
      · exact .scalar
      · exact hlawful n hn arguments hlen
  | function identity c =>
    obtain ⟨⟨v, hv⟩, hthis⟩ := hf
    refine called_goes (.function c) _ hm fun hlen hdepth ↦ ?_
    have hlen : arguments.length = c.arity := Int.ofNat.inj hlen
    exact enter_goes hstmts' hcalled (hv (room + 1) arguments) hthis harguments hlen
      (hμ.tail (.enter hcallee hes hlen hdepth))
  | cls identity info =>
    refine called_goes (.cls info) _ hm fun hlen hdepth ↦ ?_
    have hlen : arguments.length = info.arity := Int.ofNat.inj hlen
    exact instantiate_goes hstmts hcalled hf harguments hlen
      (fun c hi ↦ hμ.tail (.bindInitializer hcallee hes hlen hdepth hi))
      (fun c c' m' hi hbind ↦ hμ.tail (.enterInitializer hcallee hes hlen hdepth hi hbind))

theorem getProperty_goes {object : Value} {name : Token} (hm : Sound setup sources m)
    (ho : Proper setup sources m.frames object)
    (hbind : ∀ id info c, object = .object id info → (m.fields id).get? name.lexeme = none →
      info.methods.get? name.lexeme = some c → Happens setup sources ⟨.bind c object, m⟩) :
    Goes setup sources (getProperty object name) m fun w m' ↦ Proper setup sources m'.frames w := by
  unfold getProperty
  cases object with
  | scalar | native | function | cls | completion => exact .throw hm trivial
  | object id info =>
    have hfield : Goes setup sources (field? id name.lexeme) m fun value m' ↦
        value = (m.fields id).get? name.lexeme ∧ m' = m :=
      ⟨hm, rfl, .refl _, rfl, rfl⟩
    refine hfield.bind fun value m' _ _ _ _ hvalue ↦ ?_
    obtain ⟨rfl, rfl⟩ := hvalue
    split
    · next w hw => exact .pure hm (hm.fields id _ w hw)
    · next hnone =>
      split
      · next c hc =>
        obtain ⟨v, hv⟩ := ho _ c hc
        refine (bind_goes hm (hv _) ho (hbind id info c rfl hnone hc)).bind
          fun c' m₁ _ hm₁ _ _ hcall ↦ ?_
        exact (identity_goes hm₁).bind fun _ m₂ _ hm₂ _ hg₂ _ ↦
          .pure hm₂ (Proper.grow (show Proper setup sources m₁.frames (.function 0 c') from hcall.1) hg₂)
      · exact .throw hm trivial

theorem repeatWhile_goes (test : Exec Value) (body : Exec Flow) {m₀ : Machine} {bound : Nat}
    (htest : ∀ n m', Moment.Rounds test body n m₀ m' → n < bound → Sound setup sources m' →
      m'.env = m₀.env → Grow m₀.frames m'.frames → Goes setup sources test m' fun _ _ ↦ True)
    (hbody : ∀ n m₁ v m', Moment.Rounds test body n m₀ m₁ → n < bound → test m₁ = .ok v m' →
      v.isTruthy = true → Sound setup sources m' → m'.env = m₀.env → Grow m₀.frames m'.frames →
      Goes setup sources body m' fun flow m'' ↦
        ∀ w, flow = .returned w → Proper setup sources m''.frames w) :
    ∀ (rounds n : Nat) (m : Machine), n + rounds = bound → Moment.Rounds test body n m₀ m →
      Sound setup sources m → m.env = m₀.env → Grow m₀.frames m.frames →
      Goes setup sources (repeatWhile test body rounds) m fun flow m' ↦
        ∀ w, flow = .returned w → Proper setup sources m'.frames w
  | 0, _, _, _, _, hm, _, _ => .throw hm trivial
  | rounds + 1, n, m, hn, hr, hm, henv, hg => by
    refine (htest n m hr (by omega) hm henv hg).bind fun v m₁ hv hm₁ henv₁ hg₁ _ ↦ ?_
    split
    · next htrue =>
      have henv₁ := henv₁.trans henv
      have hg₁ := hg.trans hg₁
      refine (hbody n m v m₁ hr (by omega) hv htrue hm₁ henv₁ hg₁).bind
        fun flow m₂ hflow hm₂ henv₂ hg₂ hw ↦ ?_
      cases flow with
      | next =>
        exact repeatWhile_goes test body htest hbody rounds (n + 1) m₂ (by omega) (.more hr hv htrue hflow) hm₂
          (henv₂.trans henv₁) (hg₁.trans hg₂)
      | returned w => exact .pure hm₂ hw
    · exact .pure hm₁ (by simp)

theorem rounds_sound {test : Exec Value} {body : Exec Flow} {n : Nat} {m' : Machine}
    (htest : ∀ k m', Moment.Rounds test body k m m' → k < n → Sound setup sources m' →
      m'.env = m.env → Grow m.frames m'.frames → Goes setup sources test m' fun _ _ ↦ True)
    (hbody : ∀ k m₁ v m', Moment.Rounds test body k m m₁ → k < n → test m₁ = .ok v m' →
      v.isTruthy = true → Sound setup sources m' → m'.env = m.env → Grow m.frames m'.frames →
      Goes setup sources body m' fun _ _ ↦ True)
    (hr : Moment.Rounds test body n m m') (hm : Sound setup sources m) :
    Sound setup sources m' ∧ m'.env = m.env ∧ Grow m.frames m'.frames := by
  induction hr with
  | none => exact ⟨hm, rfl, .refl _⟩
  | @more n m m₁ m₂ m₃ v hr hv htrue hflow ih =>
    obtain ⟨hm₁, henv₁, hg₁⟩ := ih (fun k m' hr hk ↦ htest k m' hr (Nat.lt_succ_of_lt hk))
      (fun k m₁ v m' hr hk ↦ hbody k m₁ v m' hr (Nat.lt_succ_of_lt hk)) hm
    obtain ⟨hm₂, henv₂, hg₂, -⟩ :=
      (htest n m₁ hr (Nat.lt_succ_self n) hm₁ henv₁ hg₁).ok hv
    have henv₂ := henv₂.trans henv₁
    have hg₂ := hg₁.trans hg₂
    obtain ⟨hm₃, henv₃, hg₃, -⟩ :=
      (hbody n m₁ v m₂ hr (Nat.lt_succ_self n) hv htrue hm₂ henv₂ hg₂).ok hflow
    exact ⟨hm₃, henv₃.trans henv₂, hg₂.trans hg₃⟩

theorem behind_of_returned {flow : Flow} (hlies : Lies m.frames m.env.chain scopes)
    (h : ∀ w, flow = .returned w → Proper setup sources m.frames w) :
    Behind setup sources scopes flow m := by
  cases flow with
  | next => exact hlies
  | returned w => exact h w rfl

end Parts

section Evaluation

variable {setup : Setup} {sources : List String}

theorem Situated.later {v : Visit} {ev : Event} {m m' : Machine}
    (h : Situated setup sources v ev m.env m.frames) (henv : m'.env = m.env)
    (hg : Grow m.frames m'.frames) : Situated setup sources v ev m'.env m'.frames :=
  henv ▸ h.grow hg

mutual

theorem exprs_go (hlawful : setup.Lawful) : ∀ room, ExprsGo setup sources room
  | room + 5 => by
    intro e m v hm hv hμ
    cases e with
    | literal value => exact .pure hm trivial
    | group inner =>
      obtain ⟨v', hv'⟩ := hv.group (room + 3)
      exact exprs_go hlawful (room + 3) hm hv' (hμ.tail .group)
    | unary operator right =>
      obtain ⟨v', hv'⟩ := hv.unary (room + 3)
      refine (exprs_go hlawful (room + 3) hm hv' (hμ.tail .unary)).bind
        fun w m₁ _ hm₁ _ _ hw ↦ ?_
      exact (ofExcept_goes hm₁ fun _ ↦ Operator.unary_scalar).bind fun _ _ _ hm₂ _ _ hw ↦
        result_goes hm₂ hw
    | binary left operator right =>
      obtain ⟨⟨vl, hvl⟩, ⟨vr, hvr⟩⟩ := hv.binary (room + 3)
      refine (exprs_go hlawful (room + 3) hm hvl (hμ.tail .binaryLeft)).bind
        fun l m₁ hl hm₁ henv₁ hg₁ _ ↦ ?_
      refine (exprs_go hlawful (room + 3) hm₁ (hvr.later henv₁ hg₁)
        (hμ.tail (.binaryRight hl))).bind fun r m₂ _ hm₂ _ _ _ ↦ ?_
      exact (ofExcept_goes hm₂ fun _ ↦ Operator.binary_scalar).bind fun _ _ _ hm₃ _ _ hw ↦
        result_goes hm₃ hw
    | logical left operator right =>
      obtain ⟨⟨vl, hvl⟩, ⟨vr, hvr⟩⟩ := hv.logical (room + 3)
      refine (exprs_go hlawful (room + 3) hm hvl (hμ.tail .logicalLeft)).bind
        fun l m₁ hl hm₁ henv₁ hg₁ _ ↦ ?_
      dsimp only
      split
      · exact .pure hm₁ trivial
      · next hdecides =>
        exact (exprs_go hlawful (room + 3) hm₁ (hvr.later henv₁ hg₁)
          (hμ.tail (.logicalRight hl (by simpa using hdecides)))).bind
            fun r m₂ _ hm₂ _ _ _ ↦ .pure hm₂ trivial
    | var name ref =>
      refine read_goes hm fun d hd ↦ ?_
      obtain ⟨_, f, _, _, hf, hc⟩ := hv.variable_finds.2 d hd
      exact ⟨f, hf, hc⟩
    | assign name value ref =>
      obtain ⟨v', hv'⟩ := hv.assigned (room + 3)
      refine (exprs_go hlawful (room + 3) hm hv' (hμ.tail .assigned)).bind
        fun w m₁ _ hm₁ henv₁ hg₁ hw ↦ ?_
      refine (write_goes hm₁ hw fun d hd ↦ henv₁ ▸ hv.target d hd).bind
        fun _ m₂ _ hm₂ _ hg₂ _ ↦ .pure hm₂ (hw.grow hg₂)
    | call callee paren arguments =>
      obtain ⟨v', hv'⟩ := hv.callee (room + 3)
      refine (exprs_go hlawful (room + 3) hm hv' (hμ.tail .callee)).bind
        fun f m₁ hf hm₁ henv₁ hg₁ hproper ↦ ?_
      have hes : Goes setup sources (arguments.mapM (eval setup (room + 2))) m₁ fun vs m' ↦
          ∀ w ∈ vs, Proper setup sources m'.frames w := by
        refine mapM_goes arguments hm₁ (fun _ _ _ ↦ .grow) fun before a rest has bs m' hbs hm' henv hg ↦ ?_
        subst has
        obtain ⟨v'', hv''⟩ := hv.argument (room + 2)
        exact exprs_go hlawful (room + 2) hm' ((hv''.later henv₁ hg₁).later henv hg)
          (hμ.tail (.argument hf hbs))
      refine hes.bind fun vs m₂ hvs hm₂ _ hg₂ hvsp ↦ ?_
      exact call_goes hlawful (stmts_go hlawful room) (stmts_go hlawful (room + 1)) hm₂
        (hproper.grow hg₂) hvsp hf hvs hμ
    | get object name =>
      obtain ⟨v', hv'⟩ := hv.object (room + 3)
      refine (exprs_go hlawful (room + 3) hm hv' (hμ.tail .object)).bind
        fun o m₁ ho hm₁ _ _ hproper ↦ ?_
      refine getProperty_goes hm₁ hproper fun id info c hobject hnone hc ↦ ?_
      subst hobject
      exact hμ.tail (.bindMethod ho hnone hc)
    | set object name value =>
      obtain ⟨⟨vo, hvo⟩, ⟨vv, hvv⟩⟩ := hv.set (room + 3)
      refine (exprs_go hlawful (room + 3) hm hvo (hμ.tail .owner)).bind
        fun o m₁ ho hm₁ henv₁ hg₁ hproper ↦ ?_
      cases o with
      | scalar | native | function | cls | completion => exact .throw hm₁ trivial
      | object id info =>
        refine (exprs_go hlawful (room + 3) hm₁ (hvv.later henv₁ hg₁)
          (hμ.tail (.field ho))).bind fun w m₂ _ hm₂ _ _ hw ↦ ?_
        have hset : Goes setup sources (setField id name.lexeme w) m₂ fun _ m' ↦
            m'.frames = m₂.frames :=
          ⟨hm₂.setField hw, rfl, .refl _, rfl⟩
        exact hset.bind fun _ m₃ _ hm₃ _ hg₃ _ ↦ .pure hm₃ (hw.grow hg₃)
    | self keyword ref =>
      refine read_goes hm fun d hd ↦ ?_
      obtain ⟨_, f, _, _, hf, hc⟩ := hv.self_finds.2 d hd
      exact ⟨f, hf, hc⟩
    | ofStmt s => exact absurd hv.notOfStmt not_false
  | 0 | 1 | 2 | 3 | 4 => fun _ _ _ hm _ _ ↦ by
    unfold eval
    exact .throw hm trivial

theorem stmts_go (hlawful : setup.Lawful) : ∀ room, StmtsGo setup sources room
  | room + 3 => by
    intro s m v hm hv hμ
    cases s with
    | empty => exact .pure hm hv.lies
    | expression e =>
      obtain ⟨v', hv'⟩ := hv.expression (room + 1)
      have hgo := (exprs_go hlawful (room + 1) hm hv' (hμ.tail .expression)).bind
        fun _ m₁ _ hm₁ _ _ _ ↦ Goes.pure (a := ()) (Q := fun _ _ ↦ True) hm₁ trivial
      exact hgo.bind fun _ m₁ _ hm₁ henv₁ hg₁ _ ↦ .pure hm₁ (hv.later henv₁ hg₁).lies
    | print e =>
      obtain ⟨v', hv'⟩ := hv.printed (room + 1)
      refine (exprs_go hlawful (room + 1) hm hv' (hμ.tail .printed)).bind
        fun w m₁ _ hm₁ henv₁ hg₁ _ ↦ ?_
      exact (print_goes hm₁ w.text).bind fun _ m₂ _ hm₂ henv₂ hg₂ _ ↦
        .pure hm₂ ((hv.later henv₁ hg₁).later henv₂ hg₂).lies
    | var name initializer =>
      cases initializer with
      | none =>
        refine (define_goes (v := .nil) hm trivial).bind fun _ m₁ _ hm₁ henv₁ _ hdefined ↦ .pure hm₁ ?_
        show Lies m₁.frames m₁.env.chain _
        rw [hdefined, henv₁]
        exact hv.lies.define _ _
      | some e =>
        obtain ⟨v', hv'⟩ := hv.initializer (room + 1)
        refine (exprs_go hlawful (room + 1) hm hv' (hμ.tail .initializer)).bind
          fun w m₁ _ hm₁ henv₁ hg₁ hw ↦ ?_
        refine (define_goes hm₁ (hw.grow (grow_define _ _ _ _))).bind
          fun _ m₂ _ hm₂ henv₂ _ hdefined ↦ .pure hm₂ ?_
        show Lies m₂.frames m₂.env.chain _
        rw [hdefined, henv₂]
        exact (hv.later henv₁ hg₁).lies.define _ _
    | block body =>
      rw [← List.append_nil body] at hv hμ
      have hbody := items_go (stmts_go hlawful room) hm hv hμ
      have hgo : Goes setup sources (block (exec setup room) body) m fun flow m' ↦
          ∀ w, flow = .returned w → Proper setup sources m'.frames w :=
        within_goes (hbody.mono fun flow m' _ _ _ hb w hw ↦ by
          subst hw
          exact hb)
      exact hgo.mono fun flow m' _ henv hg hw ↦ behind_of_returned (hv.later henv hg).lies hw
    | branch condition yes no =>
      obtain ⟨v', hv'⟩ := hv.condition (room + 1)
      refine (exprs_go hlawful (room + 1) hm hv' (hμ.tail .condition)).bind
        fun w m₁ hw hm₁ henv₁ hg₁ _ ↦ ?_
      split
      · next htrue =>
        obtain ⟨v₁, hv₁, hscopes, hplain⟩ := hv.yes (room + 1)
        have hgo := stmts_go hlawful (room + 1) hm₁ (hv₁.later henv₁ hg₁) (hμ.tail (.yes hw htrue))
        rwa [Stmt.declaredIn_of_none hplain, hscopes] at hgo
      · next hfalse =>
        cases no with
        | none => exact .pure hm₁ (hv.later henv₁ hg₁).lies
        | some no =>
          obtain ⟨v₁, hv₁, hscopes, hplain⟩ := hv.no (room + 1)
          have hgo := stmts_go hlawful (room + 1) hm₁ (hv₁.later henv₁ hg₁)
            (hμ.tail (.no hw (by simpa using hfalse)))
          rwa [Stmt.declaredIn_of_none hplain, hscopes] at hgo
    | loop condition body =>
      obtain ⟨vc, hvc⟩ := hv.test (room + 1)
      obtain ⟨vb, hvb, hscopes, hplain⟩ := hv.round (room + 1)
      have hgo := repeatWhile_goes (eval setup (room + 1) condition) (exec setup (room + 1) body)
        (fun n m' hr hn hm' henv hg ↦
          (exprs_go hlawful (room + 1) hm' (hvc.later henv hg) (hμ.tail (.test hr hn))).mono
            fun _ _ _ _ _ _ ↦ trivial)
        (fun n m₁ w m' hr hn hw htrue hm' henv hg ↦
          (stmts_go hlawful (room + 1) hm' (hvb.later henv hg) (hμ.tail (.round hr hn hw htrue))).mono
            fun flow m'' _ _ _ hb w hw ↦ by
              subst hw
              exact hb)
        setup.limits.rounds 0 m (Nat.zero_add _) .none hm rfl (.refl _)
      exact hgo.mono fun flow m' _ henv hg hw ↦ behind_of_returned (hv.later henv hg).lies hw
    | function d =>
      obtain ⟨v', hv'⟩ := hv.function
      refine Goes.get ((identity_goes hm).bind fun identity m₁ _ hm₁ henv₁ hg₁ _ ↦ ?_)
      let f : Value := .function identity ⟨d, m.env, false⟩
      have hlies := (hv.later henv₁ hg₁).lies.define d.name.lexeme f
      have hcall : Proper setup sources (m₁.frames.define m₁.env.frame d.name.lexeme f) f :=
        ⟨⟨v', hv' _ (henv₁ ▸ hlies)⟩, by simp⟩
      refine (define_goes hm₁ hcall).bind fun _ m₂ _ hm₂ henv₂ _ hdefined ↦ .pure hm₂ ?_
      show Lies m₂.frames m₂.env.chain _
      rw [hdefined, henv₂]
      exact hlies
    | returns keyword value =>
      cases value with
      | none => exact .pure hm trivial
      | some e =>
        obtain ⟨v', hv'⟩ := hv.returned (room + 1)
        exact (exprs_go hlawful (room + 1) hm hv' (hμ.tail .returned)).bind
          fun w m₁ _ hm₁ _ _ hw ↦ .pure hm₁ hw
    | cls name methods =>
      obtain ⟨v', hv'⟩ := hv.methods
      refine Goes.get ((identity_goes hm).bind fun identity m₁ _ hm₁ henv₁ hg₁ _ ↦ ?_)
      let f : Value := .cls identity (classOf m.env name methods)
      have hlies := (hv.later henv₁ hg₁).lies.define name.lexeme f
      have hclass : Proper setup sources (m₁.frames.define m₁.env.frame name.lexeme f) f := by
        intro k c hc
        obtain ⟨d, hd, he⟩ := List.mem_map.mp (Bindings.mem_of_get?_ofList hc)
        obtain rfl : _ = c := congrArg Prod.snd he
        exact ⟨v', hv' _ (henv₁ ▸ hlies) d hd _⟩
      refine (define_goes hm₁ hclass).bind fun _ m₂ _ hm₂ henv₂ _ hdefined ↦ .pure hm₂ ?_
      show Lies m₂.frames m₂.env.chain _
      rw [hdefined, henv₂]
      exact hlies
    | ofExpr e => exact absurd hv.notOfExpr not_false
    | unknown kind => exact absurd hv.notUnknown not_false
  | 0 | 1 | 2 => fun _ _ _ hm _ _ ↦ by
    unfold exec
    exact .throw hm trivial

end

end Evaluation

end Session

end TreeWalk
