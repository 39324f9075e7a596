import TreeWalk.Proofs.Machine.Lies
import TreeWalk.Proofs.Machine.Operator
import TreeWalk.Proofs.Machine.Restoration

namespace TreeWalk

/-- The initializer of a class, if it has one, yields the object that it runs on. -/
def ClassInfo.Genuine (info : ClassInfo) : Prop :=
  ∀ c, info.initializer? = some c → c.isInitializer = true

/-- When so many objects have been made, an object is one of them. -/
def Value.Genuine (made : Nat) : Value → Prop
  | .scalar _ | .native _ | .function _ _ => True
  | .cls _ info => info.Genuine
  | .object o info => o < made ∧ info.Genuine
  | .completion v => v.Genuine made

def Flow.Genuine (made : Nat) : Flow → Prop
  | .next => True
  | .returned v => v.Genuine made

/-- All values of a machine are genuine. -/
structure Machine.Genuine (m : Machine) : Prop where
  bound : ∀ f name v, (m.frames.bindings f).get? name = some v → v.Genuine m.objects.size
  fields : ∀ object name v, (m.fields object).get? name = some v → v.Genuine m.objects.size

/-- What the functions of the host make of genuine values is genuine. -/
def Setup.Genuine (setup : Setup) : Prop :=
  ∀ n ∈ setup.natives, ∀ made (arguments : List Value), (arguments.length : Int) = n.arity →
    (∀ v ∈ arguments, v.Genuine made) → (n.apply arguments).Genuine made

theorem Value.Genuine.mono {v : Value} {k n : Nat} (h : v.Genuine k) (hn : k ≤ n) : v.Genuine n := by
  induction v with
  | scalar | native | function => trivial
  | cls => exact h
  | object o info => exact ⟨Nat.lt_of_lt_of_le h.1 hn, h.2⟩
  | completion v ih => exact ih h

theorem Exec.classOf_genuine (env : Env) (name : Token) (methods : List FunDecl) :
    (classOf env name methods).Genuine := by
  intro c hc
  obtain ⟨d, -, hd⟩ := List.mem_map.mp (Bindings.mem_of_get?_ofList hc)
  obtain ⟨hname, rfl⟩ := Prod.mk.inj hd
  exact decide_eq_true hname

theorem Machine.size_newObject (m : Machine) : m.newObject.objects.size = m.objects.size + 1 := by
  simp [newObject]

theorem Machine.size_setField (m : Machine) (object : Nat) (name : String) (value : Value) :
    (m.setField object name value).objects.size = m.objects.size := by
  simp [setField]

namespace Machine.Genuine

variable {m m' : Machine} {v : Value}

theorem congr (h : m.Genuine) (hf : m'.frames = m.frames) (ho : m'.objects = m.objects) :
    m'.Genuine := by
  refine ⟨fun f name v hv ↦ ?_, fun object name v hv ↦ ?_⟩
  · rw [hf] at hv
    rw [ho]
    exact h.bound f name v hv
  · rw [Machine.fields, ho] at hv
    rw [ho]
    exact h.fields object name v hv

theorem push {b : Bindings Value} (h : m.Genuine)
    (hb : ∀ name v, b.get? name = some v → v.Genuine m.objects.size) :
    Machine.Genuine { m with frames := m.frames.push b } := by
  refine ⟨fun f name v hv ↦ ?_, h.fields⟩
  rw [Frames.bindings_push] at hv
  split at hv
  · exact hb name v hv
  · exact h.bound f name v hv

theorem inside {env : Env} {b : Bindings Value} (h : m.Genuine)
    (hb : ∀ name v, b.get? name = some v → v.Genuine m.objects.size) : (m.inside env b).Genuine :=
  (h.push hb).congr rfl rfl

theorem called (h : m.Genuine) : m.called.Genuine := h.congr rfl rfl

theorem define {f : FrameId} {name : String} (h : m.Genuine) (hv : v.Genuine m.objects.size) :
    Machine.Genuine { m with frames := m.frames.define f name v } := by
  refine ⟨fun g k w hw ↦ ?_, h.fields⟩
  rw [Frames.bindings_define] at hw
  split at hw
  · rw [Bindings.get?_set] at hw
    split at hw
    · cases hw
      exact hv
    · exact h.bound g k w hw
  · exact h.bound g k w hw

theorem newObject (h : m.Genuine) : m.newObject.Genuine := by
  have hsize : m.objects.size ≤ m.newObject.objects.size := m.size_newObject ▸ Nat.le_succ _
  refine ⟨fun f name v hv ↦ (h.bound f name v hv).mono hsize, fun object name v hv ↦ ?_⟩
  rw [m.fields_newObject] at hv
  exact (h.fields object name v hv).mono hsize

theorem setField {object : Nat} {name : String} (h : m.Genuine) (hv : v.Genuine m.objects.size) :
    (m.setField object name v).Genuine := by
  have hsize := m.size_setField object name v
  refine ⟨fun f k w hw ↦ hsize ▸ h.bound f k w hw, fun i k w hw ↦ ?_⟩
  rw [hsize]
  rw [m.fields_setField] at hw
  split at hw
  · rw [Bindings.get?_set] at hw
    split at hw
    · cases hw
      exact hv
    · exact h.fields i k w hw
  · exact h.fields i k w hw

end Machine.Genuine

namespace Exec

variable {α β : Type} {n k : Nat} {act : Exec α} {f : α → Exec β} {Q : Nat → α → Prop}
  {R : Nat → β → Prop} {v : Value}

/-- From a genuine machine with at least so many objects the steps lead to another one. No object is gone, and
the result is as told if there is one. -/
def Makes (n : Nat) (Q : Nat → α → Prop) (act : Exec α) : Prop :=
  ∀ m : Machine, m.Genuine → n ≤ m.objects.size →
    (final (act m)).Genuine ∧ m.objects.size ≤ (final (act m)).objects.size ∧
      ∀ a m', act m = .ok a m' → Q m'.objects.size a

namespace Makes

theorem pure {a : α} (h : ∀ k, n ≤ k → Q k a) : Makes n Q (pure a) := fun m hm hn ↦
  ⟨hm, Nat.le_refl _, fun _ _ hok ↦ by cases hok; exact h _ hn⟩

theorem throw (i : Interrupt) : Makes n Q (throw i : Exec α) := fun m hm _ ↦
  ⟨hm, Nat.le_refl _, fun _ _ hok ↦ by cases hok⟩

theorem bind (h : Makes n Q act) (hf : ∀ a k, n ≤ k → Q k a → Makes k R (f a)) :
    Makes n R (act >>= f) := by
  intro m hm hn
  obtain ⟨hfinal, hsize, hok⟩ := h m hm hn
  show (final (EStateM.bind act f m)).Genuine ∧ _ ≤ (final (EStateM.bind act f m)).objects.size ∧
    ∀ b m', EStateM.bind act f m = .ok b m' → _
  unfold EStateM.bind
  cases hact : act m with
  | ok a m₁ =>
    rw [hact] at hfinal hsize
    obtain ⟨hend, hsize', hok'⟩ :=
      hf a m₁.objects.size (Nat.le_trans hn hsize) (hok a m₁ hact) m₁ hfinal (Nat.le_refl _)
    exact ⟨hend, Nat.le_trans hsize hsize', hok'⟩
  | error i m₁ =>
    rw [hact] at hfinal hsize
    exact ⟨hfinal, hsize, fun _ _ h ↦ by cases h⟩

theorem of_ok {m m' : Machine} {a : α} (h : Makes n Q act) (hm : m.Genuine) (hn : n ≤ m.objects.size)
    (hok : act m = .ok a m') :
    m'.Genuine ∧ m.objects.size ≤ m'.objects.size ∧ Q m'.objects.size a := by
  obtain ⟨hfinal, hsize, hq⟩ := h m hm hn
  rw [hok] at hfinal hsize
  exact ⟨hfinal, hsize, hq a m' hok⟩

theorem mono (h : Makes n Q act) (hn : n ≤ k) : Makes k Q act :=
  fun m hm hk ↦ h m hm (Nat.le_trans hn hk)

theorem get {f : Machine → Exec β} (h : ∀ m : Machine, m.Genuine → n ≤ m.objects.size →
    Makes m.objects.size R (f m)) : Makes n R (get >>= f) :=
  fun m hm hn ↦ h m hm hn m hm (Nat.le_refl _)

theorem within {env : Env} (h : Makes n Q act) : Makes n Q (within env act) := by
  intro m hm hn
  obtain ⟨hfinal, hsize, hok⟩ := h { m with env } (hm.congr rfl rfl) hn
  unfold Exec.within
  cases hact : act { m with env } with
  | ok a m₁ =>
    rw [hact] at hfinal hsize
    refine ⟨hfinal.congr rfl rfl, hsize, fun _ _ h ↦ ?_⟩
    cases h
    exact hok a m₁ hact
  | error i m₁ =>
    rw [hact] at hfinal hsize
    exact ⟨hfinal.congr rfl rfl, hsize, fun _ _ h ↦ by cases h⟩

theorem active {paren : Token} (h : Makes n Q act) : Makes n Q (active paren act) := by
  intro m hm hn
  obtain ⟨hfinal, hsize, hok⟩ := h { m with depth := m.depth + 1 } (hm.congr rfl rfl) hn
  unfold Exec.active
  cases hact : act { m with depth := m.depth + 1 } with
  | ok a m₁ =>
    rw [hact] at hfinal hsize
    refine ⟨hfinal.congr rfl rfl, hsize, fun _ _ h ↦ ?_⟩
    cases h
    exact hok a m₁ hact
  | error i m₁ =>
    rw [hact] at hfinal hsize
    cases i <;> exact ⟨hfinal.congr rfl rfl, hsize, fun _ _ h ↦ by cases h⟩

theorem discard (h : Makes n Q act) : Makes n (fun _ _ ↦ True) (discard act) :=
  h.bind fun _ _ _ _ ↦ .pure fun _ _ ↦ trivial

theorem ofExcept (x : Except RuntimeError α) (h : ∀ a, x = .ok a → ∀ k, n ≤ k → Q k a) :
    Makes n Q (ofExcept x) := by
  cases x with
  | ok a => exact .pure (h a rfl)
  | error e => exact .throw _

theorem ofFit (x : Except Misfit α) (h : ∀ a, x = .ok a → ∀ k, n ≤ k → Q k a) :
    Makes n Q (ofFit x) := by
  cases x with
  | ok a => exact .pure (h a rfl)
  | error e => exact .throw _

theorem mapM {γ : Type} {f : γ → Exec β} (as : List γ) (hR : ∀ k k' b, R k b → k ≤ k' → R k' b)
    (hf : ∀ n a, Makes n R (f a)) : Makes n (fun k bs ↦ ∀ b ∈ bs, R k b) (as.mapM f) := by
  induction as generalizing n with
  | nil => exact .pure fun _ _ _ h ↦ absurd h List.not_mem_nil
  | cons a as ih =>
    rw [List.mapM_cons]
    refine (hf n a).bind fun b k _ hb ↦ ih.bind fun bs k' hk hbs ↦ .pure fun k'' hk' c hc ↦ ?_
    rcases List.mem_cons.mp hc with rfl | hc
    · exact hR k k'' c hb (Nat.le_trans hk hk')
    · exact hR k' k'' c (hbs c hc) hk'

end Makes

section Primitives

theorem identity_makes : Makes n (fun _ _ ↦ True) identity := fun _ hm _ ↦
  ⟨hm.congr rfl rfl, Nat.le_refl _, fun _ _ _ ↦ trivial⟩

theorem print_makes (text : String) : Makes n (fun _ _ ↦ True) (print text) := fun _ hm _ ↦
  ⟨hm.congr rfl rfl, Nat.le_refl _, fun _ _ _ ↦ trivial⟩

theorem result_makes (hv : v.Genuine n) : Makes n Value.Genuine (result v) := by
  unfold result
  split
  · split
    · exact identity_makes.bind fun _ _ _ _ ↦ .pure fun _ _ ↦ trivial
    · exact .pure fun _ _ ↦ trivial
  · exact .pure fun _ hk ↦ hv.mono hk

theorem operation_makes {x : Except RuntimeError Value} (hx : ∀ v, x = .ok v → ∃ s, v = .scalar s) :
    Makes n Value.Genuine (do result (← ofExcept x)) := by
  refine Makes.bind (Q := Value.Genuine) (.ofExcept x fun v hv _ _ ↦ ?_) fun _ _ _ hv ↦ result_makes hv
  obtain ⟨s, rfl⟩ := hx v hv
  trivial

theorem newFrame_makes {b : Bindings Value} (hb : ∀ name v, b.get? name = some v → v.Genuine n) :
    Makes n (fun _ _ ↦ True) (newFrame b) := fun _ hm hn ↦
  ⟨hm.push fun name v hv ↦ (hb name v hv).mono hn, Nat.le_refl _, fun _ _ _ ↦ trivial⟩

theorem define_makes {name : String} (hv : v.Genuine n) :
    Makes n (fun _ _ ↦ True) (define name v) := fun _ hm hn ↦
  ⟨hm.define (hv.mono hn), Nat.le_refl _, fun _ _ _ ↦ trivial⟩

theorem newObject_makes : Makes n (fun k o ↦ o < k) newObject := fun m hm _ ↦
  ⟨hm.newObject, m.size_newObject ▸ Nat.le_succ _, fun o m' h ↦ by
    cases h
    exact m.size_newObject ▸ Nat.lt_succ_self _⟩

theorem setField_makes {object : Nat} {name : String} (hv : v.Genuine n) :
    Makes n (fun _ _ ↦ True) (setField object name v) := fun m hm hn ↦
  ⟨hm.setField (hv.mono hn), Nat.le_of_eq (m.size_setField object name v).symm, fun _ _ _ ↦ trivial⟩

theorem getAt_genuine {m : Machine} (hm : m.Genuine) (e : Env) (d : Nat) (name : String)
    (hv : m.frames.getAt e d name = .ok v) : v.Genuine m.objects.size := by
  unfold Frames.getAt at hv
  cases hf : e.frameAt d with
  | error i => simp [hf, Bind.bind, Except.bind] at hv
  | ok f =>
    simp only [hf, Bind.bind, Except.bind] at hv
    cases hget : (m.frames.bindings f).get? name with
    | none => simp [hget] at hv
    | some w =>
      rw [hget] at hv
      cases hv
      exact hm.bound f name v hget

theorem read_makes (name : Token) (hops : Option Nat) : Makes n Value.Genuine (read name hops) := by
  refine .get fun m hm _ ↦ ?_
  cases hops with
  | some d => exact .ofFit _ fun v hv k hk ↦ (getAt_genuine hm _ _ _ hv).mono hk
  | none =>
    dsimp only
    split
    · next w hw =>
      obtain ⟨f, -, hw⟩ := List.exists_of_findSome?_eq_some hw
      exact .pure fun k hk ↦ (hm.bound f _ w hw).mono hk
    · exact .throw _

theorem write_makes (name : Token) (hops : Option Nat) (hv : v.Genuine n) :
    Makes n (fun _ _ ↦ True) (write name hops v) := by
  intro m hm hn
  unfold write
  split
  · exact ⟨hm.define (hv.mono hn), Nat.le_refl _, fun _ _ _ ↦ trivial⟩
  · exact ⟨hm, Nat.le_refl _, fun _ _ _ ↦ trivial⟩

theorem bind_makes {c : Closure} {this : Value} (hthis : this.Genuine n) :
    Makes n (fun _ c' ↦ c'.isInitializer = c.isInitializer) (Exec.bind c this) := by
  refine (newFrame_makes fun name v hv ↦ ?_).bind fun _ _ _ _ ↦ .pure fun _ _ ↦ rfl
  rw [Bindings.get?_set] at hv
  split at hv
  · cases hv
    exact hthis
  · cases hv

theorem getProperty_makes (object : Value) (name : Token) (ho : object.Genuine n) :
    Makes n Value.Genuine (getProperty object name) := by
  unfold getProperty
  split
  · next id info =>
    have hfield : Makes n (fun k v ↦ ∀ w, v = some w → w.Genuine k) (field? id name.lexeme) := by
      refine .get fun m hm hn ↦ .pure fun k hk w hw ↦ ?_
      exact (hm.fields id _ w hw).mono hk
    refine hfield.bind fun field k hk hfield ↦ ?_
    split
    · exact .pure fun k' hk' ↦ (hfield _ rfl).mono hk'
    · split
      · exact (bind_makes (ho.mono hk)).bind fun _ _ _ _ ↦ identity_makes.bind
          fun _ _ _ _ ↦ .pure fun _ _ ↦ trivial
      · exact .throw _
  · exact .throw _

end Primitives

theorem repeatWhile_makes {test : Exec Value} {body : Exec Flow}
    (htest : ∀ n, Makes n Value.Genuine test) (hbody : ∀ n, Makes n Flow.Genuine body) (rounds : Nat) :
    Makes n Flow.Genuine (repeatWhile test body rounds) := by
  induction rounds generalizing n with
  | zero => exact .throw _
  | succ rounds ih =>
    refine (htest n).bind fun v k _ _ ↦ ?_
    split
    · refine (hbody k).bind fun flow k' _ hflow ↦ ?_
      cases flow with
      | next => exact ih
      | returned v => exact .pure fun _ hk ↦ Value.Genuine.mono (v := v) hflow hk
    · exact .pure fun _ _ ↦ trivial

section Bodies

variable {run : Stmt → Exec Flow} (hrun : ∀ n s, Makes n Flow.Genuine (run s)) {arguments : List Value}
include hrun

theorem sequence_makes (ss : List Stmt) : Makes n Flow.Genuine (sequence run ss) := by
  induction ss generalizing n with
  | nil => exact .pure fun _ _ ↦ trivial
  | cons s ss ih =>
    refine (hrun n s).bind fun flow k _ hflow ↦ ?_
    cases flow with
    | next => exact ih
    | returned v => exact .pure fun _ hk ↦ hflow.mono hk

theorem block_makes (body : List Stmt) : Makes n Flow.Genuine (block run body) :=
  (newFrame_makes (b := .empty) fun _ _ hv ↦ by cases hv).bind fun _ _ _ _ ↦
    .get fun _ _ _ ↦ .within (sequence_makes hrun body)

theorem enter_makes (c : Closure) (harguments : ∀ v ∈ arguments, v.Genuine n) :
    Makes n Value.Genuine (enter run c arguments) := by
  refine (newFrame_makes fun name v hv ↦ ?_).bind fun _ _ _ _ ↦
    (Makes.within (sequence_makes hrun _)).bind fun flow k _ hflow ↦ ?_
  · exact harguments v (List.of_mem_zip (Bindings.mem_of_get?_ofList hv)).2
  · split
    · exact .get fun m hm _ ↦ .ofFit _ fun v hv _ hk ↦ (getAt_genuine hm _ _ _ hv).mono hk
    · cases flow with
      | next => exact .pure fun _ _ ↦ trivial
      | returned v => exact .pure fun _ hk ↦ hflow.mono hk

theorem instantiate_makes {info : ClassInfo} (hinfo : info.Genuine)
    (harguments : ∀ v ∈ arguments, v.Genuine n) :
    Makes n Value.Genuine (instantiate run info arguments) := by
  refine newObject_makes.bind fun o k hk ho ↦ ?_
  have hobject : (Value.object o info).Genuine k := ⟨ho, hinfo⟩
  split
  · exact .pure fun _ hk' ↦ hobject.mono hk'
  · refine (bind_makes hobject).bind fun c k' hk' _ ↦ ?_
    refine (enter_makes hrun c fun v hv ↦ ?_).discard.bind fun _ k'' hk'' _ ↦
      .pure fun _ hk₃ ↦ hobject.mono ?_
    · exact (harguments v hv).mono (Nat.le_trans hk hk')
    · exact Nat.le_trans hk' (Nat.le_trans hk'' hk₃)

end Bodies

section Trees

variable {setup : Setup}

theorem call_makes (hsetup : setup.Genuine) {run : Callee → Stmt → Exec Flow} {paren : Token} {arguments : List Value}
    (hrun : ∀ c n s, Makes n Flow.Genuine (run c s)) (hv : v.Genuine n)
    (harguments : ∀ v ∈ arguments, v.Genuine n) :
    Makes n Value.Genuine (call setup run paren v arguments) := by
  unfold call
  split
  · exact .throw _
  · next callee hcallee =>
    split
    · exact .throw _
    · next harity =>
      refine .get fun m _ hn ↦ ?_
      split
      · exact .throw _
      · refine Makes.mono (.active ?_) hn
        cases v with
        | scalar | object | completion => cases hcallee
        | native i =>
          obtain ⟨native, hnative, rfl⟩ := Option.map_eq_some_iff.mp hcallee
          refine .pure fun k hk ↦ ?_
          exact hsetup native (List.mem_of_getElem? hnative) k arguments (not_not.mp harity)
            fun v hv ↦ (harguments v hv).mono hk
        | function _ c =>
          cases hcallee
          exact enter_makes (hrun _) c harguments
        | cls _ info =>
          cases hcallee
          exact instantiate_makes (hrun _) hv harguments

mutual

theorem eval_makes (hsetup : setup.Genuine) : ∀ room n e, Makes n Value.Genuine (eval setup room e)
  | 0, _, _ | 1, _, _ | 2, _, _ | 3, _, _ | 4, _, _ => by
    unfold eval
    exact .throw _
  | room + 5, n, e => by
    have hpart := eval_makes hsetup (room + 3)
    unfold eval
    cases e with
    | literal => exact .pure fun _ _ ↦ trivial
    | group e => exact hpart n e
    | unary operator e =>
      exact (hpart n e).bind fun v _ _ _ ↦ operation_makes fun _ h ↦ Operator.unary_scalar h
    | binary l operator r =>
      exact (hpart n l).bind fun _ k _ _ ↦ (hpart k r).bind fun _ _ _ _ ↦
        operation_makes fun _ h ↦ Operator.binary_scalar h
    | logical l operator r =>
      refine (hpart n l).bind fun v k _ _ ↦ ?_
      dsimp only
      split
      · exact .pure fun _ _ ↦ trivial
      · exact (hpart k r).bind fun _ _ _ _ ↦ .pure fun _ _ ↦ trivial
    | var name ref => exact read_makes name _
    | assign name e ref =>
      exact (hpart n e).bind fun v k _ hv ↦ (write_makes name _ hv).bind
        fun _ _ hk _ ↦ .pure fun _ hk' ↦ hv.mono (Nat.le_trans hk hk')
    | call e paren es =>
      refine (hpart n e).bind fun f k hk hf ↦ ?_
      refine (Makes.mapM es (fun _ _ _ hv hk ↦ hv.mono hk) (eval_makes hsetup (room + 2))).bind
        fun vs k' hk' hvs ↦ ?_
      refine call_makes hsetup (fun c n s ↦ ?_) (hf.mono hk') hvs
      cases c with
      | cls => exact exec_makes hsetup room n s
      | native | function => exact exec_makes hsetup (room + 1) n s
    | get e name => exact (hpart n e).bind fun o _ _ ho ↦ getProperty_makes o name ho
    | set e name i =>
      have hwritable (o : Value) (k : Nat) : Makes k (fun _ _ ↦ True) (writable o name) := by
        unfold writable
        split
        · exact .pure fun _ _ ↦ trivial
        · exact .throw _
      exact (hpart n e).bind fun o k _ _ ↦ (hwritable o k).bind fun _ k _ _ ↦
        (hpart k i).bind fun v k _ hv ↦ (setField_makes hv).bind
          fun _ _ hk _ ↦ .pure fun _ hk' ↦ hv.mono (Nat.le_trans hk hk')
    | self keyword ref => exact read_makes keyword _
    | ofStmt s =>
      have hstmt : Makes n Value.Genuine (do return (← exec setup (room + 4) s).toValue) :=
        (exec_makes hsetup (room + 4) n s).bind fun flow k _ hflow ↦ .pure fun k' hk ↦ by
          cases flow with
          | next => trivial
          | returned v => exact Value.Genuine.mono (v := v) hflow hk
      cases s with
      | ofExpr e => exact eval_makes hsetup (room + 4) n e
      | branch condition yes no =>
        refine (hpart n condition).bind fun v k _ _ ↦ ?_
        split
        · exact hpart k _
        · cases no with
          | none => exact .pure fun _ _ ↦ trivial
          | some no => exact hpart k _
      | _ => exact hstmt

theorem exec_makes (hsetup : setup.Genuine) : ∀ room n s, Makes n Flow.Genuine (exec setup room s)
  | 0, _, _ | 1, _, _ | 2, _, _ => by
    unfold exec
    exact .throw _
  | room + 3, n, s => by
    have hexpr := eval_makes hsetup (room + 1)
    have hstmt := exec_makes hsetup (room + 1)
    have hnext {k : Nat} : Makes k Flow.Genuine (pure .next) := .pure fun _ _ ↦ trivial
    unfold exec
    cases s with
    | empty => exact hnext
    | expression e => exact (hexpr n e).discard.bind fun _ _ _ _ ↦ hnext
    | print e => exact (hexpr n e).bind fun v _ _ _ ↦ (print_makes v.text).bind fun _ _ _ _ ↦ hnext
    | var name initializer =>
      cases initializer with
      | none => exact (define_makes (v := .nil) trivial).bind fun _ _ _ _ ↦ hnext
      | some e => exact (hexpr n e).bind fun v _ _ hv ↦ (define_makes hv).bind fun _ _ _ _ ↦ hnext
    | block body => exact block_makes (exec_makes hsetup room) body
    | branch condition yes no =>
      refine (hexpr n condition).bind fun v k _ _ ↦ ?_
      split
      · exact hstmt k yes
      · cases no with
        | none => exact hnext
        | some no => exact hstmt k no
    | loop condition body => exact repeatWhile_makes (hexpr · condition) (hstmt · body) _
    | function d =>
      exact .get fun m _ _ ↦ identity_makes.bind fun i _ _ _ ↦
        (define_makes (v := .function i ⟨d, m.env, false⟩) trivial).bind fun _ _ _ _ ↦ hnext
    | returns keyword value =>
      cases value with
      | none => exact .pure fun _ _ ↦ trivial
      | some e => exact (hexpr n e).bind fun _ _ _ hv ↦ .pure fun _ hk ↦ hv.mono hk
    | cls name methods =>
      exact .get fun m _ _ ↦ identity_makes.bind fun i _ _ _ ↦
        (define_makes (v := .cls i _) (classOf_genuine m.env name methods)).bind fun _ _ _ _ ↦ hnext
    | ofExpr e =>
      refine (eval_makes hsetup (room + 2) n e).bind fun v k _ hv ↦ .pure fun k' hk ↦ ?_
      cases v with
      | completion v => exact Value.Genuine.mono (v := v) hv hk
      | scalar | native | function | cls | object => trivial
    | unknown kind => exact .throw _

end

end Trees

end Exec

namespace Moment

open Exec

variable {setup : Setup} {μ μ' : Moment}

def Genuine : Moment → Prop
  | ⟨.expr _ _, m⟩ | ⟨.stmt _ _, m⟩ => m.Genuine
  | ⟨.enter _ _ arguments, m⟩ => m.Genuine ∧ ∀ v ∈ arguments, v.Genuine m.objects.size
  | ⟨.bind _ this, m⟩ => m.Genuine ∧ this.Genuine m.objects.size

theorem Genuine.machine (h : μ.Genuine) : μ.machine.Genuine := by
  obtain ⟨event, m⟩ := μ
  cases event with
  | expr | stmt => exact h
  | enter | bind => exact h.1

section

variable (hsetup : setup.Genuine)
include hsetup

theorem arguments_genuine {room : Nat} {e : Expr} {es : List Expr} {m m₁ m₂ : Machine} {f : Value}
    {vs : List Value} (hm : m.Genuine) (hf : eval setup (room + 3) e m = .ok f m₁)
    (hes : es.mapM (eval setup (room + 2)) m₁ = .ok vs m₂) :
    m₂.Genuine ∧ f.Genuine m₂.objects.size ∧ ∀ v ∈ vs, v.Genuine m₂.objects.size := by
  obtain ⟨hm₁, -, hf⟩ := (eval_makes hsetup (room + 3) 0 e).of_ok hm (Nat.zero_le _) hf
  obtain ⟨hm₂, hsize, hvs⟩ := (Makes.mapM es (fun _ _ _ hv hk ↦ hv.mono hk)
    (eval_makes hsetup (room + 2))).of_ok hm₁ (Nat.zero_le _) hes
  exact ⟨hm₂, hf.mono hsize, hvs⟩

omit hsetup in
theorem newObject_genuine {m : Machine} {info : ClassInfo} (hinfo : info.Genuine) :
    (Value.object m.objects.size info).Genuine m.called.newObject.objects.size :=
  ⟨m.called.size_newObject ▸ Nat.lt_succ_self _, hinfo⟩

theorem Rounds.genuine {room n : Nat} {e : Expr} {body : Stmt} {m m' : Machine} (hm : m.Genuine)
    (h : Rounds (eval setup room e) (exec setup room body) n m m') : m'.Genuine := by
  induction h with
  | none => exact hm
  | more _ htest _ hbody ih =>
    have hm₂ := ((eval_makes hsetup room 0 e).of_ok (ih hm) (Nat.zero_le _) htest).1
    exact ((exec_makes hsetup room 0 body).of_ok hm₂ (Nat.zero_le _) hbody).1

theorem Leads.genuine (h : Leads setup μ μ') (hμ : μ.Genuine) : μ'.Genuine := by
  have heval {room : Nat} {e : Expr} {m m' : Machine} {v : Value} (hm : m.Genuine)
      (he : eval setup room e m = .ok v m') : m'.Genuine ∧ v.Genuine m'.objects.size :=
    have h := (eval_makes hsetup room 0 e).of_ok hm (Nat.zero_le _) he
    ⟨h.1, h.2.2⟩
  have hsequence {room : Nat} {ss : List Stmt} {m m' : Machine} {flow : Flow} (hm : m.Genuine)
      (hss : sequence (exec setup room) ss m = .ok flow m') : m'.Genuine :=
    ((sequence_makes (exec_makes hsetup room) (n := 0) ss).of_ok hm (Nat.zero_le _) hss).1
  cases h with
  | group | unary | binaryLeft | logicalLeft | assigned | callee | object | owner | expression
  | printed | initializer | condition | returned => exact hμ
  | binaryRight he | logicalRight he | field he | yes he | no he => exact (heval hμ he).1
  | argument hf hes => exact (arguments_genuine hsetup hμ hf hes).1
  | enter hf hes =>
    obtain ⟨hm, -, hvs⟩ := arguments_genuine hsetup hμ hf hes
    exact ⟨hm.congr rfl rfl, hvs⟩
  | bindInitializer hf hes =>
    obtain ⟨hm, hinfo, -⟩ := arguments_genuine hsetup hμ hf hes
    exact ⟨hm.called.newObject, newObject_genuine hinfo⟩
  | @enterInitializer _ _ _ _ _ _ m' _ _ info _ _ _ hf hes _ _ _ hbind =>
    obtain ⟨hm, hinfo, hvs⟩ := arguments_genuine hsetup hμ hf hes
    obtain ⟨hm₂, hsize, -⟩ :=
      (bind_makes (newObject_genuine hinfo)).of_ok hm.called.newObject (Nat.le_refl _) hbind
    have hobject : m'.objects.size < m'.called.newObject.objects.size := (newObject_genuine hinfo).1
    exact ⟨hm₂, fun v hv ↦ (hvs v hv).mono (Nat.le_trans (Nat.le_of_lt hobject) hsize)⟩
  | bindMethod ho =>
    exact heval hμ ho
  | item hss => exact hsequence (hμ.inside (b := .empty) fun _ _ hv ↦ by cases hv) hss
  | test hr => exact hr.genuine hsetup hμ
  | round hr _ he => exact (heval (hr.genuine hsetup hμ) he).1
  | statement hbody hss =>
    refine hsequence (hμ.1.inside fun name v hv ↦ ?_) hss
    exact hμ.2 v (List.of_mem_zip (Bindings.mem_of_get?_ofList hv)).2

end

end Moment

end TreeWalk
