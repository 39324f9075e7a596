import TreeWalk.Machine.Eval

namespace TreeWalk

/-- The same setup with another limit for active calls. -/
def Setup.allowing (setup : Setup) (calls : Int) : Setup := { setup with maxDepth := calls }

namespace Exec

variable {α β : Type}

/-- The machine at an end. -/
def final : EStateM.Result Interrupt Machine α → Machine
  | .ok _ m | .error _ m => m

def comeBack (env : Env) : EStateM.Result Interrupt Machine α → EStateM.Result Interrupt Machine α
  | .ok a m => .ok a { m with env }
  | .error i m => .error i { m with env }

def endCall (paren : Token) : EStateM.Result Interrupt Machine α → EStateM.Result Interrupt Machine α
  | .ok a m => .ok a { m with depth := m.depth - 1 }
  | .error .tooDeep m => .error (.error ⟨.stackOverflow, paren⟩) { m with depth := m.depth - 1 }
  | .error i m => .error i { m with depth := m.depth - 1 }

def endStatement (s : Stmt) :
    EStateM.Result Interrupt Machine Flow → EStateM.Result Interrupt Machine Unit
  | .ok _ m => .ok () m
  | .error .tooDeep m => .error (.error ⟨.stackOverflow, s.anchor.getD ⟨.eof, "", .nil, 1⟩⟩) m
  | .error i m => .error i m

/-- How steps end under a lower limit, and how under a higher one. -/
inductive Cut : EStateM.Result Interrupt Machine α → EStateM.Result Interrupt Machine α → Prop
  | same (x : EStateM.Result Interrupt Machine α) : Cut x x
  | short {e : RuntimeError} {m : Machine} {x : EStateM.Result Interrupt Machine α} :
      e.cause = .stackOverflow → m.printed.toList <+: (final x).printed.toList →
      Cut (.error (.error e) m) x

/-- Steps under a lower limit, and the same steps under a higher one. -/
structure Truncates (act act' : Exec α) : Prop where
  cut : ∀ m, Cut (act m) (act' m)
  extends_printed : ∀ m, m.printed.toList <+: (final (act' m)).printed.toList

namespace Truncates

variable {act act' : Exec α} {f f' : α → Exec β}

theorem of_printed (h : ∀ m, m.printed.toList <+: (final (act m)).printed.toList) :
    Truncates act act :=
  ⟨fun m ↦ .same (act m), h⟩

theorem pure (a : α) : Truncates (pure a) (pure a) := of_printed fun _ ↦ List.prefix_rfl

theorem throw (i : Interrupt) : Truncates (throw i : Exec α) (throw i) := of_printed fun _ ↦ List.prefix_rfl

theorem get : Truncates (get : Exec Machine) get := of_printed fun _ ↦ List.prefix_rfl

theorem bind (h : Truncates act act') (hf : ∀ a, Truncates (f a) (f' a)) :
    Truncates (act >>= f) (act' >>= f') := by
  have hcont (m : Machine) :
      (final (act' m)).printed.toList <+: (final (EStateM.bind act' f' m)).printed.toList := by
    unfold EStateM.bind
    cases act' m with
    | ok a m₁ => exact (hf a).extends_printed m₁
    | error i m₁ => exact List.prefix_rfl
  refine ⟨fun m ↦ ?_, fun m ↦ (h.extends_printed m).trans (hcont m)⟩
  show Cut (EStateM.bind act f m) (EStateM.bind act' f' m)
  have hact := h.cut m
  have hprinted := hcont m
  unfold EStateM.bind at hprinted ⊢
  generalize act m = x at hact ⊢
  generalize act' m = x' at hact hprinted ⊢
  cases hact with
  | same =>
    cases x with
    | ok a m₁ => exact (hf a).cut m₁
    | error i m₁ => exact .same _
  | short he hm => exact .short he (hm.trans hprinted)

theorem discard (h : Truncates act act') : Truncates (discard act) (discard act') :=
  h.bind fun _ ↦ pure ()

theorem mapM (hf : ∀ a, Truncates (f a) (f' a)) (as : List α) :
    Truncates (as.mapM f) (as.mapM f') := by
  induction as with
  | nil => exact pure []
  | cons a as ih =>
    rw [List.mapM_cons, List.mapM_cons]
    exact (hf a).bind fun _ ↦ ih.bind fun _ ↦ pure _

theorem forM {f f' : α → Exec Unit} (hf : ∀ a, Truncates (f a) (f' a)) (as : List α) :
    Truncates (as.forM f) (as.forM f') := by
  induction as with
  | nil => exact pure ()
  | cons a as ih => exact (hf a).bind fun _ ↦ ih

/-- What is done before and after the steps has no bearing on it, unless it changes what is printed or how a
stack overflow ends. -/
theorem wrapped (enter : Machine → Machine)
    (leave : Machine → EStateM.Result Interrupt Machine α → EStateM.Result Interrupt Machine β)
    (h : Truncates act act') (henter : ∀ m, (enter m).printed = m.printed)
    (hleave : ∀ m x, (final (leave m x)).printed = (final x).printed)
    (herror : ∀ m e m₁, ∃ m₂, leave m (.error (.error e) m₁) = .error (.error e) m₂) :
    Truncates (fun m ↦ leave m (act (enter m))) (fun m ↦ leave m (act' (enter m))) := by
  refine ⟨fun m ↦ ?_, fun m ↦ ?_⟩
  · have hact := h.cut (enter m)
    generalize act (enter m) = x at hact ⊢
    generalize act' (enter m) = x' at hact ⊢
    cases hact with
    | same => exact .same _
    | @short e m₁ _ he hm =>
      have hprinted := hleave m (.error (.error e) m₁)
      obtain ⟨m₂, hm₂⟩ := herror m e m₁
      rw [hm₂] at hprinted ⊢
      refine .short he ?_
      rw [hleave]
      exact hprinted ▸ hm
  · have hact := h.extends_printed (enter m)
    rwa [henter, ← hleave m] at hact

theorem within (env : Env) (h : Truncates act act') :
    Truncates (within env act) (within env act') := by
  refine h.wrapped (fun m ↦ { m with env }) (fun m ↦ comeBack m.env) (fun _ ↦ rfl) (fun m x ↦ ?_)
    fun m e m₁ ↦ ⟨_, rfl⟩
  cases x <;> rfl

theorem active (paren : Token) (h : Truncates act act') :
    Truncates (active paren act) (active paren act') := by
  refine h.wrapped (fun m ↦ { m with depth := m.depth + 1 }) (fun _ ↦ endCall paren) (fun _ ↦ rfl)
    (fun _ x ↦ ?_) fun m e m₁ ↦ ⟨_, rfl⟩
  cases x with
  | ok => rfl
  | error i => cases i <;> rfl

end Truncates

section Steps

theorem fail_truncates (cause : RuntimeError.Cause) (token : Token) :
    Truncates (fail cause token : Exec α) (fail cause token) :=
  .throw _

theorem ofExcept_truncates (x : Except RuntimeError α) : Truncates (ofExcept x) (ofExcept x) := by
  cases x with
  | ok a => exact .pure a
  | error e => exact .throw _

theorem ofFit_truncates (x : Except Misfit α) : Truncates (ofFit x) (ofFit x) := by
  cases x with
  | ok a => exact .pure a
  | error misfit => exact .throw _

theorem print_truncates (text : String) : Truncates (print text) (print text) := by
  refine .of_printed fun m ↦ ?_
  show m.printed.toList <+: (m.printed.push text).toList
  rw [Array.toList_push]
  exact List.prefix_append _ _

theorem define_truncates (name : String) (value : Value) :
    Truncates (define name value) (define name value) :=
  .of_printed fun _ ↦ List.prefix_rfl

theorem newFrame_truncates (b : Bindings Value) : Truncates (newFrame b) (newFrame b) :=
  .of_printed fun _ ↦ List.prefix_rfl

theorem identity_truncates : Truncates identity identity := .of_printed fun _ ↦ List.prefix_rfl

theorem newObject_truncates : Truncates newObject newObject := .of_printed fun _ ↦ List.prefix_rfl

theorem setField_truncates (object : Nat) (name : String) (value : Value) :
    Truncates (setField object name value) (setField object name value) :=
  .of_printed fun _ ↦ List.prefix_rfl

theorem field?_truncates (object : Nat) (name : String) :
    Truncates (field? object name) (field? object name) :=
  Truncates.get.bind fun _ ↦ .pure _

theorem result_truncates (v : Value) : Truncates (result v) (result v) := by
  unfold result
  split
  · split
    · exact identity_truncates.bind fun _ ↦ .pure _
    · exact .pure _
  · exact .pure _

theorem read_truncates (name : Token) (hops : Option Nat) :
    Truncates (read name hops) (read name hops) := by
  refine Truncates.get.bind fun m ↦ ?_
  cases hops with
  | none =>
    dsimp only
    split
    · exact .pure _
    · exact fail_truncates _ _
  | some d => exact ofFit_truncates _

theorem write_truncates (name : Token) (hops : Option Nat) (value : Value) :
    Truncates (write name hops value) (write name hops value) := by
  refine .of_printed fun m ↦ ?_
  unfold write
  split <;> exact List.prefix_rfl

theorem writable_truncates (object : Value) (name : Token) :
    Truncates (writable object name) (writable object name) := by
  unfold writable
  split
  · exact .pure _
  · exact fail_truncates _ _

theorem bind_truncates (c : Closure) (this : Value) : Truncates (bind c this) (bind c this) :=
  (newFrame_truncates _).bind fun _ ↦ .pure _

theorem getProperty_truncates (object : Value) (name : Token) :
    Truncates (getProperty object name) (getProperty object name) := by
  unfold getProperty
  split
  · refine (field?_truncates _ _).bind fun v ↦ ?_
    split
    · exact .pure _
    · split
      · exact (bind_truncates _ _).bind fun _ ↦ identity_truncates.bind fun _ ↦ .pure _
      · exact fail_truncates _ _
  · exact fail_truncates _ _

end Steps

section Parts

theorem repeatWhile_truncates {test test' : Exec Value} {body body' : Exec Flow}
    (htest : Truncates test test') (hbody : Truncates body body') (rounds : Nat) :
    Truncates (repeatWhile test body rounds) (repeatWhile test' body' rounds) := by
  induction rounds with
  | zero => exact .throw _
  | succ rounds ih =>
    refine htest.bind fun v ↦ ?_
    split
    · refine hbody.bind fun flow ↦ ?_
      cases flow with
      | next => exact ih
      | returned v => exact .pure _
    · exact .pure _

variable {run run' : Stmt → Exec Flow} (hrun : ∀ s, Truncates (run s) (run' s))
include hrun

theorem sequence_truncates (ss : List Stmt) : Truncates (sequence run ss) (sequence run' ss) := by
  induction ss with
  | nil => exact .pure _
  | cons s ss ih =>
    refine (hrun s).bind fun flow ↦ ?_
    cases flow with
    | next => exact ih
    | returned v => exact .pure _

theorem block_truncates (body : List Stmt) : Truncates (block run body) (block run' body) :=
  (newFrame_truncates _).bind fun _ ↦ Truncates.get.bind fun _ ↦
    .within _ (sequence_truncates hrun body)

theorem enter_truncates (c : Closure) (arguments : List Value) :
    Truncates (enter run c arguments) (enter run' c arguments) := by
  refine (newFrame_truncates _).bind fun frame ↦
    (Truncates.within _ (sequence_truncates hrun _)).bind fun flow ↦ ?_
  split
  · exact Truncates.get.bind fun m ↦ ofFit_truncates _
  · cases flow with
    | next => exact .pure _
    | returned v => exact .pure _

theorem instantiate_truncates (info : ClassInfo) (arguments : List Value) :
    Truncates (instantiate run info arguments) (instantiate run' info arguments) := by
  refine newObject_truncates.bind fun object ↦ ?_
  dsimp only
  split
  · exact .pure _
  · exact (bind_truncates _ _).bind fun c ↦
      (enter_truncates hrun c arguments).discard.bind fun _ ↦ .pure _

theorem apply_truncates (arguments : List Value) (c : Callee) :
    Truncates (c.apply run arguments) (c.apply run' arguments) := by
  cases c with
  | native n => exact .pure _
  | function c => exact enter_truncates hrun c arguments
  | cls info => exact instantiate_truncates hrun info arguments

end Parts

section Trees

variable {setup : Setup} {lower higher : Int}

/-- Only here the limit matters. Where the lower one is reached, the call overflows before it prints. -/
theorem call_truncates (hle : lower ≤ higher) {run run' : Callee → Stmt → Exec Flow}
    (hrun : ∀ c s, Truncates (run c s) (run' c s)) (paren : Token) (value : Value)
    (arguments : List Value) :
    Truncates (call (setup.allowing lower) run paren value arguments)
      (call (setup.allowing higher) run' paren value arguments) := by
  have hcallee : callee? (setup.allowing higher) value = callee? (setup.allowing lower) value := rfl
  unfold call
  rw [hcallee]
  split
  · exact fail_truncates _ _
  · next callee _ =>
    have happly : Truncates (active paren (callee.apply (run callee) arguments))
        (active paren (callee.apply (run' callee) arguments)) :=
      .active paren (apply_truncates (hrun callee) arguments callee)
    split
    · exact fail_truncates _ _
    · refine ⟨fun m ↦ ?_, fun m ↦ ?_⟩
      · show Cut ((if lower ≤ m.depth then _ else _ : Exec Value) m)
          ((if higher ≤ m.depth then _ else _ : Exec Value) m)
        by_cases hlow : lower ≤ m.depth
        · rw [if_pos hlow]
          refine .short rfl ?_
          split
          · exact List.prefix_rfl
          · exact happly.extends_printed m
        · rw [if_neg hlow, if_neg (by omega)]
          exact happly.cut m
      · show m.printed.toList <+:
          (final ((if higher ≤ m.depth then _ else _ : Exec Value) m)).printed.toList
        split
        · exact List.prefix_rfl
        · exact happly.extends_printed m

mutual

theorem eval_truncates (hle : lower ≤ higher) : ∀ room e,
    Truncates (eval (setup.allowing lower) room e) (eval (setup.allowing higher) room e)
  | 0, _ | 1, _ | 2, _ | 3, _ | 4, _ => by
    unfold eval
    exact .throw _
  | room + 5, e => by
    have hpart := eval_truncates hle (room + 3)
    unfold eval
    cases e with
    | literal => exact .pure _
    | group e => exact hpart e
    | unary operator e =>
      exact (hpart e).bind fun _ ↦ (ofExcept_truncates _).bind fun _ ↦ result_truncates _
    | binary l operator r =>
      exact (hpart l).bind fun _ ↦ (hpart r).bind fun _ ↦ (ofExcept_truncates _).bind
        fun _ ↦ result_truncates _
    | logical l operator r =>
      refine (hpart l).bind fun v ↦ ?_
      dsimp only
      split
      · exact .pure _
      · exact (hpart r).bind fun _ ↦ .pure _
    | var name ref => exact read_truncates name _
    | assign name e ref =>
      exact (hpart e).bind fun v ↦ (write_truncates name _ v).bind fun _ ↦ .pure v
    | call callee paren arguments =>
      refine (hpart callee).bind fun f ↦
        (Truncates.mapM (eval_truncates hle (room + 2)) arguments).bind fun vs ↦
        call_truncates hle (fun c ↦ ?_) paren f vs
      cases c with
      | cls => exact exec_truncates hle room
      | native | function => exact exec_truncates hle (room + 1)
    | get e name => exact (hpart e).bind fun o ↦ getProperty_truncates o name
    | set e name i =>
      exact (hpart e).bind fun o ↦ (writable_truncates o name).bind fun id ↦ (hpart i).bind
        fun v ↦ (setField_truncates id _ v).bind fun _ ↦ .pure v
    | self keyword ref => exact read_truncates keyword _
    | ofStmt s =>
      have hstmt : Truncates (do return (← exec (setup.allowing lower) (room + 4) s).toValue)
          (do return (← exec (setup.allowing higher) (room + 4) s).toValue) :=
        (exec_truncates hle (room + 4) s).bind fun _ ↦ .pure _
      cases s with
      | ofExpr e => exact eval_truncates hle (room + 4) e
      | branch condition yes no =>
        refine (hpart condition).bind fun v ↦ ?_
        split
        · exact hpart _
        · cases no with
          | none => exact .pure _
          | some no => exact hpart _
      | _ => exact hstmt

theorem exec_truncates (hle : lower ≤ higher) : ∀ room s,
    Truncates (exec (setup.allowing lower) room s) (exec (setup.allowing higher) room s)
  | 0, _ | 1, _ | 2, _ => by
    unfold exec
    exact .throw _
  | room + 3, s => by
    have hexpr := eval_truncates hle (room + 1)
    have hstmt := exec_truncates hle (room + 1)
    unfold exec
    cases s with
    | empty => exact .pure _
    | expression e => exact (hexpr e).discard.bind fun _ ↦ .pure _
    | print e => exact (hexpr e).bind fun v ↦ (print_truncates v.text).bind fun _ ↦ .pure _
    | var name initializer =>
      cases initializer with
      | none => exact (define_truncates _ _).bind fun _ ↦ .pure _
      | some e => exact (hexpr e).bind fun v ↦ (define_truncates _ v).bind fun _ ↦ .pure _
    | block body => exact block_truncates (exec_truncates hle room) body
    | branch condition yes no =>
      refine (hexpr condition).bind fun v ↦ ?_
      split
      · exact hstmt yes
      · cases no with
        | none => exact .pure _
        | some no => exact hstmt no
    | loop condition body => exact repeatWhile_truncates (hexpr condition) (hstmt body) _
    | function d =>
      exact Truncates.get.bind fun _ ↦ identity_truncates.bind fun _ ↦
        (define_truncates _ _).bind fun _ ↦ .pure _
    | returns keyword value =>
      cases value with
      | none => exact .pure _
      | some e => exact (hexpr e).bind fun _ ↦ .pure _
    | cls name methods =>
      exact Truncates.get.bind fun _ ↦ identity_truncates.bind fun _ ↦
        (define_truncates _ _).bind fun _ ↦ .pure _
    | ofExpr e => exact (eval_truncates hle (room + 2) e).bind fun _ ↦ .pure _
    | unknown kind => exact .throw _

end

theorem topLevel_truncates (hle : lower ≤ higher) (s : Stmt) :
    Truncates (topLevel (setup.allowing lower) s) (topLevel (setup.allowing higher) s) := by
  refine (exec_truncates hle setup.limits.nesting s).wrapped id (fun _ ↦ endStatement s) (fun _ ↦ rfl)
    (fun _ x ↦ ?_) fun m e m₁ ↦ ⟨_, rfl⟩
  cases x with
  | ok => rfl
  | error i => cases i <;> rfl

theorem forM_truncates (setup : Setup) (hle : lower ≤ higher) (ss : List Stmt) :
    Truncates (ss.forM (topLevel (setup.allowing lower)))
      (ss.forM (topLevel (setup.allowing higher))) :=
  .forM (topLevel_truncates hle) ss

end Trees

end Exec

end TreeWalk
