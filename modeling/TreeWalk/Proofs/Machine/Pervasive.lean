import TreeWalk.Machine.Eval

namespace TreeWalk

namespace Exec

/-- A property of steps that those have which write no names, and that steps put together inherit from their
parts. -/
structure Inherits (P : ∀ {α : Type}, Exec α → Prop) : Prop where
  pure {α : Type} (a : α) : P (pure a : Exec α)
  throw {α : Type} (i : Interrupt) : P (throw i : Exec α)
  bind {α β : Type} {act : Exec α} {f : α → Exec β} : P act → (∀ a, P (f a)) → P (act >>= f)
  get : P (get : Exec Machine)
  print (text : String) : P (print text)
  newFrame (b : Bindings Value) : P (newFrame b)
  identity : P identity
  newObject : P newObject
  setField (object : Nat) (name : String) (value : Value) : P (setField object name value)
  within {α : Type} {act : Exec α} (env : Env) : P act → P (within env act)
  active {α : Type} {act : Exec α} (paren : Token) : P act → P (active paren act)

structure Pervades (P : ∀ {α : Type}, Exec α → Prop) : Prop extends Inherits P where
  define (name : String) (value : Value) : P (define name value)
  write (name : Token) (hops : Option Nat) (value : Value) : P (write name hops value)

variable {P : ∀ {α : Type}, Exec α → Prop} {α β : Type}

namespace Inherits

variable (h : Inherits P)
include h

theorem discard {act : Exec α} (hact : P act) : P (discard act) := h.bind hact fun _ ↦ h.pure ()

theorem mapM {f : α → Exec β} (hf : ∀ a, P (f a)) (as : List α) : P (as.mapM f) := by
  induction as with
  | nil => exact h.pure []
  | cons a as ih =>
    rw [List.mapM_cons]
    exact h.bind (hf a) fun _ ↦ h.bind ih fun _ ↦ h.pure _

theorem forM {f : α → Exec Unit} (hf : ∀ a, P (f a)) (as : List α) : P (as.forM f) := by
  induction as with
  | nil => exact h.pure ()
  | cons a as ih => exact h.bind (hf a) fun _ ↦ ih

theorem fail (cause : RuntimeError.Cause) (token : Token) : P (fail cause token : Exec α) := h.throw _

theorem ofExcept (x : Except RuntimeError α) : P (ofExcept x) := by
  cases x with
  | ok a => exact h.pure a
  | error e => exact h.throw _

theorem ofFit (x : Except Misfit α) : P (ofFit x) := by
  cases x with
  | ok a => exact h.pure a
  | error misfit => exact h.throw _

theorem result (v : Value) : P (result v) := by
  unfold Exec.result
  split
  · split
    · exact h.bind h.identity fun _ ↦ h.pure _
    · exact h.pure _
  · exact h.pure _

theorem read (name : Token) (hops : Option Nat) : P (read name hops) := by
  refine h.bind h.get fun m ↦ ?_
  cases hops with
  | some d => exact h.ofFit _
  | none =>
    dsimp only
    split
    · exact h.pure _
    · exact h.fail _ _

theorem writable (object : Value) (name : Token) : P (writable object name) := by
  unfold Exec.writable
  split
  · exact h.pure _
  · exact h.fail _ _

theorem bindMethod (c : Closure) (this : Value) : P (Exec.bind c this) :=
  h.bind (h.newFrame _) fun _ ↦ h.pure _

theorem getProperty (object : Value) (name : Token) : P (getProperty object name) := by
  unfold Exec.getProperty
  split
  · refine h.bind (h.bind h.get fun _ ↦ h.pure _) fun field ↦ ?_
    split
    · exact h.pure _
    · split
      · exact h.bind (h.bindMethod _ _) fun _ ↦ h.bind h.identity fun _ ↦ h.pure _
      · exact h.fail _ _
  · exact h.fail _ _

theorem repeatWhile {test : Exec Value} {body : Exec Flow} (htest : P test) (hbody : P body)
    (rounds : Nat) : P (repeatWhile test body rounds) := by
  induction rounds with
  | zero => exact h.throw _
  | succ rounds ih =>
    refine h.bind htest fun v ↦ ?_
    split
    · refine h.bind hbody fun flow ↦ ?_
      cases flow with
      | next => exact ih
      | returned v => exact h.pure _
    · exact h.pure _

section Run

variable {run : Stmt → Exec Flow} (hrun : ∀ s, P (run s))
include hrun

theorem sequence (ss : List Stmt) : P (sequence run ss) := by
  induction ss with
  | nil => exact h.pure _
  | cons s ss ih =>
    refine h.bind (hrun s) fun flow ↦ ?_
    cases flow with
    | next => exact ih
    | returned v => exact h.pure _

theorem block (body : List Stmt) : P (block run body) :=
  h.bind (h.newFrame _) fun _ ↦ h.bind h.get fun _ ↦ h.within _ (h.sequence hrun body)

theorem enter (c : Closure) (arguments : List Value) : P (enter run c arguments) := by
  refine h.bind (h.newFrame _) fun _ ↦ h.bind (h.within _ (h.sequence hrun _)) fun flow ↦ ?_
  split
  · exact h.bind h.get fun _ ↦ h.ofFit _
  · cases flow with
    | next => exact h.pure _
    | returned v => exact h.pure _

theorem instantiate (info : ClassInfo) (arguments : List Value) :
    P (instantiate run info arguments) := by
  refine h.bind h.newObject fun object ↦ ?_
  dsimp only
  split
  · exact h.pure _
  · exact h.bind (h.bindMethod _ _) fun c ↦
      h.bind (h.discard (h.enter hrun c arguments)) fun _ ↦ h.pure _

theorem apply (arguments : List Value) (c : Callee) : P (c.apply run arguments) := by
  cases c with
  | native n => exact h.pure _
  | function c => exact h.enter hrun c arguments
  | cls info => exact h.instantiate hrun info arguments

end Run

theorem call (setup : Setup) {run : Callee → Stmt → Exec Flow} (hrun : ∀ c s, P (run c s))
    (paren : Token) (value : Value) (arguments : List Value) :
    P (call setup run paren value arguments) := by
  unfold Exec.call
  split
  · exact h.fail _ _
  · next callee _ =>
    split
    · exact h.fail _ _
    · refine h.bind h.get fun m ↦ ?_
      split
      · exact h.fail _ _
      · exact h.active paren (h.apply (hrun callee) arguments callee)

end Inherits

namespace Pervades

mutual

theorem eval (h : Pervades P) (setup : Setup) : ∀ room e, P (eval setup room e)
  | 0, _ | 1, _ | 2, _ | 3, _ | 4, _ => by
    unfold Exec.eval
    exact h.throw _
  | room + 5, e => by
    have hpart := h.eval setup (room + 3)
    unfold Exec.eval
    cases e with
    | literal => exact h.pure _
    | group e => exact hpart e
    | unary operator e =>
      exact h.bind (hpart e) fun _ ↦ h.bind (h.ofExcept _) fun _ ↦ h.result _
    | binary l operator r =>
      exact h.bind (hpart l) fun _ ↦ h.bind (hpart r) fun _ ↦ h.bind (h.ofExcept _) fun _ ↦ h.result _
    | logical l operator r =>
      refine h.bind (hpart l) fun v ↦ ?_
      dsimp only
      split
      · exact h.pure _
      · exact h.bind (hpart r) fun _ ↦ h.pure _
    | var name ref => exact h.read name _
    | assign name e ref => exact h.bind (hpart e) fun v ↦ h.bind (h.write name _ v) fun _ ↦ h.pure v
    | call callee paren arguments =>
      refine h.bind (hpart callee) fun f ↦
        h.bind (h.mapM (h.eval setup (room + 2)) arguments) fun vs ↦
        h.call setup (fun c ↦ ?_) paren f vs
      cases c with
      | cls => exact h.exec setup room
      | native | function => exact h.exec setup (room + 1)
    | get e name => exact h.bind (hpart e) fun o ↦ h.getProperty o name
    | set e name i =>
      exact h.bind (hpart e) fun o ↦ h.bind (h.writable o name) fun id ↦ h.bind (hpart i)
        fun v ↦ h.bind (h.setField id _ v) fun _ ↦ h.pure v
    | self keyword ref => exact h.read keyword _
    | ofStmt s =>
      have hstmt : P (do return (← Exec.exec setup (room + 4) s).toValue) :=
        h.bind (h.exec setup (room + 4) s) fun _ ↦ h.pure _
      cases s with
      | ofExpr e => exact h.eval setup (room + 4) e
      | branch condition yes no =>
        refine h.bind (hpart condition) fun v ↦ ?_
        split
        · exact hpart _
        · cases no with
          | none => exact h.pure _
          | some no => exact hpart _
      | _ => exact hstmt

theorem exec (h : Pervades P) (setup : Setup) : ∀ room s, P (exec setup room s)
  | 0, _ | 1, _ | 2, _ => by
    unfold Exec.exec
    exact h.throw _
  | room + 3, s => by
    have hexpr := h.eval setup (room + 1)
    have hstmt := h.exec setup (room + 1)
    unfold Exec.exec
    cases s with
    | empty => exact h.pure _
    | expression e => exact h.bind (h.discard (hexpr e)) fun _ ↦ h.pure _
    | print e => exact h.bind (hexpr e) fun v ↦ h.bind (h.print v.text) fun _ ↦ h.pure _
    | var name initializer =>
      cases initializer with
      | none => exact h.bind (h.define _ _) fun _ ↦ h.pure _
      | some e => exact h.bind (hexpr e) fun v ↦ h.bind (h.define _ v) fun _ ↦ h.pure _
    | block body => exact h.block (h.exec setup room) body
    | branch condition yes no =>
      refine h.bind (hexpr condition) fun v ↦ ?_
      split
      · exact hstmt yes
      · cases no with
        | none => exact h.pure _
        | some no => exact hstmt no
    | loop condition body => exact h.repeatWhile (hexpr condition) (hstmt body) _
    | function d =>
      exact h.bind h.get fun _ ↦ h.bind h.identity fun _ ↦ h.bind (h.define _ _) fun _ ↦ h.pure _
    | returns keyword value =>
      cases value with
      | none => exact h.pure _
      | some e => exact h.bind (hexpr e) fun _ ↦ h.pure _
    | cls name methods =>
      exact h.bind h.get fun _ ↦ h.bind h.identity fun _ ↦ h.bind (h.define _ _) fun _ ↦ h.pure _
    | ofExpr e => exact h.bind (h.eval setup (room + 2) e) fun _ ↦ h.pure _
    | unknown kind => exact h.throw _

end

end Pervades

end Exec

end TreeWalk
