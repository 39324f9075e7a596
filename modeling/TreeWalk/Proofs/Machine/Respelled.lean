import TreeWalk.Proofs.Machine.Alike
import TreeWalk.Proofs.Scope.Spelling

namespace TreeWalk

/-- A chain of frames has the given marks, and ends in the globals, which are not marked. -/
inductive Spans (w : List Bool) : List FrameId → List Bool → Prop
  | globals : w[0]? = some false → Spans w [0] []
  | inside {f : FrameId} {chain : List FrameId} {anew : Bool} {marks : List Bool} :
      w[f]? = some anew → Spans w chain marks → Spans w (f :: chain) (anew :: marks)

section Spans

variable {w w' : List Bool} {chain : List FrameId} {marks : List Bool}

theorem mark_mono {f : FrameId} {anew : Bool} (hw : w <+: w') (h : w[f]? = some anew) :
    w'[f]? = some anew := by
  obtain ⟨t, rfl⟩ := hw
  rw [List.getElem?_append_left (List.getElem?_eq_some_iff.mp h).1]
  exact h

theorem Spans.mono (h : Spans w chain marks) (hw : w <+: w') : Spans w' chain marks := by
  induction h with
  | globals h => exact .globals (mark_mono hw h)
  | inside h _ ih => exact .inside (mark_mono hw h) ih

theorem Spans.mark (h : Spans w chain marks) : ∀ {hops : Nat} {f : FrameId},
    chain[hops]? = some f → w[f]? = some (markAt marks (some hops)) := by
  induction h with
  | globals h =>
    intro hops f hf
    cases hops with
    | zero =>
      cases hf
      exact h
    | succ hops => cases hf
  | inside h _ ih =>
    intro hops f hf
    cases hops with
    | zero =>
      cases hf
      exact h
    | succ hops => exact ih hf

end Spans

section Frames

variable {α : Type}

/-- As many frames, with the same globals. Each other frame is respelled as its mark demands. -/
structure Frames.Respelled (x y : String) (w : List Bool) (S : α → α → Prop) (fs fs' : Frames α) :
    Prop where
  length_eq : w.length = fs.next
  next_eq : fs'.next = fs.next
  unmarked : w[0]? = some false
  globals : (fs.bindings 0).Rel S (fs'.bindings 0)
  bindings : ∀ f anew, f ≠ 0 → w[f]? = some anew →
    (fs.bindings f).Respelled x y anew S (fs'.bindings f)

namespace Frames.Respelled

variable {x y name : String} {w : List Bool} {S : α → α → Prop} {fs fs' : Frames α}

theorem next_pos (h : Respelled x y w S fs fs') : 0 < fs.next :=
  h.length_eq ▸ (List.getElem?_eq_some_iff.mp h.unmarked).1

theorem push {b b' : Bindings α} {anew : Bool} (h : Respelled x y w S fs fs')
    (hb : b.Respelled x y anew S b') : Respelled x y (w ++ [anew]) S (fs.push b) (fs'.push b') := by
  have hpos : ¬ 0 = fs.next := Nat.ne_of_lt h.next_pos
  refine ⟨by simp [h.length_eq], by simp [h.next_eq], mark_mono ⟨_, rfl⟩ h.unmarked, ?_, ?_⟩
  · rw [bindings_push, bindings_push, h.next_eq, if_neg hpos, if_neg hpos]
    exact h.globals
  · intro f anew' hzero hf
    rw [bindings_push, bindings_push, h.next_eq]
    split
    · next hnew =>
      rw [hnew, ← h.length_eq, List.getElem?_concat_length] at hf
      cases hf
      exact hb
    · next hold =>
      have hlt : f < (w ++ [anew]).length := (List.getElem?_eq_some_iff.mp hf).1
      rw [List.length_append, List.length_singleton, h.length_eq] at hlt
      have hlt : f < w.length := by
        rw [h.length_eq]
        exact Nat.lt_of_le_of_ne (Nat.le_of_lt_succ hlt) hold
      rw [List.getElem?_append_left hlt] at hf
      exact h.bindings f anew' hzero hf

theorem define {v v' : α} {f : FrameId} {anew : Bool} (h : Respelled x y w S fs fs')
    (hf : w[f]? = some anew) (hname : name ≠ y) (hv : S v v') :
    Respelled x y w S (fs.define f name v) (fs'.define f (spelling x y anew name) v') := by
  refine ⟨by simp [h.length_eq], by simp [h.next_eq], h.unmarked, ?_, fun g anew' hzero hg ↦ ?_⟩
  · rw [bindings_define, bindings_define, h.next_eq]
    split
    · next heq =>
      obtain ⟨rfl, -⟩ := heq
      cases hf.symm.trans h.unmarked
      rw [spelling_false]
      exact h.globals.set name hv
    · exact h.globals
  · rw [bindings_define, bindings_define, h.next_eq]
    split
    · next heq =>
      obtain ⟨rfl, -⟩ := heq
      cases hf.symm.trans hg
      exact (h.bindings g anew hzero hg).set hname hv
    · exact h.bindings g anew' hzero hg

theorem mono {T : α → α → Prop} (h : Respelled x y w S fs fs') (hST : ∀ v v', S v v' → T v v') :
    Respelled x y w T fs fs' :=
  { h with
    globals := h.globals.mono hST
    bindings := fun f anew hzero hf ↦ (h.bindings f anew hzero hf).mono hST }

theorem bindings_get? {f : FrameId} {anew : Bool} (h : Respelled x y w S fs fs')
    (hf : w[f]? = some anew) (hname : name ≠ y) :
    Option.Rel S ((fs.bindings f).get? name) ((fs'.bindings f).get? (spelling x y anew name)) := by
  by_cases hzero : f = 0
  · subst hzero
    cases hf.symm.trans h.unmarked
    rw [spelling_false]
    exact h.globals.get? name
  · exact (h.bindings f anew hzero hf).get? hname

theorem get? (h : Respelled x y w S fs fs') (name : String) :
    Option.Rel S (fs.get? .globals name) (fs'.get? .globals name) := by
  rw [get?_globals, get?_globals]
  exact h.globals.get? name

theorem binder?_eq (h : Respelled x y w S fs fs') (name : String) :
    fs'.binder? .globals name = fs.binder? .globals name := by
  rw [binder?_globals, binder?_globals, Bindings.contains_congr (h.globals.get? name)]

end Frames.Respelled

end Frames

section Values

variable (x y : String) (w : List Bool)

/-- Functions that are respelled as the marks of their environment demand. Between the environment and the
function there may be more scopes: around a method that is not bound yet there is that of `this`. -/
structure Closure.Respelled (between : List Bool) (c c' : Closure) : Prop where
  decl : ∃ marks, Spans w c.env.chain marks ∧ c.decl.Respelled x y (between ++ marks) c'.decl
  env_eq : c'.env = c.env
  isInitializer_eq : c'.isInitializer = c.isInitializer

structure ClassInfo.Respelled (c c' : ClassInfo) : Prop where
  name_eq : c'.name = c.name
  methods : c.methods.Rel (Closure.Respelled x y w [false]) c'.methods

inductive Value.Respelled : Value → Value → Prop
  | scalar {s : Scalar} : Respelled (.scalar s) (.scalar s)
  | native {index : Nat} : Respelled (.native index) (.native index)
  | function {identity : Nat} {c c' : Closure} :
      c.Respelled x y w [] c' → Respelled (.function identity c) (.function identity c')
  | cls {identity : Nat} {info info' : ClassInfo} :
      info.Respelled x y w info' → Respelled (.cls identity info) (.cls identity info')
  | object {identity : Nat} {info info' : ClassInfo} :
      info.Respelled x y w info' → Respelled (.object identity info) (.object identity info')
  | completion {v v' : Value} : Respelled v v' → Respelled (.completion v) (.completion v')

/-- Functions of the host that do not look at the names of local variables in what they are given. -/
def Native.Indifferent (n : Native) : Prop :=
  ∀ x y w vs vs', List.Forall₂ (Value.Respelled x y w) vs vs' →
    (n.apply vs).Respelled x y w (n.apply vs')

def Setup.Indifferent (setup : Setup) : Prop := ∀ n ∈ setup.added, n.Indifferent

variable {x y w} {w' : List Bool} {v v' : Value}

theorem Closure.Respelled.mono {between : List Bool} {c c' : Closure}
    (h : c.Respelled x y w between c') (hw : w <+: w') : c.Respelled x y w' between c' := by
  obtain ⟨⟨marks, hspans, hdecl⟩, henv, hinit⟩ := h
  exact ⟨⟨marks, hspans.mono hw, hdecl⟩, henv, hinit⟩

theorem ClassInfo.Respelled.mono {c c' : ClassInfo} (h : c.Respelled x y w c') (hw : w <+: w') :
    c.Respelled x y w' c' :=
  ⟨h.name_eq, h.methods.mono fun _ _ hc ↦ hc.mono hw⟩

theorem Value.Respelled.mono (h : v.Respelled x y w v') (hw : w <+: w') :
    v.Respelled x y w' v' := by
  induction h with
  | scalar => exact .scalar
  | native => exact .native
  | function hc => exact .function (hc.mono hw)
  | cls hc => exact .cls (hc.mono hw)
  | object hc => exact .object (hc.mono hw)
  | completion _ ih => exact .completion ih

theorem FunDecl.Respelled.name_eq {marks : List Bool} {d d' : FunDecl}
    (h : d.Respelled x y marks d') : d'.name = d.name := by
  cases h
  rfl

theorem FunDecl.Respelled.params_length {marks : List Bool} {d d' : FunDecl}
    (h : d.Respelled x y marks d') : d'.params.length = d.params.length := by
  cases h with
  | mk hparams => exact hparams.length_eq.symm

theorem Closure.Respelled.arity_eq {between : List Bool} {c c' : Closure}
    (h : c.Respelled x y w between c') : c'.arity = c.arity := by
  obtain ⟨⟨marks, -, hdecl⟩, -, -⟩ := h
  exact hdecl.params_length

namespace ClassInfo.Respelled

variable {c c' : ClassInfo}

theorem initializer? (h : c.Respelled x y w c') :
    Option.Rel (Closure.Respelled x y w [false]) c.initializer? c'.initializer? :=
  h.methods.get? "init"

theorem arity_eq (h : c.Respelled x y w c') : c'.arity = c.arity :=
  arity_congr (fun _ _ hc ↦ hc.arity_eq) h.initializer?

end ClassInfo.Respelled

theorem Value.Respelled.like (h : v.Respelled x y w v') : v.Like v' := by
  induction h with
  | scalar => exact .scalar
  | native => exact .native
  | function hc =>
    obtain ⟨⟨marks, -, hdecl⟩, -, -⟩ := hc
    exact .function (congrArg Token.lexeme hdecl.name_eq)
  | cls hc => exact .cls hc.name_eq
  | object hc => exact .object hc.name_eq
  | completion _ ih => exact .completion ih

end Values

section Machine

variable (x y : String) (w : List Bool)

structure Machine.Respelled (m m' : Machine) : Prop where
  frames : m.frames.Respelled x y w (Value.Respelled x y w) m'.frames
  objects_eq : m'.objects.size = m.objects.size
  fields : ∀ object, (m.fields object).Rel (Value.Respelled x y w) (m'.fields object)
  fresh_eq : m'.fresh = m.fresh
  env_eq : m'.env = m.env
  depth_eq : m'.depth = m.depth
  printed_eq : m'.printed = m.printed

structure RuntimeError.Respelled (e e' : RuntimeError) : Prop where
  cause_eq : e'.cause = e.cause
  token : e.token.Renamed x y e'.token

inductive Interrupt.Respelled : Interrupt → Interrupt → Prop
  | error {e e' : RuntimeError} : e.Respelled x y e' → Respelled (.error e) (.error e')
  | pastGlobals : Respelled (.misfit .pastGlobals) (.misfit .pastGlobals)
  | unbound {name : String} {anew : Bool} :
      Respelled (.misfit (.unbound name)) (.misfit (.unbound (spelling x y anew name)))
  | unknown {kind : String} : Respelled (.unknown kind) (.unknown kind)
  | tooDeep : Respelled .tooDeep .tooDeep
  | endless : Respelled .endless .endless

end Machine

end TreeWalk
