import TreeWalk.Proofs.Machine.Alike
import TreeWalk.Proofs.Machine.Like
import TreeWalk.Proofs.Tree.Thinned
import Mathlib.Data.List.Nodup

namespace TreeWalk

/-- Chains of frames, with the spare ones and without them: those that stand for each other are paired by `w`,
and the first have the given marks. -/
inductive Aligned (w : List FrameId) : List FrameId → List FrameId → List Bool → Prop
  | globals : w[0]? = some 0 → Aligned w [0] [0] []
  | frame {f f' : FrameId} {chain chain' : List FrameId} {marks : List Bool} :
      w[f']? = some f → Aligned w chain chain' marks →
      Aligned w (f :: chain) (f' :: chain') (false :: marks)
  | spare {f : FrameId} {chain chain' : List FrameId} {marks : List Bool} :
      Aligned w chain chain' marks → Aligned w (f :: chain) chain' (true :: marks)

section Aligned

variable {w w' : List FrameId} {chain chain' : List FrameId} {marks : List Bool}

theorem pair_mono {f f' : FrameId} (hw : w <+: w') (h : w[f']? = some f) : w'[f']? = some f := by
  obtain ⟨t, rfl⟩ := hw
  rw [List.getElem?_append_left (List.getElem?_eq_some_iff.mp h).1]
  exact h

namespace Aligned

theorem mono (h : Aligned w chain chain' marks) (hw : w <+: w') : Aligned w' chain chain' marks := by
  induction h with
  | globals h => exact .globals (pair_mono hw h)
  | frame h _ ih => exact .frame (pair_mono hw h) ih
  | spare _ ih => exact .spare ih

theorem pair (h : Aligned w chain chain' marks) {d d' : Nat} (hd : Bypass marks d d') :
    ∃ f f', chain[d]? = some f ∧ chain'[d']? = some f' ∧ w[f']? = some f := by
  induction hd generalizing chain chain' with
  | here =>
    cases h with
    | frame hf _ => exact ⟨_, _, rfl, rfl, hf⟩
  | scope _ ih =>
    cases h with
    | frame _ h => exact ih h
  | spare _ ih =>
    cases h with
    | spare h => exact ih h

theorem head {e e' : Env} (h : Aligned w e.chain e'.chain marks) (hmarks : Declares marks) :
    w[e'.frame]? = some e.frame := by
  obtain ⟨frame, outer⟩ := e
  obtain ⟨frame', outer'⟩ := e'
  cases h with
  | globals h => exact h
  | frame h _ => exact h
  | spare => exact absurd rfl hmarks

end Aligned

end Aligned

section Bindings

variable {α : Type} {S : α → α → Prop} {b b' : Bindings α}

def Bindings.Agree (S : α → α → Prop) (b b' : Bindings α) : Prop :=
  ∀ name, Option.Rel S (b.get? name) (b'.get? name)

namespace Bindings.Agree

theorem of_rel (h : b.Rel S b') : b.Agree S b' := h.get?

theorem self (h : ∀ name v, b.get? name = some v → S v v) : b.Agree S b := by
  intro name
  have hname := h name
  generalize b.get? name = v at hname ⊢
  cases v with
  | none => exact .none
  | some v => exact .some (hname v rfl)

theorem mono {T : α → α → Prop} (h : b.Agree S b') (hST : ∀ v v', S v v' → T v v') :
    b.Agree T b' := by
  intro name
  have hname := h name
  generalize b.get? name = v at hname ⊢
  generalize b'.get? name = v' at hname ⊢
  cases hname with
  | none => exact .none
  | some hv => exact .some (hST _ _ hv)

theorem set {v v' : α} (h : b.Agree S b') (name : String) (hv : S v v') :
    (b.set name v).Agree S (b'.set name v') := by
  intro k
  rw [get?_set, get?_set]
  split
  · exact .some hv
  · exact h k

end Bindings.Agree

end Bindings

section Frames

variable {α : Type}

/-- Each frame of the second store stands for another one of the first, the globals for the globals, and holds
the same names. -/
structure Frames.Thinned (w : List FrameId) (S : α → α → Prop) (fs fs' : Frames α) : Prop where
  length_eq : w.length = fs'.next
  lt : ∀ f ∈ w, f < fs.next
  nodup : w.Nodup
  globals : w[0]? = some 0
  bindings : ∀ f f', w[f']? = some f → (fs.bindings f).Agree S (fs'.bindings f')

namespace Frames.Thinned

variable {w : List FrameId} {S : α → α → Prop} {fs fs' : Frames α}

theorem mono {T : α → α → Prop} (h : Thinned w S fs fs') (hST : ∀ v v', S v v' → T v v') :
    Thinned w T fs fs' :=
  { h with bindings := fun f f' hf ↦ (h.bindings f f' hf).mono hST }

theorem push {b b' : Bindings α} (h : Thinned w S fs fs') (hb : b.Agree S b') :
    Thinned (w ++ [fs.next]) S (fs.push b) (fs'.push b') where
  length_eq := by simp [h.length_eq]
  lt f hf := by
    rw [next_push]
    rcases List.mem_append.mp hf with hf | hf
    · exact Nat.lt_succ_of_lt (h.lt f hf)
    · exact Nat.lt_succ_of_le (Nat.le_of_eq (List.mem_singleton.mp hf))
  nodup := List.nodup_append.mpr ⟨h.nodup, List.nodup_singleton _, fun f hf g hg ↦
    List.mem_singleton.mp hg ▸ Nat.ne_of_lt (h.lt f hf)⟩
  globals := pair_mono (List.prefix_append w _) h.globals
  bindings f f' hf := by
    rw [bindings_push, bindings_push, ← h.length_eq]
    rcases Nat.lt_or_ge f' w.length with hlt | hge
    · rw [List.getElem?_append_left hlt] at hf
      have hold : f ≠ fs.next := Nat.ne_of_lt (h.lt f (List.mem_of_getElem? hf))
      rw [if_neg hold, if_neg (Nat.ne_of_lt hlt)]
      exact h.bindings f f' hf
    · obtain ⟨hlt, -⟩ := List.getElem?_eq_some_iff.mp hf
      obtain rfl : f' = w.length :=
        Nat.le_antisymm (Nat.le_of_lt_succ (by simpa using hlt)) hge
      rw [List.getElem?_concat_length] at hf
      cases hf
      rw [if_pos rfl, if_pos rfl]
      exact hb

theorem spare (h : Thinned w S fs fs') (b : Bindings α) : Thinned w S (fs.push b) fs' where
  length_eq := h.length_eq
  lt f hf := by
    rw [next_push]
    exact Nat.lt_succ_of_lt (h.lt f hf)
  nodup := h.nodup
  globals := h.globals
  bindings f f' hf := by
    rw [bindings_push, if_neg (Nat.ne_of_lt (h.lt f (List.mem_of_getElem? hf)))]
    exact h.bindings f f' hf

theorem define {f f' : FrameId} {v v' : α} (h : Thinned w S fs fs') (hf : w[f']? = some f)
    (name : String) (hv : S v v') :
    Thinned w S (fs.define f name v) (fs'.define f' name v') where
  length_eq := by rw [next_define, h.length_eq]
  lt g hg := by
    rw [next_define]
    exact h.lt g hg
  nodup := h.nodup
  globals := h.globals
  bindings g g' hg := by
    have hlt : g < fs.next := h.lt g (List.mem_of_getElem? hg)
    obtain ⟨hlt', hget⟩ := List.getElem?_eq_some_iff.mp hg
    obtain ⟨hf', hget'⟩ := List.getElem?_eq_some_iff.mp hf
    have hsame : g = f ↔ g' = f' := by
      rw [← hget, ← hget']
      exact h.nodup.getElem_inj_iff
    rw [bindings_define, bindings_define, ← h.length_eq]
    simp only [hsame, hlt, hlt', and_true]
    split
    · exact (h.bindings g g' hg).set name hv
    · exact h.bindings g g' hg

theorem get? (h : Thinned w S fs fs') (name : String) :
    Option.Rel S (fs.get? .globals name) (fs'.get? .globals name) := by
  rw [get?_globals, get?_globals]
  exact h.bindings 0 0 h.globals name

theorem binder?_eq (h : Thinned w S fs fs') (name : String) :
    fs'.binder? .globals name = fs.binder? .globals name := by
  rw [binder?_globals, binder?_globals, Bindings.contains_congr (h.bindings 0 0 h.globals name)]

end Frames.Thinned

end Frames

section Values

variable (w : List FrameId)

/-- Functions that are thinned by the spare frames of their environment. Between the environment and the
function there may be more scopes: around a method that is not bound yet there is that of `this`. -/
structure Closure.Thinned (between : List Bool) (c c' : Closure) : Prop where
  decl : ∃ marks, Aligned w c.env.chain c'.env.chain marks ∧
    c.decl.Thinned (between ++ marks) c'.decl ∧ (c.isInitializer = true → Declares (between ++ marks))
  isInitializer_eq : c'.isInitializer = c.isInitializer

structure ClassInfo.Thinned (c c' : ClassInfo) : Prop where
  name_eq : c'.name = c.name
  methods : c.methods.Agree (Closure.Thinned w [false]) c'.methods

inductive Value.Thinned : Value → Value → Prop
  | scalar {s : Scalar} : Thinned (.scalar s) (.scalar s)
  | native {index : Nat} : Thinned (.native index) (.native index)
  | function {identity : Nat} {c c' : Closure} :
      c.Thinned w [] c' → Thinned (.function identity c) (.function identity c')
  | cls {identity : Nat} {info info' : ClassInfo} :
      info.Thinned w info' → Thinned (.cls identity info) (.cls identity info')
  | object {identity : Nat} {info info' : ClassInfo} :
      info.Thinned w info' → Thinned (.object identity info) (.object identity info')
  | completion {v v' : Value} : Thinned v v' → Thinned (.completion v) (.completion v')

/-- Functions of the host that do not look at the frames behind what they are given. -/
def Native.Unaware (n : Native) : Prop :=
  ∀ w vs vs', List.Forall₂ (Value.Thinned w) vs vs' → (n.apply vs).Thinned w (n.apply vs')

def Setup.Unaware (setup : Setup) : Prop := ∀ n ∈ setup.added, n.Unaware

variable {w} {w' : List FrameId} {v v' u u' : Value}

theorem Closure.Thinned.mono {between : List Bool} {c c' : Closure}
    (h : c.Thinned w between c') (hw : w <+: w') : c.Thinned w' between c' := by
  obtain ⟨⟨marks, halign, hdecl⟩, hinit⟩ := h
  exact ⟨⟨marks, halign.mono hw, hdecl⟩, hinit⟩

theorem ClassInfo.Thinned.mono {c c' : ClassInfo} (h : c.Thinned w c') (hw : w <+: w') :
    c.Thinned w' c' :=
  ⟨h.name_eq, h.methods.mono fun _ _ hc ↦ hc.mono hw⟩

theorem Value.Thinned.mono (h : v.Thinned w v') (hw : w <+: w') : v.Thinned w' v' := by
  induction h with
  | scalar => exact .scalar
  | native => exact .native
  | function hc => exact .function (hc.mono hw)
  | cls hc => exact .cls (hc.mono hw)
  | object hc => exact .object (hc.mono hw)
  | completion _ ih => exact .completion ih

theorem Closure.Thinned.arity_eq {between : List Bool} {c c' : Closure}
    (h : c.Thinned w between c') : c'.arity = c.arity := by
  obtain ⟨⟨marks, -, hdecl, -⟩, -⟩ := h
  exact congrArg List.length hdecl.params_eq

namespace ClassInfo.Thinned

variable {c c' : ClassInfo}

theorem initializer? (h : c.Thinned w c') :
    Option.Rel (Closure.Thinned w [false]) c.initializer? c'.initializer? :=
  h.methods "init"

theorem arity_eq (h : c.Thinned w c') : c'.arity = c.arity :=
  arity_congr (fun _ _ hc ↦ hc.arity_eq) h.initializer?

end ClassInfo.Thinned

theorem Value.Thinned.like (h : v.Thinned w v') : v.Like v' := by
  induction h with
  | scalar => exact .scalar
  | native => exact .native
  | function hc =>
    obtain ⟨⟨marks, -, hdecl, -⟩, -⟩ := hc
    exact .function (congrArg Token.lexeme hdecl.name_eq)
  | cls hc => exact .cls hc.name_eq
  | object hc => exact .object hc.name_eq
  | completion _ ih => exact .completion ih

end Values

/-- The same machine but for the spare frames of the first. -/
structure Machine.Thinned (w : List FrameId) (m m' : Machine) : Prop where
  frames : m.frames.Thinned w (Value.Thinned w) m'.frames
  objects_eq : m'.objects.size = m.objects.size
  fields : ∀ object, (m.fields object).Agree (Value.Thinned w) (m'.fields object)
  fresh_eq : m'.fresh = m.fresh
  depth_eq : m'.depth = m.depth
  printed_eq : m'.printed = m.printed

end TreeWalk
