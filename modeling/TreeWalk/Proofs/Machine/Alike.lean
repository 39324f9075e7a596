import TreeWalk.Proofs.Machine.Lies
import TreeWalk.Proofs.Machine.Like
import TreeWalk.Proofs.Machine.Moment
import TreeWalk.Proofs.Tree.Alike

namespace TreeWalk

section Bindings

variable {α : Type} {S : α → α → Prop}

def Bindings.Rel (S : α → α → Prop) (b b' : Bindings α) : Prop :=
  List.Forall₂ (fun e e' ↦ e'.1 = e.1 ∧ S e.2 e'.2) b.entries b'.entries

namespace Bindings.Rel

variable {b b' : Bindings α}

theorem empty : Rel S .empty .empty := .nil

theorem mono {T : α → α → Prop} (h : Rel S b b') (hST : ∀ v v', S v v' → T v v') : Rel T b b' :=
  List.Forall₂.imp (fun _ _ he ↦ ⟨he.1, hST _ _ he.2⟩) h

theorem get? (h : Rel S b b') (name : String) : Option.Rel S (b.get? name) (b'.get? name) := by
  obtain ⟨entries⟩ := b
  obtain ⟨entries'⟩ := b'
  unfold Rel at h
  unfold Bindings.get?
  dsimp only at h ⊢
  induction h with
  | nil => exact .none
  | @cons e e' _ _ he _ ih =>
    obtain ⟨k, v⟩ := e
    obtain ⟨k', v'⟩ := e'
    obtain ⟨rfl, hv⟩ := he
    rw [lookup_cons, lookup_cons]
    split
    · exact .some hv
    · exact ih

theorem set {v v' : α} (h : Rel S b b') (name : String) (hv : S v v') :
    Rel S (b.set name v) (b'.set name v') := by
  obtain ⟨entries⟩ := b
  obtain ⟨entries'⟩ := b'
  unfold Rel at h ⊢
  unfold Bindings.set
  dsimp only at h ⊢
  induction h with
  | nil => exact .cons ⟨rfl, hv⟩ .nil
  | @cons e e' _ _ he hes ih =>
    obtain ⟨k, w⟩ := e
    obtain ⟨k', w'⟩ := e'
    obtain ⟨rfl, hw⟩ := he
    unfold setIn
    split
    · exact .cons ⟨rfl, hv⟩ hes
    · exact .cons ⟨rfl, hw⟩ ih

theorem ofList {entries entries' : List (String × α)}
    (h : List.Forall₂ (fun e e' ↦ e'.1 = e.1 ∧ S e.2 e'.2) entries entries') :
    Rel S (.ofList entries) (.ofList entries') := by
  have hfold : ∀ b b' : Bindings α, Rel S b b' →
      Rel S (entries.foldl (fun b e ↦ b.set e.1 e.2) b)
        (entries'.foldl (fun b e ↦ b.set e.1 e.2) b') := by
    induction h with
    | nil => exact fun _ _ hb ↦ hb
    | @cons e e' _ _ he _ ih =>
      intro b b' hb
      obtain ⟨k, v⟩ := e
      obtain ⟨k', v'⟩ := e'
      obtain ⟨rfl, hv⟩ := he
      exact ih _ _ (hb.set _ hv)
  exact hfold _ _ .empty

end Bindings.Rel

end Bindings

section Frames

variable {α : Type} {S : α → α → Prop}

structure Frames.Rel (S : α → α → Prop) (fs fs' : Frames α) : Prop where
  next_eq : fs'.next = fs.next
  bindings : ∀ f, (fs.bindings f).Rel S (fs'.bindings f)

namespace Frames.Rel

variable {fs fs' : Frames α}

theorem push {b b' : Bindings α} (h : Rel S fs fs') (hb : b.Rel S b') :
    Rel S (fs.push b) (fs'.push b') := by
  refine ⟨by simp [h.next_eq], fun f ↦ ?_⟩
  rw [bindings_push, bindings_push, h.next_eq]
  split
  · exact hb
  · exact h.bindings f

theorem define {v v' : α} (h : Rel S fs fs') (f : FrameId) (name : String) (hv : S v v') :
    Rel S (fs.define f name v) (fs'.define f name v') := by
  refine ⟨by simp [h.next_eq], fun g ↦ ?_⟩
  rw [bindings_define, bindings_define, h.next_eq]
  split
  · exact (h.bindings g).set name hv
  · exact h.bindings g

theorem binder?_eq (h : Rel S fs fs') (e : Env) (name : String) :
    fs'.binder? e name = fs.binder? e name := by
  unfold binder?
  congr 1
  funext f
  exact Bindings.contains_congr ((h.bindings f).get? name)

theorem get? (h : Rel S fs fs') (e : Env) (name : String) :
    Option.Rel S (fs.get? e name) (fs'.get? e name) := by
  unfold Frames.get?
  induction e.chain with
  | nil => exact .none
  | cons f chain ih =>
    have hv := (h.bindings f).get? name
    rw [List.findSome?_cons, List.findSome?_cons]
    generalize (fs.bindings f).get? name = v at hv ⊢
    generalize (fs'.bindings f).get? name = v' at hv ⊢
    cases hv with
    | none => exact ih
    | some hv => exact .some hv

end Frames.Rel

end Frames

section Values

variable (R : Token → Token → Prop)

structure Closure.Alike (c c' : Closure) : Prop where
  decl : c.decl.Alike R c'.decl
  env_eq : c'.env = c.env
  isInitializer_eq : c'.isInitializer = c.isInitializer

structure ClassInfo.Alike (c c' : ClassInfo) : Prop where
  name_eq : c'.name = c.name
  methods : c.methods.Rel (Closure.Alike R) c'.methods

inductive Value.Alike : Value → Value → Prop
  | scalar {s : Scalar} : Alike (.scalar s) (.scalar s)
  | native {index : Nat} : Alike (.native index) (.native index)
  | function {identity : Nat} {c c' : Closure} :
      c.Alike R c' → Alike (.function identity c) (.function identity c')
  | cls {identity : Nat} {info info' : ClassInfo} :
      info.Alike R info' → Alike (.cls identity info) (.cls identity info')
  | object {identity : Nat} {info info' : ClassInfo} :
      info.Alike R info' → Alike (.object identity info) (.object identity info')
  | completion {v v' : Value} : Alike v v' → Alike (.completion v) (.completion v')

/-- Functions of the host that do not look at the lines of what they are given. -/
def Native.Blind (n : Native) : Prop :=
  ∀ R : Token → Token → Prop, (∀ t t', R t t' → t.Like t') →
    ∀ vs vs', List.Forall₂ (Value.Alike R) vs vs' → (n.apply vs).Alike R (n.apply vs')

def Setup.Blind (setup : Setup) : Prop := ∀ n ∈ setup.added, n.Blind

variable {R} {v v' : Value}

theorem Closure.Alike.arity_eq {c c' : Closure} (h : c.Alike R c') : c'.arity = c.arity :=
  h.decl.params.length_eq.symm

namespace ClassInfo.Alike

variable {c c' : ClassInfo}

theorem initializer? (h : c.Alike R c') :
    Option.Rel (Closure.Alike R) c.initializer? c'.initializer? := h.methods.get? "init"

theorem arity_eq (h : c.Alike R c') : c'.arity = c.arity :=
  arity_congr (fun _ _ hc ↦ hc.arity_eq) h.initializer?

end ClassInfo.Alike

theorem Value.Alike.like (hR : ∀ t t', R t t' → t.Like t') (h : v.Alike R v') : v.Like v' := by
  induction h with
  | scalar => exact .scalar
  | native => exact .native
  | function hc => exact .function (hR _ _ hc.decl.name).lexeme_eq
  | cls hc => exact .cls hc.name_eq
  | object hc => exact .object hc.name_eq
  | completion _ ih => exact .completion ih

end Values

section Machine

variable (R : Token → Token → Prop) (before : List String)

structure Machine.Alike (m m' : Machine) : Prop where
  frames : m.frames.Rel (Value.Alike R) m'.frames
  objects_eq : m'.objects.size = m.objects.size
  fields : ∀ object, (m.fields object).Rel (Value.Alike R) (m'.fields object)
  fresh_eq : m'.fresh = m.fresh
  env_eq : m'.env = m.env
  depth_eq : m'.depth = m.depth
  printed_eq : m'.printed.toList = before ++ m.printed.toList

/-- The same cause, at related tokens. A stack overflow outside of all tokens is at the end marker. -/
structure RuntimeError.Alike (e e' : RuntimeError) : Prop where
  cause_eq : e'.cause = e.cause
  token : R e.token e'.token ∨ e.token = ⟨.eof, "", .nil, 1⟩ ∧ e'.token = ⟨.eof, "", .nil, 1⟩

inductive Interrupt.Alike : Interrupt → Interrupt → Prop
  | error {e e' : RuntimeError} : e.Alike R e' → Alike (.error e) (.error e')
  | misfit {m : Misfit} : Alike (.misfit m) (.misfit m)
  | unknown {kind : String} : Alike (.unknown kind) (.unknown kind)
  | tooDeep : Alike .tooDeep .tooDeep
  | endless : Alike .endless .endless

end Machine

end TreeWalk
