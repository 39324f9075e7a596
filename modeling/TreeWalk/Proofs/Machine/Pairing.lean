import TreeWalk.Proofs.Machine.Lockstep
import TreeWalk.Proofs.Machine.Respelled
import TreeWalk.Proofs.Scope.Closed
import Mathlib.Logic.Relator
import Mathlib.Order.Basic

namespace TreeWalk

/-- What a machine keeps by number. -/
inductive Store where
  | frames
  | objects
  | identities
deriving DecidableEq

namespace Machine

def size (m : Machine) : Store → Nat
  | .frames => m.frames.next
  | .objects => m.objects.size
  | .identities => m.fresh

/-- The names in a frame, and the fields of an object. An identity holds nothing. -/
def contents (m : Machine) : Store → Nat → Bindings Value
  | .frames, f => m.frames.bindings f
  | .objects, o => m.fields o
  | .identities, _ => .empty

end Machine

abbrev Pairing := Store → Nat → Nat → Prop

namespace Pairing

variable (W : Pairing) (c : Store) (a b : Nat)

def add : Pairing := fun c' a' b' ↦ W c' a' b' ∨ c' = c ∧ a' = a ∧ b' = b

theorem le_add : W ≤ W.add c a b := fun _ _ _ ↦ .inl

theorem add_self : W.add c a b c a b := .inr ⟨rfl, rfl, rfl⟩

def Left : Prop := ∃ b, W c a b

def Right : Prop := ∃ a, W c a b

end Pairing

section Values

variable (W : Pairing)

/-- The innermost frames are paired, so many of them. -/
def Env.Twin (n : Nat) (e e' : Env) : Prop :=
  ∀ d < n, ∃ f f', e.chain[d]? = some f ∧ e'.chain[d]? = some f' ∧ W .frames f f'

/-- The same function, in environments that are paired as far as it reaches. Between environment and function
there may be more scopes: around a method that is not bound yet there is that of `this`. -/
structure Closure.Twin (between : Nat) (c c' : Closure) : Prop where
  decl_eq : c'.decl = c.decl
  isInitializer_eq : c'.isInitializer = c.isInitializer
  closed : ∃ n, c.env.Twin W n c'.env ∧ c.decl.Closed (n + between) ∧
    (c.isInitializer = true → 0 < n + between)

structure ClassInfo.Twin (c c' : ClassInfo) : Prop where
  name_eq : c'.name = c.name
  methods : c.methods.Rel (Closure.Twin W 1) c'.methods

/-- Values that are the same up to the pairing. Functions of the host are not among them. -/
inductive Value.Twin : Value → Value → Prop
  | scalar {s : Scalar} : Twin (.scalar s) (.scalar s)
  | nan {o o' : Origin} : Twin (.scalar (.nan o)) (.scalar (.nan o'))
  | function {i i' : Nat} {c c' : Closure} :
      W .identities i i' → c.Twin W 0 c' → Twin (.function i c) (.function i' c')
  | cls {i i' : Nat} {info info' : ClassInfo} :
      W .identities i i' → info.Twin W info' → Twin (.cls i info) (.cls i' info')
  | object {o o' : Nat} {info info' : ClassInfo} :
      W .objects o o' → info.Twin W info' → Twin (.object o info) (.object o' info')

variable {W} {W' : Pairing}

namespace Env.Twin

variable {n : Nat} {e e' : Env}

theorem mono (h : e.Twin W n e') (hW : W ≤ W') : e.Twin W' n e' := by
  intro d hd
  obtain ⟨f, f', hf, hf', hpair⟩ := h d hd
  exact ⟨f, f', hf, hf', hW _ _ _ hpair⟩

theorem inside {f f' : FrameId} (h : e.Twin W n e') (hf : W .frames f f') :
    (e.inside f).Twin W (n + 1) (e'.inside f') := by
  intro d hd
  cases d with
  | zero => exact ⟨f, f', rfl, rfl, hf⟩
  | succ d => exact h d (by omega)

theorem frame (h : e.Twin W (n + 1) e') : W .frames e.frame e'.frame := by
  obtain ⟨f, f', hf, hf', hpair⟩ := h 0 (by omega)
  cases hf
  cases hf'
  exact hpair

end Env.Twin

theorem Closure.Twin.mono {between : Nat} {c c' : Closure} (h : c.Twin W between c') (hW : W ≤ W') :
    c.Twin W' between c' := by
  obtain ⟨hdecl, hinit, n, henv, hclosed⟩ := h
  exact ⟨hdecl, hinit, n, henv.mono hW, hclosed⟩

theorem Closure.Twin.arity_eq {between : Nat} {c c' : Closure} (h : c.Twin W between c') :
    c'.arity = c.arity := by
  rw [Closure.arity, h.decl_eq, Closure.arity]

namespace ClassInfo.Twin

variable {c c' : ClassInfo}

theorem mono (h : c.Twin W c') (hW : W ≤ W') : c.Twin W' c' :=
  ⟨h.name_eq, h.methods.mono fun _ _ hc ↦ hc.mono hW⟩

theorem initializer? (h : c.Twin W c') :
    Option.Rel (Closure.Twin W 1) c.initializer? c'.initializer? :=
  h.methods.get? "init"

theorem arity_eq (h : c.Twin W c') : c'.arity = c.arity :=
  arity_congr (fun _ _ hc ↦ hc.arity_eq) h.initializer?

end ClassInfo.Twin

namespace Value.Twin

variable {v v' u u' : Value}

theorem mono (h : v.Twin W v') (hW : W ≤ W') : v.Twin W' v' := by
  cases h with
  | scalar => exact .scalar
  | nan => exact .nan
  | function hi hc => exact .function (hW _ _ _ hi) (hc.mono hW)
  | cls hi hinfo => exact .cls (hW _ _ _ hi) (hinfo.mono hW)
  | object ho hinfo => exact .object (hW _ _ _ ho) (hinfo.mono hW)

theorem text_eq (h : v.Twin W v') : v'.text = v.text := by
  cases h with
  | scalar | nan => rfl
  | function _ hc => exact congrArg (fun d : FunDecl ↦ "<fn " ++ d.name.lexeme ++ ">") hc.decl_eq
  | cls _ hinfo => exact hinfo.name_eq
  | object _ hinfo => exact congrArg (· ++ " instance") hinfo.name_eq

theorem isTruthy_eq (h : v.Twin W v') : v'.isTruthy = v.isTruthy := by
  cases h <;> rfl

theorem number?_eq (h : v.Twin W v') : v'.number? = v.number? := by
  cases h <;> rfl

theorem string?_eq (h : v.Twin W v') : v'.string? = v.string? := by
  cases h <;> rfl

theorem equals_eq (hW : ∀ c, Relator.BiUnique (W c)) (hv : v.Twin W v') (hu : u.Twin W u') :
    v'.equals u' = v.equals u := by
  have hsame {c : Store} {i i' j j' : Nat} (hi : W c i i') (hj : W c j j') :
      (i' == j') = (i == j) := by
    have hiff : i = j ↔ i' = j' := Relator.rel_eq (hW c) hi hj
    rw [Bool.eq_iff_iff, beq_iff_eq, beq_iff_eq, hiff]
  cases hv with
  | @scalar s =>
    cases hu with
    | nan => cases s <;> rfl
    | _ => rfl
  | nan => cases hu <;> rfl
  | function hi =>
    cases hu with
    | function hj => exact hsame hi hj
    | _ => rfl
  | cls hi =>
    cases hu with
    | cls hj => exact hsame hi hj
    | _ => rfl
  | object hi =>
    cases hu with
    | object hj => exact hsame hi hj
    | _ => rfl

theorem unary_eq (hv : v.Twin W v') (operator : Token) :
    Operator.unary operator v' = Operator.unary operator v :=
  Operator.unary_congr hv.number?_eq hv.isTruthy_eq operator

theorem binary_eq (hW : ∀ c, Relator.BiUnique (W c)) (hv : v.Twin W v') (hu : u.Twin W u')
    (operator : Token) : Operator.binary operator v' u' = Operator.binary operator v u :=
  Operator.binary_congr hv.number?_eq hv.string?_eq hu.number?_eq hu.string?_eq
    (hv.equals_eq hW hu) operator

end Value.Twin

end Values

section Machines

/-- Machines in which each paired thing is there and holds twins. -/
structure Machine.Twin (W : Pairing) (m m' : Machine) : Prop where
  unique : ∀ c, Relator.BiUnique (W c)
  lt : ∀ {c a b}, W c a b → a < m.size c ∧ b < m'.size c
  contents : ∀ {c a b}, W c a b → (m.contents c a).Rel (Value.Twin W) (m'.contents c b)
  depth_eq : m'.depth = m.depth

/-- What is there stays as it is, but for some of it, and the machine is where it was. -/
structure Machine.Keeps (except : Store → Nat → Prop) (m m₁ : Machine) : Prop where
  size_le : ∀ c, m.size c ≤ m₁.size c
  contents_eq : ∀ c a, a < m.size c → ¬ except c a → m₁.contents c a = m.contents c a
  beside : m.Beside m₁

theorem Machine.Keeps.refl (except : Store → Nat → Prop) (m : Machine) : m.Keeps except m :=
  ⟨fun _ ↦ Nat.le_refl _, fun _ _ _ _ ↦ rfl, .refl m⟩

theorem Machine.Keeps.mono {P P₁ : Store → Nat → Prop} {m m₁ : Machine} (h : m.Keeps P m₁)
    (hP : ∀ c a, P c a → P₁ c a) : m.Keeps P₁ m₁ :=
  ⟨h.size_le, fun c a ha hspared ↦ h.contents_eq c a ha fun hmem ↦ hspared (hP c a hmem), h.beside⟩

theorem Machine.Keeps.trans {P P₁ : Store → Nat → Prop} {m m₁ m₂ : Machine} (h : m.Keeps P m₁)
    (h₁ : m₁.Keeps P₁ m₂) (hP : ∀ c a, P₁ c a → P c a ∨ m.size c ≤ a) : m.Keeps P m₂ := by
  refine ⟨fun c ↦ Nat.le_trans (h.size_le c) (h₁.size_le c), fun c a ha hspared ↦ ?_,
    h.beside.trans h₁.beside⟩
  have hspared₁ : ¬ P₁ c a := by
    intro hmem
    have hsize := (hP c a hmem).resolve_left hspared
    omega
  rw [h₁.contents_eq c a (Nat.lt_of_lt_of_le ha (h.size_le c)) hspared₁, h.contents_eq c a ha hspared]

/-- Steps of two machines at once. More may be paired afterwards, but nothing that was there before; what was
not paired has not changed, and the same lines have been printed. -/
structure Mirrored (W : Pairing) (m m' : Machine) (W₁ : Pairing) (m₁ m₁' : Machine) : Prop where
  twin : m₁.Twin W₁ m₁'
  le : W ≤ W₁
  new : ∀ c a b, W₁ c a b → W c a b ∨ m.size c ≤ a ∧ m'.size c ≤ b
  left : m.Keeps W.Left m₁
  right : m'.Keeps W.Right m₁'
  printed : ∃ lines, m₁.printed.toList = m.printed.toList ++ lines ∧
    m₁'.printed.toList = m'.printed.toList ++ lines

variable {W W₁ W₂ : Pairing} {m m' m₁ m₁' m₂ m₂' : Machine}

namespace Mirrored

theorem refl (h : m.Twin W m') : Mirrored W m m' W m m' where
  twin := h
  le := le_rfl
  new _ _ _ := .inl
  left := .refl _ m
  right := .refl _ m'
  printed := ⟨[], by simp, by simp⟩

theorem trans (h : Mirrored W m m' W₁ m₁ m₁') (h₁ : Mirrored W₁ m₁ m₁' W₂ m₂ m₂') :
    Mirrored W m m' W₂ m₂ m₂' where
  twin := h₁.twin
  le := h.le.trans h₁.le
  new c a b hpair := by
    rcases h₁.new c a b hpair with hpair | ⟨ha, hb⟩
    · exact h.new c a b hpair
    · have hleft := h.left.size_le c
      have hright := h.right.size_le c
      exact .inr ⟨by omega, by omega⟩
  left := h.left.trans h₁.left fun c a ⟨b, hpair⟩ ↦
    (h.new c a b hpair).imp (fun hpair ↦ ⟨b, hpair⟩) And.left
  right := h.right.trans h₁.right fun c b ⟨a, hpair⟩ ↦
    (h.new c a b hpair).imp (fun hpair ↦ ⟨a, hpair⟩) And.right
  printed := by
    obtain ⟨lines, hlines, hlines'⟩ := h.printed
    obtain ⟨more, hmore, hmore'⟩ := h₁.printed
    exact ⟨lines ++ more, by simp [hmore, hlines], by simp [hmore', hlines']⟩

end Mirrored

structure Machine.Adds (c : Store) (b : Bindings Value) (m m₁ : Machine) : Prop where
  size_eq : ∀ c', m₁.size c' = if c' = c then m.size c' + 1 else m.size c'
  contents_eq : ∀ c' a, m₁.contents c' a = if c' = c ∧ a = m.size c then b else m.contents c' a
  beside : m.Beside m₁
  printed_eq : m₁.printed = m.printed

structure Machine.Writes (c : Store) (a : Nat) (name : String) (v : Value) (m m₁ : Machine) :
    Prop where
  size_eq : ∀ c', m₁.size c' = m.size c'
  contents_eq : ∀ c' a', m₁.contents c' a' =
    if c' = c ∧ a' = a ∧ a' < m.size c then (m.contents c' a').set name v else m.contents c' a'
  beside : m.Beside m₁
  printed_eq : m₁.printed = m.printed

theorem Machine.Adds.keeps {c : Store} {b : Bindings Value} (h : m.Adds c b m₁)
    (except : Store → Nat → Prop) : m.Keeps except m₁ := by
  refine ⟨fun c' ↦ ?_, fun c' a ha _ ↦ ?_, h.beside⟩
  · rw [h.size_eq]
    split <;> omega
  · rw [h.contents_eq, if_neg]
    rintro ⟨rfl, rfl⟩
    omega

theorem Machine.Writes.keeps {c : Store} {a : Nat} {name : String} {v : Value}
    (h : m.Writes c a name v m₁) {except : Store → Nat → Prop} (ha : except c a) :
    m.Keeps except m₁ := by
  refine ⟨fun c' ↦ Nat.le_of_eq (h.size_eq c').symm, fun c' a' _ hspared ↦ ?_, h.beside⟩
  rw [h.contents_eq, if_neg]
  rintro ⟨rfl, rfl, -⟩
  exact hspared ha

theorem Machine.adds_frame (m : Machine) (b : Bindings Value) :
    m.Adds .frames b { m with frames := m.frames.push b } := by
  refine ⟨fun c ↦ ?_, fun c a ↦ ?_, ⟨rfl, rfl⟩, rfl⟩
  · cases c <;> simp [Machine.size]
  · cases c with
    | frames =>
      refine (Frames.bindings_push m.frames b a).trans ?_
      simp [Machine.size, Machine.contents]
    | objects | identities => rfl

theorem Machine.adds_object (m : Machine) : m.Adds .objects .empty m.newObject := by
  refine ⟨fun c ↦ ?_, fun c a ↦ ?_, ⟨rfl, rfl⟩, rfl⟩
  · cases c <;> simp [Machine.size, Machine.newObject]
  · cases c with
    | objects =>
      by_cases ha : a = m.objects.size
      · rw [if_pos ⟨rfl, ha⟩]
        simp [Machine.contents, Machine.fields, Machine.newObject, ha]
      · rw [if_neg (by tauto)]
        exact m.fields_newObject a
    | frames | identities => rfl

theorem Machine.adds_identity (m : Machine) :
    m.Adds .identities .empty { m with fresh := m.fresh + 1 } := by
  refine ⟨fun c ↦ ?_, fun c a ↦ ?_, ⟨rfl, rfl⟩, rfl⟩
  · cases c <;> rfl
  · cases c with
    | identities => split <;> rfl
    | frames | objects => rfl

theorem Machine.writes_frame (m : Machine) (f : FrameId) (name : String) (v : Value) :
    m.Writes .frames f name v { m with frames := m.frames.define f name v } := by
  refine ⟨fun c ↦ ?_, fun c a ↦ ?_, ⟨rfl, rfl⟩, rfl⟩
  · cases c <;> simp [Machine.size]
  · cases c with
    | frames =>
      refine (Frames.bindings_define m.frames f a name v).trans ?_
      simp [Machine.size, Machine.contents]
    | objects | identities => rfl

theorem Machine.writes_object (m : Machine) (o : Nat) (name : String) (v : Value) :
    m.Writes .objects o name v (m.setField o name v) := by
  refine ⟨fun c ↦ ?_, fun c a ↦ ?_, ⟨rfl, rfl⟩, rfl⟩
  · cases c <;> simp [Machine.size, Machine.setField]
  · cases c with
    | objects =>
      refine (m.fields_setField o a name v).trans ?_
      simp [Machine.size, Machine.contents]
    | frames | identities => rfl

/-- Where both machines have got one thing more, the two may be paired. -/
theorem Machine.Twin.add {c : Store} {b b' : Bindings Value} (h : m.Twin W m') (hm : m.Adds c b m₁)
    (hm' : m'.Adds c b' m₁') (hb : b.Rel (Value.Twin W) b') :
    Mirrored W m m' (W.add c (m.size c) (m'.size c)) m₁ m₁' where
  twin := by
    have hle := W.le_add c (m.size c) (m'.size c)
    refine ⟨fun c' ↦ ⟨?_, ?_⟩, ?_, ?_, ?_⟩
    · rintro a₁ b₁ a₂ (hpair | ⟨rfl, rfl, rfl⟩) (hpair' | ⟨hc, rfl, hb⟩)
      · exact (h.unique c').1 hpair hpair'
      · exact absurd (h.lt hpair).2 (by simp [hb, hc])
      · exact absurd (h.lt hpair').2 (by simp)
      · rfl
    · rintro a₁ b₁ b₂ (hpair | ⟨rfl, rfl, rfl⟩) (hpair' | ⟨hc, ha, rfl⟩)
      · exact (h.unique c').2 hpair hpair'
      · exact absurd (h.lt hpair).1 (by simp [ha, hc])
      · exact absurd (h.lt hpair').1 (by simp)
      · rfl
    · rintro c' a₁ b₁ (hpair | ⟨rfl, rfl, rfl⟩)
      · have hlt := h.lt hpair
        have hleft := (hm.keeps fun _ _ ↦ False).size_le c'
        have hright := (hm'.keeps fun _ _ ↦ False).size_le c'
        omega
      · rw [hm.size_eq, hm'.size_eq, if_pos rfl, if_pos rfl]
        omega
    · rintro c' a₁ b₁ (hpair | ⟨rfl, rfl, rfl⟩)
      · obtain ⟨ha, hb⟩ := h.lt hpair
        rw [(hm.keeps fun _ _ ↦ False).contents_eq c' a₁ ha not_false,
          (hm'.keeps fun _ _ ↦ False).contents_eq c' b₁ hb not_false]
        exact (h.contents hpair).mono fun _ _ hv ↦ hv.mono hle
      · rw [hm.contents_eq, hm'.contents_eq, if_pos ⟨rfl, rfl⟩, if_pos ⟨rfl, rfl⟩]
        exact hb.mono fun _ _ hv ↦ hv.mono hle
    · rw [hm'.beside.depth_eq, h.depth_eq, hm.beside.depth_eq]
  le := W.le_add _ _ _
  new c' a₁ b₁ := by
    rintro (hpair | ⟨rfl, rfl, rfl⟩)
    · exact .inl hpair
    · exact .inr ⟨Nat.le_refl _, Nat.le_refl _⟩
  left := hm.keeps _
  right := hm'.keeps _
  printed := ⟨[], by simp [hm.printed_eq], by simp [hm'.printed_eq]⟩

theorem Machine.Twin.write {c : Store} {a a' : Nat} {name : String} {v v' : Value} (h : m.Twin W m')
    (ha : W c a a') (hv : v.Twin W v') (hm : m.Writes c a name v m₁)
    (hm' : m'.Writes c a' name v' m₁') : Mirrored W m m' W m₁ m₁' where
  twin := by
    refine ⟨h.unique, fun hpair ↦ ?_, fun {c' a₁ b₁} hpair ↦ ?_, ?_⟩
    · rw [hm.size_eq, hm'.size_eq]
      exact h.lt hpair
    · rw [hm.contents_eq, hm'.contents_eq]
      by_cases heq : c' = c ∧ a₁ = a
      · obtain ⟨rfl, rfl⟩ := heq
        have hb : b₁ = a' := (h.unique c').2 hpair ha
        obtain ⟨hlt, hlt'⟩ := h.lt hpair
        rw [if_pos ⟨rfl, rfl, hlt⟩, if_pos ⟨rfl, hb, hlt'⟩]
        exact (h.contents hpair).set name hv
      · have hne : ¬ (c' = c ∧ b₁ = a') := by
          rintro ⟨rfl, rfl⟩
          exact heq ⟨rfl, (h.unique c').1 hpair ha⟩
        rw [if_neg (by tauto), if_neg (by tauto)]
        exact h.contents hpair
    · rw [hm'.beside.depth_eq, h.depth_eq, hm.beside.depth_eq]
  le := le_rfl
  new _ _ _ := .inl
  left := hm.keeps ⟨a', ha⟩
  right := hm'.keeps ⟨a, ha⟩
  printed := ⟨[], by simp [hm.printed_eq], by simp [hm'.printed_eq]⟩

/-- What is paired is still twins after steps of both machines that keep it. -/
theorem Machine.Twin.kept {P P' : Store → Nat → Prop} (h : m.Twin W m') (hm : m.Keeps P m₁)
    (hm' : m'.Keeps P' m₁') (hP : ∀ c a, W.Left c a → ¬ P c a) (hP' : ∀ c b, W.Right c b → ¬ P' c b) :
    m₁.Twin W m₁' := by
  refine ⟨h.unique, fun {c a b} hpair ↦ ?_, fun {c a b} hpair ↦ ?_, ?_⟩
  · have hlt := h.lt hpair
    have hleft := hm.size_le c
    have hright := hm'.size_le c
    omega
  · obtain ⟨ha, hb⟩ := h.lt hpair
    rw [hm.contents_eq c a ha (hP c a ⟨b, hpair⟩), hm'.contents_eq c b hb (hP' c b ⟨a, hpair⟩)]
    exact h.contents hpair
  · rw [hm'.beside.depth_eq, h.depth_eq, hm.beside.depth_eq]

end Machines

end TreeWalk
