import Mathlib.Data.Int.Notation
import Mathlib.Data.Nat.Find
import Mathlib.Order.Bounds.Defs
import TreeWalk.Proofs.Machine.Lies

namespace TreeWalk

variable {α : Type}

namespace Frames

/-- At a distance from an environment stands a frame that binds a name. -/
def BindsAt (fs : Frames α) (e : Env) (name : String) (d : ℕ) : Prop :=
  ∃ f, e.chain[d]? = some f ∧ (fs.bindings f).contains name = true

def Binds (fs : Frames α) (e : Env) (name : String) : Prop :=
  ∃ f ∈ e.chain, (fs.bindings f).contains name = true

section Nearest

variable {fs : Frames α} {e : Env} {name : String} {d : ℕ}

theorem get?_eq_bind (fs : Frames α) (e : Env) (name : String) :
    fs.get? e name = (fs.binder? e name).bind fun f ↦ (fs.bindings f).get? name := by
  unfold get? binder?
  induction e.chain with
  | nil => rfl
  | cons f chain ih =>
    rw [List.findSome?_cons, List.find?_cons, Bindings.contains, ih]
    cases hf : (fs.bindings f).get? name with
    | none => rfl
    | some v => exact hf.symm

theorem binder?_isSome : (fs.binder? e name).isSome = true ↔ fs.Binds e name := List.find?_isSome

theorem get?_isSome : (fs.get? e name).isSome = true ↔ fs.Binds e name := by
  rw [get?, List.findSome?_isSome_iff]
  rfl

theorem Binds.exists_least (h : fs.Binds e name) : ∃ d, IsLeast {d | fs.BindsAt e name d} d := by
  classical
  obtain ⟨f, hf, hbinds⟩ := h
  obtain ⟨d, hd⟩ := List.mem_iff_getElem?.mp hf
  have hsome : ∃ d, fs.BindsAt e name d := ⟨d, f, hd, hbinds⟩
  exact ⟨Nat.find hsome, Nat.find_spec hsome, fun _ ↦ Nat.find_min' hsome⟩

/-- The nearest frame is the one at the least distance. -/
theorem binder?_of_least (h : IsLeast {d | fs.BindsAt e name d} d) :
    ∃ f, e.chain[d]? = some f ∧ (fs.bindings f).contains name = true ∧ fs.binder? e name = some f := by
  obtain ⟨⟨f, hf, hbinds⟩, hleast⟩ := h
  obtain ⟨hd, rfl⟩ := List.getElem?_eq_some_iff.mp hf
  refine ⟨_, hf, hbinds, List.find?_eq_some_iff_getElem.mpr ⟨hbinds, d, hd, rfl, fun d' hlt ↦ ?_⟩⟩
  have hfree : ¬ fs.BindsAt e name d' := fun hbinds' ↦ Nat.not_lt_of_le (hleast hbinds') hlt
  refine Bool.not_eq_true' _ ▸ Bool.eq_false_iff.mpr fun hbinds' ↦ hfree ⟨_, ?_, hbinds'⟩
  exact List.getElem?_eq_getElem _

end Nearest

section Write

variable {fs : Frames α} {f : FrameId} (hf : f < fs.next) (name : String) (value : α)
include hf

theorem get?_bindings_define (g : FrameId) (k : String) :
    ((fs.define f name value).bindings g).get? k =
      if k = name ∧ g = f then some value else (fs.bindings g).get? k := by
  rw [bindings_define]
  by_cases hg : g = f
  · subst hg
    rw [if_pos ⟨rfl, hf⟩, Bindings.get?_set]
    simp
  · rw [if_neg fun h ↦ hg h.1, if_neg fun h ↦ hg h.2]

theorem get?_define (e : Env) (k : String) : (fs.define f name value).get? e k =
    if k = name ∧ (fs.define f name value).binder? e name = some f then some value else fs.get? e k := by
  have hread := get?_bindings_define hf name value
  unfold get? binder?
  by_cases hk : k = name
  · subst hk
    induction e.chain with
    | nil => simp
    | cons g chain ih =>
      rw [List.findSome?_cons, List.findSome?_cons, List.find?_cons, Bindings.contains, hread, ih]
      by_cases hg : g = f
      · simp [hg]
      · cases hv : (fs.bindings g).get? k <;> simp [hg]
  · simp only [hread, hk, false_and, if_false]

/-- A write to a name that the frame binds leaves it to the same frames which lookups find. -/
theorem binder?_define (hbinds : (fs.bindings f).contains name = true) (e : Env) (k : String) :
    (fs.define f name value).binder? e k = fs.binder? e k := by
  unfold binder?
  congr 1
  funext g
  rw [Bindings.contains, get?_bindings_define hf]
  split
  · next h => rw [h.1, h.2, hbinds, Option.isSome_some]
  · rfl

theorem getAt_define (e : Env) (d : ℕ) (k : String) : (fs.define f name value).getAt e d k =
    if k = name ∧ e.chain[d]? = some f then .ok value else fs.getAt e d k := by
  unfold getAt Env.frameAt
  cases hg : e.chain[d]? with
  | none => simp [bind, Except.bind]
  | some g =>
    have hread := get?_bindings_define hf name value g k
    simp only [bind, Except.bind, hread, Option.some.injEq]
    by_cases h : k = name ∧ g = f
    · rw [if_pos h, if_pos h]
      rfl
    · rw [if_neg h, if_neg h]

end Write

end Frames

/-- Environments in the order in which they were made, and the store of their frames. -/
structure Forest (α : Type) where
  envs : List Env := []
  frames : Frames α := {}

namespace Forest

/-- What can be asked for. Environments go by their number. -/
inductive Request (α : Type) where
  | new (parent : Option ℕ)
  | define (env : ℕ) (name : String) (value : α)
  | get (env : ℕ) (name : String)
  | assign (env : ℕ) (name : String) (value : α)
  /-- A distance below zero counts as zero. -/
  | getAt (env : ℕ) (distance : ℤ) (name : String)
  | assignAt (env : ℕ) (distance : ℤ) (name : String) (value : α)
  | ancestor (env : ℕ) (distance : ℤ)

inductive Answer (α : Type) where
  | done
  | env (number : ℕ)
  | value (v : α)

inductive Failure where
  | noEnvironment (number : ℕ)
  | undefined (name : String)
  | misfit (m : Misfit)

/-- What comes of a request: an answer or a failure, and the forest that is left. -/
abbrev Result (α : Type) := EStateM.Result Failure (Forest α) (Answer α)

section Perform

variable (f : Forest α)

def grow (outer : List FrameId) : Result α :=
  .ok (.env f.envs.length) ⟨f.envs ++ [⟨f.frames.next, outer⟩], f.frames.push .empty⟩

def withEnv (i : ℕ) (act : Env → Result α) : Result α :=
  match f.envs[i]? with
  | some e => act e
  | none => .error (.noEnvironment i) f

def lookup (e : Env) (name : String) : Result α :=
  match f.frames.get? e name with
  | some v => .ok (.value v) f
  | none => .error (.undefined name) f

def assign (e : Env) (name : String) (value : α) : Result α :=
  match f.frames.assign? e name value with
  | some frames => .ok .done { f with frames }
  | none => .error (.undefined name) f

def lookupAt (e : Env) (hops : ℕ) (name : String) : Result α :=
  match f.frames.getAt e hops name with
  | .ok v => .ok (.value v) f
  | .error m => .error (.misfit m) f

def assignAt (e : Env) (hops : ℕ) (name : String) (value : α) : Result α :=
  match f.frames.setAt e hops name value with
  | .ok frames => .ok .done { f with frames }
  | .error m => .error (.misfit m) f

def ancestor (e : Env) (hops : ℕ) : Result α :=
  match e.frameAt hops with
  | .ok frame => .ok (.env frame) f
  | .error m => .error (.misfit m) f

def perform : Request α → Result α
  | .new none => f.grow []
  | .new (some i) => f.withEnv i fun e ↦ f.grow e.chain
  | .define i name value => f.withEnv i fun e ↦
    .ok .done { f with frames := f.frames.define e.frame name value }
  | .get i name => f.withEnv i fun e ↦ f.lookup e name
  | .assign i name value => f.withEnv i fun e ↦ f.assign e name value
  | .getAt i distance name => f.withEnv i fun e ↦ f.lookupAt e distance.toNat name
  | .assignAt i distance name value => f.withEnv i fun e ↦ f.assignAt e distance.toNat name value
  | .ancestor i distance => f.withEnv i fun e ↦ f.ancestor e distance.toNat

def after (r : Request α) : Forest α :=
  match f.perform r with
  | .ok _ f' | .error _ f' => f'

end Perform

/-- The forest that some requests make, from the first to the last. -/
def ofRequests (requests : List (Request α)) : Forest α := requests.foldl after {}

section Rooted

variable {f f' : Forest α} {i : ℕ} {e : Env}

/-- Each environment has the number of its own frame, and around it the frames of one made before, if any. -/
structure Rooted (f : Forest α) : Prop where
  length_eq : f.envs.length = f.frames.next
  frame_eq : ∀ (i : ℕ) (e : Env), f.envs[i]? = some e → e.frame = i
  outer_eq : ∀ (i : ℕ) (e : Env), f.envs[i]? = some e →
    e.outer = [] ∨ ∃ (j : ℕ) (p : Env), j < i ∧ f.envs[j]? = some p ∧ e.outer = p.chain

/-- What stands at a distance from an environment is an environment, with the frames from there on. -/
theorem Rooted.chain_drop (h : f.Rooted) (he : f.envs[i]? = some e) {d : ℕ} {g : FrameId}
    (hg : e.chain[d]? = some g) : ∃ p, f.envs[g]? = some p ∧ p.chain = e.chain.drop d := by
  induction i using Nat.strongRecOn generalizing e d with
  | _ i ih =>
    cases d with
    | zero =>
      obtain rfl : e.frame = g := Option.some.inj hg
      exact ⟨e, by rw [h.frame_eq i e he, he], rfl⟩
    | succ d =>
      have houter : e.outer[d]? = some g := hg
      rcases h.outer_eq i e he with hnil | ⟨j, p, hj, hp, hchain⟩
      · rw [hnil] at houter
        cases houter
      · rw [hchain] at houter
        obtain ⟨q, hq, hdrop⟩ := ih j hj hp houter
        exact ⟨q, hq, by rw [hdrop, ← hchain]; rfl⟩

theorem Rooted.lt_next (h : f.Rooted) (he : f.envs[i]? = some e) {g : FrameId} (hg : g ∈ e.chain) :
    g < f.frames.next := by
  obtain ⟨d, hd, rfl⟩ := List.getElem_of_mem hg
  obtain ⟨p, hp, -⟩ := h.chain_drop he (List.getElem?_eq_getElem hd)
  rw [← h.length_eq]
  exact (List.getElem?_eq_some_iff.mp hp).1

theorem rooted_grow (h : f.Rooted) {outer : List FrameId}
    (houter : outer = [] ∨ ∃ (j : ℕ) (p : Env), f.envs[j]? = some p ∧ outer = p.chain) :
    Rooted ⟨f.envs ++ [⟨f.frames.next, outer⟩], f.frames.push .empty⟩ := by
  have hcases {i : ℕ} {e : Env} (he : (f.envs ++ [⟨f.frames.next, outer⟩])[i]? = some e) :
      f.envs[i]? = some e ∨ i = f.envs.length ∧ e = ⟨f.frames.next, outer⟩ := by
    rw [List.getElem?_append] at he
    split at he
    · exact .inl he
    · obtain ⟨hi, rfl⟩ := List.getElem?_eq_some_iff.mp he
      rw [List.length_singleton] at hi
      exact .inr ⟨by omega, by simp⟩
  have hold {j : ℕ} {p : Env} (hp : f.envs[j]? = some p) :
      j < f.envs.length ∧ (f.envs ++ [⟨f.frames.next, outer⟩])[j]? = some p := by
    have hj := (List.getElem?_eq_some_iff.mp hp).1
    exact ⟨hj, by rw [List.getElem?_append_left hj, hp]⟩
  refine ⟨?_, fun i e he ↦ ?_, fun i e he ↦ ?_⟩
  · rw [List.length_append, h.length_eq, Frames.next_push, List.length_singleton]
  · rcases hcases he with he | ⟨rfl, rfl⟩
    · exact h.frame_eq i e he
    · exact h.length_eq.symm
  · rcases hcases he with he | ⟨rfl, rfl⟩
    · refine (h.outer_eq i e he).imp_right ?_
      rintro ⟨j, p, hj, hp, hchain⟩
      exact ⟨j, p, hj, (hold hp).2, hchain⟩
    · refine houter.imp_right ?_
      rintro ⟨j, p, hp, hchain⟩
      exact ⟨j, p, (hold hp).1, (hold hp).2, hchain⟩

theorem rooted_define (h : f.Rooted) (g : FrameId) (name : String) (value : α) :
    Rooted { f with frames := f.frames.define g name value } :=
  ⟨h.length_eq.trans (Frames.next_define _ _ _ _).symm, h.frame_eq, h.outer_eq⟩

end Rooted

section Perform

variable {f f' : Forest α} {i : ℕ} {e : Env} {name : String} {value : α}

/-- What can come of a request: a failure, which leaves the forest as it was, or an answer, with at most an
environment more or one name written. -/
inductive Comes (f : Forest α) : Result α → Prop
  | failed (failure : Failure) : f.Comes (.error failure f)
  | answered (answer : Answer α) : f.Comes (.ok answer f)
  | grown {outer : List FrameId} :
      (outer = [] ∨ ∃ (j : ℕ) (p : Env), f.envs[j]? = some p ∧ outer = p.chain) → f.Comes (f.grow outer)
  | written (g : FrameId) (name : String) (value : α) :
      f.Comes (.ok .done { f with frames := f.frames.define g name value })

theorem withEnv_comes {act : Env → Result α} (h : ∀ e, f.envs[i]? = some e → f.Comes (act e)) :
    f.Comes (f.withEnv i act) := by
  unfold withEnv
  cases he : f.envs[i]? with
  | none => exact .failed _
  | some e => exact h e he

theorem lookup_comes (f : Forest α) (e : Env) (name : String) : f.Comes (f.lookup e name) := by
  unfold lookup
  split
  · exact .answered _
  · exact .failed _

theorem assign_comes (f : Forest α) (e : Env) (name : String) (value : α) :
    f.Comes (f.assign e name value) := by
  unfold assign Frames.assign?
  cases f.frames.binder? e name with
  | none => exact .failed _
  | some g => exact .written g name value

theorem lookupAt_comes (f : Forest α) (e : Env) (hops : ℕ) (name : String) :
    f.Comes (f.lookupAt e hops name) := by
  unfold lookupAt
  split
  · exact .answered _
  · exact .failed _

theorem assignAt_comes (f : Forest α) (e : Env) (hops : ℕ) (name : String) (value : α) :
    f.Comes (f.assignAt e hops name value) := by
  unfold assignAt Frames.setAt
  cases e.frameAt hops with
  | error m => exact .failed _
  | ok g => exact .written g name value

theorem ancestor_comes (f : Forest α) (e : Env) (hops : ℕ) : f.Comes (f.ancestor e hops) := by
  unfold ancestor
  split
  · exact .answered _
  · exact .failed _

theorem perform_comes (f : Forest α) (r : Request α) : f.Comes (f.perform r) := by
  cases r with
  | new parent =>
    cases parent with
    | none => exact .grown (.inl rfl)
    | some i => exact withEnv_comes fun e he ↦ .grown (.inr ⟨i, e, he, rfl⟩)
  | define i name value => exact withEnv_comes fun e _ ↦ .written e.frame name value
  | get i name => exact withEnv_comes fun e _ ↦ f.lookup_comes e name
  | assign i name value => exact withEnv_comes fun e _ ↦ f.assign_comes e name value
  | getAt i distance name => exact withEnv_comes fun e _ ↦ f.lookupAt_comes e distance.toNat name
  | assignAt i distance name value =>
    exact withEnv_comes fun e _ ↦ f.assignAt_comes e distance.toNat name value
  | ancestor i distance => exact withEnv_comes fun e _ ↦ f.ancestor_comes e distance.toNat

theorem perform_failed {r : Request α} {failure : Failure} (h : f.perform r = .error failure f') :
    f' = f := by
  have hcomes := f.perform_comes r
  rw [h] at hcomes
  cases hcomes
  rfl

theorem rooted_after (h : f.Rooted) (r : Request α) : (f.after r).Rooted := by
  have hcomes := f.perform_comes r
  unfold after
  revert hcomes
  generalize f.perform r = result
  intro hcomes
  cases hcomes with
  | failed | answered => exact h
  | grown houter => exact rooted_grow h houter
  | written g name value => exact rooted_define h g name value

theorem rooted_ofRequests (requests : List (Request α)) : (ofRequests requests).Rooted := by
  have hrun (f : Forest α) (h : f.Rooted) : (requests.foldl after f).Rooted := by
    induction requests generalizing f with
    | nil => exact h
    | cons r requests ih => exact ih _ (rooted_after h r)
  exact hrun {} ⟨rfl, by simp, by simp⟩

end Perform

section Written

variable {f f' : Forest α} {i : ℕ} {e : Env} {name : String} {value : α}

/-- How one forest differs from another after a write of a name in a frame. A lookup has the new value if it is
of that name and goes to that frame, and its old result if not. Lookups go to the same frames as before, but for
those of a name that is new in the frame. -/
structure Written (f : Forest α) (g : FrameId) (name : String) (value : α) (f' : Forest α) : Prop where
  envs_eq : f'.envs = f.envs
  get?_eq : ∀ (e : Env) (k : String), f'.frames.get? e k =
    if k = name ∧ f'.frames.binder? e name = some g then some value else f.frames.get? e k
  getAt_eq : ∀ (e : Env) (d : ℕ) (k : String), f'.frames.getAt e d k =
    if k = name ∧ e.chain[d]? = some g then .ok value else f.frames.getAt e d k
  binder?_eq : (f.frames.bindings g).contains name = true →
    ∀ (e : Env) (k : String), f'.frames.binder? e k = f.frames.binder? e k

theorem written_define {g : FrameId} (hg : g < f.frames.next) (name : String) (value : α) :
    f.Written g name value { f with frames := f.frames.define g name value } :=
  ⟨rfl, Frames.get?_define hg name value, Frames.getAt_define hg name value,
    Frames.binder?_define hg name value⟩

theorem perform_get (he : f.envs[i]? = some e) : f.perform (.get i name) = f.lookup e name := by
  rw [perform, withEnv, he]

theorem perform_assign (he : f.envs[i]? = some e) :
    f.perform (.assign i name value) = f.assign e name value := by
  rw [perform, withEnv, he]

theorem perform_getAt (he : f.envs[i]? = some e) (d : ℤ) :
    f.perform (.getAt i d name) = f.lookupAt e d.toNat name := by
  rw [perform, withEnv, he]

theorem perform_assignAt (he : f.envs[i]? = some e) (d : ℤ) :
    f.perform (.assignAt i d name value) = f.assignAt e d.toNat name value := by
  rw [perform, withEnv, he]

theorem frameAt_eq_ok {d : ℕ} {g : FrameId} : e.frameAt d = .ok g ↔ e.chain[d]? = some g := by
  unfold Env.frameAt
  cases e.chain[d]? <;> simp

/-- Where the least distance is known, looking outwards and going there come to the same. -/
theorem lookup_least {d : ℕ} (hd : IsLeast {d | f.frames.BindsAt e name d} d) :
    f.lookup e name = f.lookupAt e d name := by
  obtain ⟨g, hg, hbinds, hbinder⟩ := Frames.binder?_of_least hd
  obtain ⟨v, hv⟩ := Bindings.contains_iff.mp hbinds
  rw [lookup, Frames.get?_eq_bind, hbinder, Option.bind_some, hv, lookupAt, Frames.getAt_eq hg hv]

theorem assign_least {d : ℕ} (hd : IsLeast {d | f.frames.BindsAt e name d} d) (value : α) :
    f.assign e name value = f.assignAt e d name value := by
  obtain ⟨g, hg, -, hbinder⟩ := Frames.binder?_of_least hd
  rw [assign, Frames.assign?, hbinder, assignAt, Frames.setAt, frameAt_eq_ok.mpr hg]
  rfl

theorem lookup_succeeds : (∃ v, f.lookup e name = .ok (.value v) f) ↔ f.frames.Binds e name := by
  rw [← Frames.get?_isSome, lookup]
  cases f.frames.get? e name <;> simp

theorem assign_succeeds : (∃ f', f.assign e name value = .ok .done f') ↔ f.frames.Binds e name := by
  rw [← Frames.binder?_isSome, assign, Frames.assign?]
  cases f.frames.binder? e name <;> simp

theorem written_assign (h : f.Rooted) (he : f.envs[i]? = some e)
    (hdone : f.assign e name value = .ok .done f') :
    ∃ g, f.frames.binder? e name = some g ∧ (f.frames.bindings g).contains name = true ∧
      f.Written g name value f' := by
  unfold assign Frames.assign? at hdone
  cases hg : f.frames.binder? e name with
  | none =>
    rw [hg] at hdone
    cases hdone
  | some g =>
    rw [hg] at hdone
    cases hdone
    have hfound : e.chain.find? (fun g ↦ (f.frames.bindings g).contains name) = some g := hg
    have hchain : g ∈ e.chain := List.mem_of_find?_eq_some hfound
    have hbinds := List.find?_some hfound
    exact ⟨g, rfl, hbinds, written_define (h.lt_next he hchain) name value⟩

theorem written_assignAt (h : f.Rooted) (he : f.envs[i]? = some e) {d : ℕ}
    (hdone : f.assignAt e d name value = .ok .done f') :
    ∃ g, e.chain[d]? = some g ∧ f.Written g name value f' := by
  unfold assignAt Frames.setAt at hdone
  cases hg : e.frameAt d with
  | error m =>
    rw [hg] at hdone
    cases hdone
  | ok g =>
    rw [hg] at hdone
    cases hdone
    have hchain := frameAt_eq_ok.mp hg
    exact ⟨g, hchain, written_define (h.lt_next he (List.mem_of_getElem? hchain)) name value⟩

/-- In a forest that any requests have made, a name is found from an environment, to read or to write it, just
if a frame of the environment binds it, and then with the same outcome as at the least distance where one does.
A write is seen by those lookups alone that find the frame it goes to; and what fails changes nothing. -/
theorem access_agrees (requests : List (Request α)) :
    let f := ofRequests requests
    (∀ (i : ℕ) (e : Env) (name : String), f.envs[i]? = some e →
      ((∃ v, f.perform (.get i name) = .ok (.value v) f) ↔ f.frames.Binds e name) ∧
      (∀ value, (∃ f', f.perform (.assign i name value) = .ok .done f') ↔ f.frames.Binds e name) ∧
      (f.frames.Binds e name → ∃ d : ℕ, IsLeast {d | f.frames.BindsAt e name d} d ∧
        f.perform (.get i name) = f.perform (.getAt i d name) ∧
        ∀ value, f.perform (.assign i name value) = f.perform (.assignAt i d name value))) ∧
    (∀ (i : ℕ) (e : Env) (name : String) (value : α) (f' : Forest α), f.envs[i]? = some e →
      f.perform (.assign i name value) = .ok .done f' →
      ∃ g, f.frames.binder? e name = some g ∧ (f.frames.bindings g).contains name = true ∧
        f.Written g name value f') ∧
    (∀ (i : ℕ) (e : Env) (distance : ℤ) (name : String) (value : α) (f' : Forest α),
      f.envs[i]? = some e → f.perform (.assignAt i distance name value) = .ok .done f' →
      ∃ g, e.chain[distance.toNat]? = some g ∧ f.Written g name value f') ∧
    ∀ (r : Request α) (failure : Failure) (f' : Forest α), f.perform r = .error failure f' → f' = f := by
  intro f
  have hrooted : f.Rooted := rooted_ofRequests requests
  refine ⟨fun i e name he ↦ ⟨?_, fun value ↦ ?_, fun hbinds ↦ ?_⟩, fun i e name value f' he hdone ↦ ?_,
    fun i e distance name value f' he hdone ↦ ?_, fun r failure f' ↦ perform_failed⟩
  · rw [perform_get he]
    exact lookup_succeeds
  · rw [perform_assign he]
    exact assign_succeeds
  · obtain ⟨d, hd⟩ := hbinds.exists_least
    refine ⟨d, hd, ?_, fun value ↦ ?_⟩
    · rw [perform_get he, perform_getAt he]
      exact lookup_least hd
    · rw [perform_assign he, perform_assignAt he]
      exact assign_least hd value
  · rw [perform_assign he] at hdone
    exact written_assign hrooted he hdone
  · rw [perform_assignAt he] at hdone
    exact written_assignAt hrooted he hdone

def shadowed : List (Request ℕ) := [.new none, .define 0 "a" 1, .new (some 0), .define 1 "a" 2]

theorem shadowed_agrees : ∃ f', (ofRequests shadowed).perform (.assign 1 "a" 3) = .ok .done f' ∧
    (ofRequests shadowed).Written 1 "a" 3 f' ∧ f'.perform (.get 1 "a") = .ok (.value 3) f' ∧
    f'.perform (.get 0 "a") = .ok (.value 1) f' := by
  obtain ⟨-, hassign, -⟩ := access_agrees shadowed
  obtain ⟨g, hbinder, -, hwritten⟩ := hassign 1 ⟨1, [0]⟩ "a" 3 _ rfl rfl
  obtain rfl : 1 = g := Option.some.inj hbinder
  exact ⟨_, rfl, hwritten, rfl, rfl⟩

end Written

end Forest

end TreeWalk
