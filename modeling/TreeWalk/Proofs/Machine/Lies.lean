import TreeWalk.Machine.Basic
import TreeWalk.Proofs.Scope.Effect

namespace TreeWalk

section Bindings

variable {α : Type} {b : Bindings α} {name k : String} {value : α}

theorem Bindings.contains_iff : b.contains name = true ↔ ∃ value, b.get? name = some value :=
  Option.isSome_iff_exists

theorem Bindings.contains_set :
    (b.set name value).contains k = true ↔ k = name ∨ b.contains k = true := by
  rw [contains, get?_set]
  split
  · next h => simp [h]
  · next h => simp [h, contains]

theorem Bindings.contains_ofList (entries : List (String × α)) :
    (Bindings.ofList entries).contains k = true ↔ k ∈ entries.map (·.1) := by
  have h (b : Bindings α) : (entries.foldl (fun b e ↦ b.set e.1 e.2) b).contains k = true ↔
      b.contains k = true ∨ k ∈ entries.map (·.1) := by
    induction entries generalizing b with
    | nil => simp
    | cons e entries ih =>
      rw [List.foldl_cons, ih, contains_set]
      simp [or_assoc, or_left_comm]
  rw [ofList, h .empty]
  simp [contains, get?, empty]

theorem Bindings.mem_of_get?_foldl {entries : List (String × α)}
    (b : Bindings α) (h : (entries.foldl (fun b e ↦ b.set e.1 e.2) b).get? k = some value) :
    b.get? k = some value ∨ (k, value) ∈ entries := by
  induction entries generalizing b with
  | nil => exact .inl h
  | cons e entries ih =>
    rcases ih (b.set e.1 e.2) h with h | h
    · rw [get?_set] at h
      split at h
      · next hk =>
        cases h
        exact .inr (by rw [hk]; exact .head _)
      · exact .inl h
    · exact .inr (.tail _ h)

theorem Bindings.mem_of_get?_ofList {entries : List (String × α)}
    (h : (Bindings.ofList entries).get? k = some value) : (k, value) ∈ entries := by
  rcases mem_of_get?_foldl .empty h with h | h
  · simp [empty, get?] at h
  · exact h

theorem Bindings.contains_congr {S : α → α → Prop} {b' : Bindings α} {name' : String}
    (h : Option.Rel S (b.get? name) (b'.get? name')) : b'.contains name' = b.contains name := by
  unfold contains
  generalize b.get? name = v at h ⊢
  generalize b'.get? name' = v' at h ⊢
  cases h <;> rfl

end Bindings

namespace Frames

variable {α : Type} {fs fs' fs₁ : Frames α}

/-- Frames may have been added, and names bound. -/
structure Grow (fs fs' : Frames α) : Prop where
  next_le : fs.next ≤ fs'.next
  contains : ∀ f name, (fs.bindings f).contains name = true → (fs'.bindings f).contains name = true

theorem Grow.refl (fs : Frames α) : Grow fs fs := ⟨Nat.le_refl _, fun _ _ h ↦ h⟩

theorem Grow.trans (h : Grow fs fs₁) (h' : Grow fs₁ fs') : Grow fs fs' :=
  ⟨Nat.le_trans h.next_le h'.next_le, fun f name hb ↦ h'.contains f name (h.contains f name hb)⟩

theorem get?_globals (fs : Frames α) (name : String) :
    fs.get? .globals name = (fs.bindings 0).get? name := by
  have hchain : Env.globals.chain = [0] := rfl
  unfold get?
  rw [hchain, List.findSome?_singleton]

theorem binder?_globals (fs : Frames α) (name : String) :
    fs.binder? .globals name = if (fs.bindings 0).contains name then some 0 else none := by
  have hchain : Env.globals.chain = [0] := rfl
  unfold binder?
  rw [hchain, List.find?_singleton]

theorem bindings_next (fs : Frames α) : fs.bindings fs.next = .empty := by
  simp [bindings, next]

@[simp] theorem next_push (fs : Frames α) (b : Bindings α) : (fs.push b).next = fs.next + 1 := by
  simp [next, push]

@[simp] theorem next_define (fs : Frames α) (f : FrameId) (name : String) (value : α) :
    (fs.define f name value).next = fs.next := by
  simp [next, define]

theorem grow_push (fs : Frames α) (b : Bindings α) : Grow fs (fs.push b) := by
  refine ⟨by simp, fun f name h ↦ ?_⟩
  rw [bindings_push]
  split
  · next hf =>
    rw [hf, bindings_next] at h
    exact absurd h (by simp [Bindings.contains, Bindings.get?, Bindings.empty])
  · exact h

theorem grow_define (fs : Frames α) (f : FrameId) (name : String) (value : α) :
    Grow fs (fs.define f name value) := by
  refine ⟨by simp, fun g k h ↦ ?_⟩
  rw [bindings_define]
  split
  · exact Bindings.contains_set.mpr (.inr h)
  · exact h

theorem getAt_eq {e : Env} {d : Nat} {f : FrameId} {name : String} {value : α}
    (hf : e.chain[d]? = some f) (hv : (fs.bindings f).get? name = some value) :
    fs.getAt e d name = .ok value := by
  unfold getAt Env.frameAt
  rw [hf]
  simp only [bind, Except.bind, hv]
  rfl

/-- A chain of frames lies under a stack of scopes. -/
inductive Lies (fs : Frames α) : List FrameId → List Scope → Prop
  | globals : 0 < fs.next → Lies fs [0] []
  | inside {f : FrameId} {chain : List FrameId} {scope : Scope} {scopes : List Scope} :
      f < fs.next → (∀ g ∈ chain, g < f) →
      (∀ name, scope.get? name = some true → (fs.bindings f).contains name = true) →
      Lies fs chain scopes → Lies fs (f :: chain) (scope :: scopes)

namespace Lies

variable {chain : List FrameId} {scopes : List Scope}

theorem grow (h : Lies fs chain scopes) (hg : Grow fs fs') : Lies fs' chain scopes := by
  induction h with
  | globals h => exact .globals (Nat.lt_of_lt_of_le h hg.next_le)
  | inside hf hlt hn _ ih =>
    exact .inside (Nat.lt_of_lt_of_le hf hg.next_le) hlt
      (fun name h ↦ hg.contains _ _ (hn name h)) ih

theorem length_eq (h : Lies fs chain scopes) : chain.length = scopes.length + 1 := by
  induction h with
  | globals => rfl
  | inside _ _ _ _ ih => simp [ih]

theorem lt (h : Lies fs chain scopes) : ∀ f ∈ chain, f < fs.next := by
  induction h with
  | globals h => simpa using h
  | inside hf hlt _ _ _ =>
    intro g hg
    rcases List.mem_cons.mp hg with rfl | hg
    · exact hf
    · exact Nat.lt_trans (hlt g hg) hf

/-- Each frame of a chain was made after those behind it. -/
theorem pairwise (h : Lies fs chain scopes) : chain.Pairwise (· > ·) := by
  induction h with
  | globals => exact List.pairwise_singleton _ _
  | inside _ hlt _ _ ih => exact List.pairwise_cons.mpr ⟨hlt, ih⟩

/-- The frames of the scopes are all different from the globals, which come last. -/
theorem eq_append (h : Lies fs chain scopes) :
    ∃ inner, chain = inner ++ [0] ∧ inner.length = scopes.length ∧ ∀ f ∈ inner, f ≠ 0 := by
  induction h with
  | globals => exact ⟨[], rfl, rfl, by simp⟩
  | @inside f chain scope scopes _ hlt _ _ ih =>
    obtain ⟨inner, rfl, hlen, hne⟩ := ih
    refine ⟨f :: inner, rfl, by simp [hlen], ?_⟩
    have hf : 0 < f := hlt 0 (by simp)
    simpa using ⟨Nat.ne_of_gt hf, hne⟩

theorem contains (h : Lies fs chain scopes) :
    ∀ {i : Nat} {scope : Scope}, scopes[i]? = some scope →
      ∃ f, chain[i]? = some f ∧
        ∀ name, scope.get? name = some true → (fs.bindings f).contains name = true := by
  induction h with
  | globals => simp
  | @inside f chain s scopes _ _ hn _ ih =>
    intro i scope hi
    cases i with
    | zero =>
      cases hi
      exact ⟨f, rfl, hn⟩
    | succ i => exact ih hi

theorem push {b : Bindings α} {scope : Scope} (h : Lies fs chain scopes)
    (hb : ∀ name, scope.get? name = some true → b.contains name = true) :
    Lies (fs.push b) (fs.next :: chain) (scope :: scopes) := by
  refine .inside (by simp) h.lt (fun name hn ↦ ?_) (h.grow (grow_push fs b))
  rw [bindings_push, if_pos rfl]
  exact hb name hn

theorem define {e : Env} (h : Lies fs e.chain scopes) (name : String) (value : α) :
    Lies (fs.define e.frame name value) e.chain (declareIn name scopes) := by
  have hgrow := grow_define fs e.frame name value
  cases scopes with
  | nil => exact h.grow hgrow
  | cons scope outer =>
    obtain ⟨frame, chain⟩ := e
    cases h with
    | inside hf hlt hn h =>
      refine .inside (by simpa using hf) hlt (fun k hk ↦ ?_) (h.grow hgrow)
      rw [bindings_define, if_pos ⟨rfl, hf⟩, Bindings.contains_set]
      rw [get?_declare] at hk
      split at hk
      · next h => exact .inl h
      · exact .inr (hn k hk)

theorem pending {name : String} (h : Lies fs chain scopes) :
    Lies fs chain (markIn name false scopes) := by
  cases h with
  | globals h => exact .globals h
  | inside hf hlt hn h =>
    refine .inside hf hlt (fun k hk ↦ hn k ?_) h
    rw [Bindings.get?_set] at hk
    split at hk
    · cases hk
    · exact hk

theorem parameters {b : Bindings α} {ts : List Token} (h : Lies fs chain scopes)
    (hb : ∀ t ∈ ts, b.contains t.lexeme = true) :
    Lies (fs.push b) (fs.next :: chain)
      (ts.foldl (fun scopes t ↦ declareIn t.lexeme scopes) (.empty :: scopes)) := by
  have hfold (ts : List Token) (scope : Scope) : ∃ scope' : Scope,
      ts.foldl (fun scopes t ↦ declareIn t.lexeme scopes) (scope :: scopes) = scope' :: scopes ∧
        ∀ name, scope'.get? name = some true →
          scope.get? name = some true ∨ ∃ t ∈ ts, t.lexeme = name := by
    induction ts generalizing scope with
    | nil => exact ⟨scope, rfl, fun _ ↦ .inl⟩
    | cons t ts ih =>
      obtain ⟨scope', he, hn⟩ := ih ((scope.set t.lexeme false).set t.lexeme true)
      refine ⟨scope', he, fun name h ↦ ?_⟩
      rcases hn name h with h | ⟨t', ht', h⟩
      · rw [get?_declare] at h
        split at h
        · next hname => exact .inr ⟨t, .head _, hname.symm⟩
        · exact .inl h
      · exact .inr ⟨t', .tail _ ht', h⟩
  obtain ⟨scope, he, hn⟩ := hfold ts .empty
  rw [he]
  refine h.push fun name hname ↦ ?_
  rcases hn name hname with h | ⟨t, ht, rfl⟩
  · simp [Bindings.empty, Bindings.get?] at h
  · exact hb t ht

end Lies

end Frames

end TreeWalk
