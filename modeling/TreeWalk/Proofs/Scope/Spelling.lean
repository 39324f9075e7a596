import TreeWalk.Proofs.Scope.Effect
import TreeWalk.Proofs.Tree.Respelled

namespace TreeWalk

section Spelling

variable {x y : String}

theorem spelling_inj {anew anew' : Bool} {n k : String} (hn : n ≠ y) (hk : k ≠ y)
    (h : spelling x y anew n = spelling x y anew' k) : n = k := by
  unfold spelling at h
  split at h <;> split at h
  · next hn hk => exact hn.2.trans hk.2.symm
  · exact absurd h.symm hk
  · exact absurd h hn
  · exact h

end Spelling

section Bindings

variable {α : Type}

def Bindings.Respelled (x y : String) (anew : Bool) (S : α → α → Prop) (b b' : Bindings α) : Prop :=
  List.Forall₂ (fun e e' ↦ e.1 ≠ y ∧ e'.1 = spelling x y anew e.1 ∧ S e.2 e'.2) b.entries b'.entries

namespace Bindings.Respelled

variable {x y name : String} {anew : Bool} {S : α → α → Prop} {b b' : Bindings α}

theorem empty : Respelled x y anew S .empty .empty := .nil

theorem get? (h : Respelled x y anew S b b') (hname : name ≠ y) :
    Option.Rel S (b.get? name) (b'.get? (spelling x y anew name)) := by
  obtain ⟨entries⟩ := b
  obtain ⟨entries'⟩ := b'
  unfold Respelled at h
  unfold Bindings.get?
  dsimp only at h ⊢
  induction h with
  | nil => exact .none
  | @cons e e' _ _ he _ ih =>
    obtain ⟨k, v⟩ := e
    obtain ⟨k', v'⟩ := e'
    obtain ⟨hk, rfl, hv⟩ := he
    rw [lookup_cons, lookup_cons]
    by_cases hnk : name = k
    · rw [if_pos hnk, if_pos (by rw [hnk])]
      exact .some hv
    · rw [if_neg hnk, if_neg fun heq ↦ hnk (spelling_inj hname hk heq)]
      exact ih

theorem contains_eq (h : Respelled x y anew S b b') (hname : name ≠ y) :
    b'.contains (spelling x y anew name) = b.contains name := by
  have hget := h.get? hname
  unfold contains
  generalize b.get? name = v at hget ⊢
  generalize b'.get? (spelling x y anew name) = v' at hget ⊢
  cases hget <;> rfl

theorem not_contains {anew' : Bool} (h : Respelled x y anew S b b') (hname : name ≠ y)
    (hnot : b.contains name = false) : b'.contains (spelling x y anew' name) = false := by
  obtain ⟨entries⟩ := b
  obtain ⟨entries'⟩ := b'
  unfold Respelled at h
  unfold contains Bindings.get? at hnot ⊢
  dsimp only at h hnot ⊢
  induction h with
  | nil => rfl
  | @cons e e' _ _ he _ ih =>
    obtain ⟨k, v⟩ := e
    obtain ⟨k', v'⟩ := e'
    obtain ⟨hk, rfl, -⟩ := he
    rw [lookup_cons] at hnot ⊢
    by_cases hnk : name = k
    · rw [if_pos hnk] at hnot
      cases hnot
    · rw [if_neg hnk] at hnot
      rw [if_neg fun heq ↦ hnk (spelling_inj hname hk heq)]
      exact ih hnot

theorem set {v v' : α} (h : Respelled x y anew S b b') (hname : name ≠ y) (hv : S v v') :
    Respelled x y anew S (b.set name v) (b'.set (spelling x y anew name) v') := by
  obtain ⟨entries⟩ := b
  obtain ⟨entries'⟩ := b'
  unfold Respelled at h ⊢
  unfold Bindings.set
  dsimp only at h ⊢
  induction h with
  | nil => exact .cons ⟨hname, rfl, hv⟩ .nil
  | @cons e e' _ _ he hes ih =>
    obtain ⟨k, w⟩ := e
    obtain ⟨k', w'⟩ := e'
    obtain ⟨hk, rfl, hw⟩ := he
    unfold setIn
    by_cases hkn : k = name
    · rw [if_pos hkn, if_pos (by rw [hkn])]
      exact .cons ⟨hk, rfl, hv⟩ hes
    · rw [if_neg hkn, if_neg fun heq ↦ hkn (spelling_inj hk hname heq)]
      exact .cons ⟨hk, rfl, hw⟩ ih

theorem ofList {entries entries' : List (String × α)}
    (h : List.Forall₂ (fun e e' ↦ e.1 ≠ y ∧ e'.1 = spelling x y anew e.1 ∧ S e.2 e'.2)
      entries entries') : Respelled x y anew S (.ofList entries) (.ofList entries') := by
  have hfold : ∀ b b' : Bindings α, Respelled x y anew S b b' →
      Respelled x y anew S (entries.foldl (fun b e ↦ b.set e.1 e.2) b)
        (entries'.foldl (fun b e ↦ b.set e.1 e.2) b') := by
    induction h with
    | nil => exact fun _ _ hb ↦ hb
    | @cons e e' _ _ he _ ih =>
      intro b b' hb
      obtain ⟨k, v⟩ := e
      obtain ⟨k', v'⟩ := e'
      obtain ⟨hk, rfl, hv⟩ := he
      exact ih _ _ (hb.set hk hv)
  exact hfold _ _ .empty

theorem mono {T : α → α → Prop} (h : Respelled x y anew S b b') (hST : ∀ v v', S v v' → T v v') :
    Respelled x y anew T b b' :=
  List.Forall₂.imp (fun _ _ he ↦ ⟨he.1, he.2.1, hST _ _ he.2.2⟩) h

end Bindings.Respelled

end Bindings

section Scopes

open Resolving

variable {x y : String} {marks : List Bool} {scopes scopes' : List Scope}

/-- Scopes that are respelled where they are marked. -/
inductive ScopesRespelled (x y : String) : List Bool → List Scope → List Scope → Prop
  | nil : ScopesRespelled x y [] [] []
  | cons {anew : Bool} {marks : List Bool} {scope scope' : Scope} {scopes scopes' : List Scope} :
      scope.Respelled x y anew Eq scope' → ScopesRespelled x y marks scopes scopes' →
      ScopesRespelled x y (anew :: marks) (scope :: scopes) (scope' :: scopes')

/-- A name is bound to the same scope if it is spelled as this scope demands. -/
theorem ScopesRespelled.hops?_eq {name : String} (h : ScopesRespelled x y marks scopes scopes')
    (hname : name ≠ y) :
    hops? scopes' (spelling x y (markAt marks (hops? scopes name)) name) = hops? scopes name := by
  induction h with
  | nil => rfl
  | @cons anew marks scope scope' scopes scopes' hs _ ih =>
    unfold hops? at ih ⊢
    rw [List.findIdx?_cons, List.findIdx?_cons]
    cases hc : scope.contains name with
    | true =>
      have hhere : markAt (anew :: marks) (some 0) = anew := rfl
      rw [if_pos rfl, hhere, hs.contains_eq hname, hc, if_pos rfl]
    | false =>
      have hmark : markAt (anew :: marks)
          ((scopes.findIdx? (·.contains name)).map (· + 1)) =
          markAt marks (scopes.findIdx? (·.contains name)) := by
        cases scopes.findIdx? (·.contains name) <;> rfl
      rw [if_neg Bool.false_ne_true, hmark, hs.not_contains hname hc, if_neg Bool.false_ne_true, ih]

theorem ScopesRespelled.head {name : String} (h : ScopesRespelled x y marks scopes scopes')
    (hname : name ≠ y) (hhead : ∀ scope ∈ scopes.head?, scope.get? name ≠ some false) :
    ∀ scope ∈ scopes'.head?,
      scope.get? (spelling x y (markAt marks (hops? scopes name)) name) ≠ some false := by
  cases h with
  | nil => simp
  | @cons anew marks scope scope' scopes scopes' hs _ =>
    rintro _ ⟨⟩ hfalse
    cases hc : scope.contains name with
    | true =>
      have hhere : markAt (anew :: marks) (hops? (scope :: scopes) name) = anew := by
        rw [hops?, List.findIdx?_cons, if_pos hc]
        rfl
      have hget := hs.get? hname
      rw [hhere] at hfalse
      rw [hfalse] at hget
      generalize hv : scope.get? name = v at hget
      cases hget with
      | some heq => exact hhead scope rfl (heq ▸ hv)
    | false =>
      have hnot : scope'.contains
          (spelling x y (markAt (anew :: marks) (hops? (scope :: scopes) name)) name) = false :=
        hs.not_contains hname hc
      rw [Bindings.contains, hfalse] at hnot
      cases hnot

theorem ScopesRespelled.markIn {name : String} (h : ScopesRespelled x y marks scopes scopes')
    (hname : name ≠ y) (defined : Bool) :
    ScopesRespelled x y marks (markIn name defined scopes)
      (markIn (spelling x y (markAt marks (some 0)) name) defined scopes') := by
  cases h with
  | nil => exact .nil
  | cons hs h => exact .cons (hs.set hname rfl) h

theorem ScopesRespelled.tail (h : ScopesRespelled x y marks scopes scopes') :
    ScopesRespelled x y marks.tail scopes.tail scopes'.tail := by
  cases h with
  | nil => exact .nil
  | cons _ h => exact h

end Scopes

end TreeWalk
