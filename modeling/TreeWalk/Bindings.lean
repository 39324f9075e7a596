namespace TreeWalk

/-- Values by name. Each name occurs at most once, since `set` writes over what is there. -/
structure Bindings (α : Type) where
  entries : List (String × α) := []

namespace Bindings

variable {α : Type}

def empty : Bindings α := {}

def get? (b : Bindings α) (name : String) : Option α := b.entries.lookup name

def contains (b : Bindings α) (name : String) : Bool := (b.get? name).isSome

def setIn (name : String) (value : α) : List (String × α) → List (String × α)
  | [] => [(name, value)]
  | (k, v) :: rest => if k = name then (k, value) :: rest else (k, v) :: setIn name value rest

def set (b : Bindings α) (name : String) (value : α) : Bindings α :=
  ⟨setIn name value b.entries⟩

/-- Writes from left to right, so that of two values for a name the later one stays. -/
def ofList (entries : List (String × α)) : Bindings α :=
  entries.foldl (fun b e ↦ b.set e.1 e.2) empty

theorem lookup_cons (k n : String) (v : α) (rest : List (String × α)) :
    ((n, v) :: rest).lookup k = if k = n then some v else rest.lookup k := by
  rw [List.lookup_cons]
  by_cases h : k = n
  · simp [h]
  · rw [beq_false_of_ne h, if_neg h]

theorem lookup_setIn (name k : String) (value : α) (entries : List (String × α)) :
    (setIn name value entries).lookup k = if k = name then some value else entries.lookup k := by
  induction entries with
  | nil => exact lookup_cons k name value []
  | cons e rest ih =>
    obtain ⟨n, v⟩ := e
    unfold setIn
    split
    · next heq =>
      subst heq
      simp only [lookup_cons]
      split <;> rfl
    · next hne =>
      simp only [lookup_cons, ih]
      split
      · next h => rw [if_neg fun hk ↦ hne (h.symm.trans hk)]
      · rfl

theorem get?_set (b : Bindings α) (name k : String) (value : α) :
    (b.set name value).get? k = if k = name then some value else b.get? k :=
  lookup_setIn name k value b.entries

end Bindings

end TreeWalk
