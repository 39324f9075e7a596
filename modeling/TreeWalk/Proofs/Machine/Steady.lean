import TreeWalk.Proofs.Machine.Upheld

namespace TreeWalk

namespace Frames

variable {α : Type} {k : String} {fs fs₁ fs' : Frames α}

/-- Frames may have been added. In those that were there before, a name stands for what it did. -/
structure Steady (k : String) (fs fs' : Frames α) : Prop where
  next_le : fs.next ≤ fs'.next
  get?_eq : ∀ f < fs.next, (fs'.bindings f).get? k = (fs.bindings f).get? k

namespace Steady

theorem refl (k : String) (fs : Frames α) : Steady k fs fs := ⟨Nat.le_refl _, fun _ _ ↦ rfl⟩

theorem trans (h : Steady k fs fs₁) (h' : Steady k fs₁ fs') : Steady k fs fs' :=
  ⟨Nat.le_trans h.next_le h'.next_le, fun f hf ↦
    (h'.get?_eq f (Nat.lt_of_lt_of_le hf h.next_le)).trans (h.get?_eq f hf)⟩

theorem push (k : String) (fs : Frames α) (b : Bindings α) : Steady k fs (fs.push b) := by
  refine ⟨by simp, fun f hf ↦ ?_⟩
  rw [bindings_push, if_neg (Nat.ne_of_lt hf)]

theorem define {name : String} (hname : name ≠ k) (fs : Frames α) (f : FrameId) (value : α) :
    Steady k fs (fs.define f name value) := by
  refine ⟨by simp, fun g hg ↦ ?_⟩
  rw [bindings_define]
  split
  · rw [Bindings.get?_set, if_neg hname.symm]
  · rfl

end Steady

instance (k : String) : Enduring (@Steady α k) := ⟨.refl k, .trans, .push k⟩

end Frames

open Frames

namespace Moment

variable {setup : Setup} {k : String} {μ μ' : Moment}

/-- The name that a moment writes itself, behind what it leads to. -/
def written? : Moment → Option Token
  | ⟨.expr _ (.assign name _ _), _⟩ => some name
  | ⟨.stmt _ s, _⟩ => s.declared?
  | _ => none

def Spares (k : String) (setup : Setup) (μ : Moment) : Prop :=
  ∀ μ', Relation.ReflTransGen (Follows setup) μ μ' → ∀ name ∈ μ'.written?, name.lexeme ≠ k

theorem keeps_of_written (h : ∀ name ∈ μ.written?, name.lexeme ≠ k) : μ.Keeps (Steady k) := by
  obtain ⟨event, m⟩ := μ
  cases event with
  | expr room e =>
    cases e with
    | assign name e ref => exact fun m' f value _ _ ↦ .define (h name rfl) _ f value
    | _ => trivial
  | stmt room s => exact fun name hname fs value ↦ .define (h name hname) fs _ value
  | enter | bind => trivial

theorem Spares.allKeep (h : μ.Spares k setup) : μ.AllKeep (Steady k) setup :=
  fun μ' hμ ↦ keeps_of_written (h μ' hμ)

/-- A name that no moment inside writes stands for the same at the end, in every frame that was there. -/
theorem Spares.steady (h : μ.Spares k setup) :
    Steady k μ.machine.frames (μ.after setup).frames := h.allKeep.upheld

theorem Spares.steady_inside (h : μ.Spares k setup)
    (hμ : Relation.ReflTransGen (Leads setup) μ μ') :
    μ'.Spares k setup ∧ Steady k (μ'.after setup).frames (μ.after setup).frames :=
  ⟨fun μ'' h' ↦ h μ'' (.trans (hμ.lift id fun _ _ ↦ .leads) h'), (h.allKeep.upheld_inside hμ).2⟩

end Moment

end TreeWalk
