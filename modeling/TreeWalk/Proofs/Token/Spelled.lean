import TreeWalk.Proofs.Token.Respelled
import TreeWalk.Proofs.Tree.Alike
import TreeWalk.Proofs.Tree.Form

namespace TreeWalk

/-- A word that the lexical grammar describes. If it is a number then one that is finite. -/
structure Token.Spelled (t : Token) : Prop where
  formed : (Piece.word t.kind t.lexeme.toList t.literal).Formed
  finite : ∀ x, t.literal = .number x → x.isFinite = true

def Kind.spellings : List (String × Kind) :=
  Piece.marks.map (fun m ↦ (String.ofList m.1, m.2)) ++ keywords

namespace Token.Spelled

open Piece

variable {t t' : Token}

theorem like (h : t.Spelled) (h' : t'.Spelled) (heq : t.lexeme = t'.lexeme) : t.Like t' := by
  have hword := h'.formed.unique h.formed (congrArg String.toList heq.symm)
  injection hword with hkind _ hliteral
  exact ⟨hkind, heq.symm, hliteral⟩

theorem spelling (h : t.Spelled) (hkind : t.kind ∉ [.identifier, .string, .number]) :
    (t.lexeme, t.kind) ∈ Kind.spellings := by
  have hformed := h.formed
  generalize hp : word t.kind t.lexeme.toList t.literal = p at hformed
  cases hformed with
  | mark hmark =>
    injection hp with hk htext
    refine List.mem_append_left _ (List.mem_map.mpr ⟨_, hmark, ?_⟩)
    rw [← hk, ← htext, String.ofList_toList]
  | name =>
    injection hp with hk htext
    rw [← htext, String.ofList_toList] at hk
    exact List.mem_append_right _ (Kind.ofWord_eq hk.symm fun hname ↦ hkind (by simp [hname]))
  | string | whole | decimal =>
    injection hp with hk
    exact absurd hkind (by simp [hk])
  | blank | comment => cases hp

theorem like_of_kind (h : t.Spelled) (h' : t'.Spelled) (heq : t.kind = t'.kind)
    (hkind : t.kind ∉ [.identifier, .string, .number]) : t.Like t' := by
  have hall : ∀ w ∈ Kind.spellings, ∀ w' ∈ Kind.spellings, w.2 = w'.2 → w.1 = w'.1 := by decide
  exact h.like h' (hall _ (h.spelling hkind) _ (h'.spelling (heq ▸ hkind)) heq)

theorem identifier (h : t.Spelled) (hkind : t.kind = .identifier) : Identifier t.lexeme :=
  identifier_of_formed h.formed hkind

theorem wordChar_not_delimiter {c : Char} (h : isWordChar c = true) : c ∉ Form.delimiters := by
  have hnone : Form.delimiters.any isWordChar = false := by decide
  exact fun hmem ↦ List.any_eq_false.mp hnone c hmem h

theorem solid (h : t.Spelled) (hkind : t.kind ∉ [.leftParen, .rightParen, .string, .number]) :
    Form.Solid t.lexeme := by
  by_cases hname : t.kind = .identifier
  · obtain ⟨c, cs, htext, hc, hcs⟩ := identifier_chars (h.identifier hname)
    refine ⟨by simp [htext], fun d hd ↦ wordChar_not_delimiter ?_⟩
    rw [htext] at hd
    exact (List.forall_mem_cons.mpr ⟨wordStart_wordChar hc, hcs⟩ : ∀ d ∈ c :: cs, _) d hd
  · have hall : ∀ w ∈ Kind.spellings, w.2 ∉ [Kind.leftParen, .rightParen, .string, .number] →
        w.1.toList ≠ [] ∧ w.1.toList.any (· ∈ Form.delimiters) = false := by decide
    obtain ⟨hne, hchars⟩ := hall _ (h.spelling (by simp_all)) hkind
    exact .of_all hne hchars

end Token.Spelled

/-- What a literal in a text stands for, if it is not a number that is infinite. -/
inductive Scalar.Literal : Scalar → Prop
  | nil : Literal .nil
  | bool {b : Bool} : Literal (.bool b)
  | number {x : Float} : x.isFinite = true → Literal (.number x)
  | string {s : String} : '"' ∉ s.toList → Literal (.string s)

theorem Token.Spelled.literal {t : Token} (h : t.Spelled) : t.literal.Literal := by
  have hformed := h.formed
  have hfinite := h.finite
  generalize hp : Piece.word t.kind t.lexeme.toList t.literal = p at hformed
  cases hformed with
  | mark | name =>
    injection hp with _ _ hliteral
    rw [hliteral]
    exact .nil
  | string hbody =>
    injection hp with _ _ hliteral
    rw [hliteral]
    exact .string (by simpa using hbody)
  | whole | decimal =>
    injection hp with _ _ hliteral
    rw [hliteral]
    exact .number (hfinite _ hliteral)
  | blank | comment => cases hp

theorem Scan.spelled_of_word {source : String}
    (hfinite : ∀ t ∈ (ofText source).words, ∀ x, t.literal = .number x → x.isFinite = true) :
    ∀ t ∈ (ofText source).words, t.Spelled :=
  fun t ht ↦ ⟨formed_of_word ht, hfinite t ht⟩

end TreeWalk
