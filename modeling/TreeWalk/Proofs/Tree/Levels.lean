import Mathlib.Data.Nat.Find
import Mathlib.Logic.Relation
import TreeWalk.Tree.Anchor

namespace TreeWalk.Node

section Tokens

mutual

def exprTokens : Expr → List Token
  | .literal _ | .group _ => []
  | .unary t _ | .binary _ t _ | .logical _ t _ | .var t _ | .assign t _ _ | .call _ t _
  | .get _ t | .set _ t _ | .self t _ => [t]
  | .ofStmt s => stmtTokens s

def stmtTokens : Stmt → List Token
  | .empty | .expression _ | .print _ | .block _ | .branch _ _ _ | .loop _ _ | .unknown _ => []
  | .var t _ | .returns t _ | .cls t _ => [t]
  | .function (.mk t params _) => t :: params
  | .ofExpr e => exprTokens e

end

/-- The tokens that a node holds itself, in order. -/
def tokens : Node → List Token
  | expr e => exprTokens e
  | stmt s => stmtTokens s
  | function d => d.name :: d.params

mutual

theorem head?_exprTokens : ∀ e : Expr, (exprTokens e).head? = exprToken? e
  | .literal _ | .group _ | .unary _ _ | .binary _ _ _ | .logical _ _ _ | .var _ _ | .assign _ _ _
  | .call _ _ _ | .get _ _ | .set _ _ _ | .self _ _ => rfl
  | .ofStmt s => head?_stmtTokens s

theorem head?_stmtTokens : ∀ s : Stmt, (stmtTokens s).head? = stmtToken? s
  | .empty | .expression _ | .print _ | .block _ | .branch _ _ _ | .loop _ _ | .unknown _
  | .var _ _ | .returns _ _ | .cls _ _ | .function (.mk _ _ _) => rfl
  | .ofExpr e => head?_exprTokens e

end

theorem head?_tokens : ∀ n : Node, n.tokens.head? = n.token?
  | expr e => head?_exprTokens e
  | stmt s => head?_stmtTokens s
  | function _ => rfl

theorem tokens_eq_nil {n : Node} : n.tokens = [] ↔ n.token? = none := by
  rw [← head?_tokens, List.head?_eq_none_iff]

end Tokens

section Levels

/-- The nodes at a depth below a node, from left to right. -/
def level : ℕ → Node → List Node
  | 0, n => [n]
  | depth + 1, n => n.children.flatMap (level depth)

def Below (m n : Node) : Prop := m ∈ n.children

/-- A node belongs to a tree. -/
def Within (n m : Node) : Prop := Relation.ReflTransGen (fun a b ↦ b.Below a) n m

def levels (depth : ℕ) (ns : List Node) : List Node := ns.flatMap (level depth)

@[simp] theorem levels_zero (ns : List Node) : levels 0 ns = ns := List.flatMap_singleton' ns

@[simp] theorem levels_singleton (depth : ℕ) (n : Node) : levels depth [n] = level depth n :=
  List.flatMap_singleton _ n

theorem levels_succ (depth : ℕ) (ns : List Node) :
    levels (depth + 1) ns = levels depth (ns.flatMap children) := List.flatMap_assoc.symm

/-- The nodes of a tree are those of its levels. -/
theorem within_iff {n m : Node} : n.Within m ↔ ∃ depth, m ∈ level depth n := by
  constructor
  · intro h
    induction h using Relation.ReflTransGen.head_induction_on with
    | refl => exact ⟨0, .head _⟩
    | head hchild _ ih =>
      obtain ⟨depth, hm⟩ := ih
      exact ⟨depth + 1, List.mem_flatMap.mpr ⟨_, hchild, hm⟩⟩
  · rintro ⟨depth, hm⟩
    induction depth generalizing n with
    | zero =>
      obtain rfl := List.mem_singleton.mp hm
      exact .refl
    | succ depth ih =>
      obtain ⟨c, hchild, hc⟩ := List.mem_flatMap.mp hm
      exact .head hchild (ih hc)

theorem size_le_sizes {n : Node} {ns : List Node} (h : n ∈ ns) : n.size ≤ sizes ns := by
  induction h with
  | head => exact Nat.le_add_right _ _
  | tail _ _ ih => exact Nat.le_trans ih (Nat.le_add_left _ _)

theorem size_lt_of_mem {n m : Node} (h : m ∈ n.children) : m.size < n.size :=
  Nat.lt_of_le_of_lt (size_le_sizes h) (sizes_children_lt n)

theorem level_eq_nil {depth : ℕ} {n : Node} (h : n.size ≤ depth) : level depth n = [] := by
  induction depth generalizing n with
  | zero => exact absurd (Nat.lt_of_lt_of_le (sizes_children_lt n) h) (Nat.not_lt_zero _)
  | succ depth ih =>
    refine List.flatMap_eq_nil_iff.mpr fun c hc ↦ ih ?_
    exact Nat.le_of_lt_succ (Nat.lt_of_lt_of_le (size_lt_of_mem hc) h)

end Levels

section Search

/-- A search over a queue, by the rounds that it takes and what it comes to. In a round the first node
leaves the queue; the search ends with its first token, or goes on with its children at the end of the queue. -/
inductive Searches : List Node → ℕ → Option Token → Prop
  | empty : Searches [] 0 none
  | found {n : Node} {waiting : List Node} {t : Token} {ts : List Token} :
      n.tokens = t :: ts → Searches (n :: waiting) 1 (some t)
  | further {n : Node} {waiting : List Node} {rounds : ℕ} {result : Option Token} :
      n.tokens = [] → Searches (waiting ++ n.children) rounds result →
      Searches (n :: waiting) (rounds + 1) result

theorem searches_anchorAmong (queue : List Node) :
    ∃ rounds ≤ sizes queue, Searches queue rounds (anchorAmong queue) := by
  fun_induction anchorAmong queue with
  | case1 => exact ⟨0, Nat.le_refl _, .empty⟩
  | case2 n waiting t ht =>
    have hpos : 1 ≤ n.size := Nat.lt_of_le_of_lt (Nat.zero_le _) (sizes_children_lt n)
    rw [← head?_tokens] at ht
    obtain ⟨ts, hts⟩ := List.head?_eq_some_iff.mp ht
    exact ⟨1, Nat.le_trans hpos (Nat.le_add_right _ _), .found hts⟩
  | case3 n waiting hnone ih =>
    obtain ⟨rounds, hrounds, hsearch⟩ := ih
    refine ⟨rounds + 1, ?_, .further (tokens_eq_nil.mpr hnone) hsearch⟩
    have hless := sizes_children_lt n
    rw [sizes_append] at hrounds
    rw [sizes]
    omega

/-- The search comes through a part of the queue before it looks at what it has put behind the rest. -/
theorem anchorAmong_append (ns waiting : List Node) : anchorAmong (ns ++ waiting) =
    (ns.findSome? token?).or (anchorAmong (waiting ++ ns.flatMap children)) := by
  induction ns generalizing waiting with
  | nil => simp
  | cons n ns ih =>
    rw [List.cons_append, anchorAmong, List.findSome?_cons]
    cases hn : n.token? with
    | some t => rfl
    | none =>
      dsimp only
      rw [List.append_assoc, ih, List.append_assoc, List.flatMap_cons]

theorem anchorAmong_level (ns : List Node) :
    anchorAmong ns = (ns.findSome? token?).or (anchorAmong (ns.flatMap children)) := by
  simpa using anchorAmong_append ns []

theorem anchorAmong_levels (depth : ℕ) {ns : List Node}
    (h : ∀ d < depth, ∀ m ∈ levels d ns, m.tokens = []) :
    anchorAmong ns = anchorAmong (levels depth ns) := by
  induction depth generalizing ns with
  | zero => rw [levels_zero]
  | succ depth ih =>
    have hfirst : ns.findSome? token? = none := by
      refine List.findSome?_eq_none_iff.mpr fun m hm ↦ tokens_eq_nil.mp ?_
      exact h 0 (Nat.succ_pos _) m (by rwa [levels_zero])
    rw [anchorAmong_level, hfirst, Option.none_or, levels_succ]
    refine ih fun d hd m hm ↦ h (d + 1) (Nat.succ_lt_succ hd) m ?_
    rwa [levels_succ]

theorem anchorAmong_eq_none {n : Node} (h : ∀ m, n.Within m → m.tokens = []) :
    anchorAmong [n] = none := by
  rw [anchorAmong_levels n.size fun d _ m hm ↦ ?_, levels_singleton,
    level_eq_nil (Nat.le_refl _), anchorAmong]
  rw [levels_singleton] at hm
  exact h m (within_iff.mpr ⟨d, hm⟩)

theorem anchorAmong_eq_some {n : Node} {depth : ℕ} {t : Token}
    (habove : ∀ d < depth, ∀ m ∈ level d n, m.tokens = [])
    (hfound : (level depth n).findSome? token? = some t) : anchorAmong [n] = some t := by
  rw [anchorAmong_levels depth (by simpa using habove), levels_singleton, anchorAmong_level,
    hfound, Option.some_or]

/-- Where a tree holds a token there is a first level that does. -/
theorem exists_shallowest {n m : Node} (hm : n.Within m) (htokens : m.tokens ≠ []) :
    ∃ depth t, (∀ d < depth, ∀ l ∈ level d n, l.tokens = []) ∧
      (level depth n).findSome? token? = some t := by
  classical
  have hholds : ∃ depth, ∃ m ∈ level depth n, m.tokens ≠ [] := by
    obtain ⟨depth, hdepth⟩ := within_iff.mp hm
    exact ⟨depth, m, hdepth, htokens⟩
  obtain ⟨l, hl, hne⟩ := Nat.find_spec hholds
  have hfound : ((level (Nat.find hholds) n).findSome? token?).isSome = true := by
    rw [List.findSome?_isSome_iff]
    exact ⟨l, hl, Option.isSome_iff_ne_none.mpr fun hnone ↦ hne (tokens_eq_nil.mpr hnone)⟩
  obtain ⟨t, ht⟩ := Option.isSome_iff_exists.mp hfound
  refine ⟨Nat.find hholds, t, fun d hd l hl ↦ ?_, ht⟩
  by_contra hne
  exact Nat.find_min hholds hd ⟨l, hl, hne⟩

end Search

/-- The search ends, after no more rounds than the size of the tree. It finds nothing just if no node of the
tree holds a token, and otherwise the first token of the leftmost one of the least deep nodes that hold any. -/
theorem anchorAmong_shallowest (n : Node) :
    (∃ rounds ≤ n.size, Searches [n] rounds (anchorAmong [n])) ∧
      (anchorAmong [n] = none ↔ ∀ m, n.Within m → m.tokens = []) ∧
      ∀ t, anchorAmong [n] = some t ↔
        ∃ depth left m right, level depth n = left ++ m :: right ∧ m.tokens.head? = some t ∧
          (∀ l ∈ left, l.tokens = []) ∧ ∀ d < depth, ∀ l ∈ level d n, l.tokens = [] := by
  refine ⟨searches_anchorAmong [n], ⟨fun hnone m hm ↦ ?_, anchorAmong_eq_none⟩, fun t ↦ ⟨fun ht ↦ ?_, ?_⟩⟩
  · by_contra htokens
    obtain ⟨depth, t, habove, hfound⟩ := exists_shallowest hm htokens
    rw [anchorAmong_eq_some habove hfound] at hnone
    cases hnone
  · have hholds : ∃ m, n.Within m ∧ m.tokens ≠ [] := by
      by_contra hnone
      push Not at hnone
      rw [anchorAmong_eq_none hnone] at ht
      cases ht
    obtain ⟨m, hm, htokens⟩ := hholds
    obtain ⟨depth, t', habove, hfound⟩ := exists_shallowest hm htokens
    obtain rfl : t' = t := Option.some.inj ((anchorAmong_eq_some habove hfound).symm.trans ht)
    obtain ⟨left, m, right, hlevel, hm, hleft⟩ := List.findSome?_eq_some_iff.mp hfound
    rw [← head?_tokens] at hm
    exact ⟨depth, left, m, right, hlevel, hm, fun l hl ↦ tokens_eq_nil.mpr (hleft l hl), habove⟩
  · rintro ⟨depth, left, m, right, hlevel, hm, hleft, habove⟩
    rw [head?_tokens] at hm
    refine anchorAmong_eq_some habove (List.findSome?_eq_some_iff.mpr ?_)
    exact ⟨left, m, right, hlevel, hm, fun l hl ↦ tokens_eq_nil.mp (hleft l hl)⟩

end TreeWalk.Node
