import Mathlib.Data.List.Forall2
import TreeWalk.Scope.Sharing

namespace TreeWalk

/-- A use of a name. -/
structure Use where
  kind : RefKind
  name : Token
  mark : Option Nat
  scopes : Nat

section Uses

mutual

def Expr.uses (scopes : Nat) : Expr → List Use
  | .literal _ => []
  | .group e | .unary _ e | .get e _ => e.uses scopes
  | .binary l _ r | .logical l _ r => l.uses scopes ++ r.uses scopes
  | .var name ref => [⟨.read, name, ref.mark, scopes⟩]
  | .assign name e ref => e.uses scopes ++ [⟨.write, name, ref.mark, scopes⟩]
  | .call callee _ arguments => callee.uses scopes ++ Expr.usesAll scopes arguments
  | .set o _ e => e.uses scopes ++ o.uses scopes
  | .self keyword ref => [⟨.self, keyword, ref.mark, scopes⟩]
  | .ofStmt s => s.uses scopes

def Expr.usesAll (scopes : Nat) : List Expr → List Use
  | [] => []
  | e :: es => e.uses scopes ++ Expr.usesAll scopes es

def Stmt.uses (scopes : Nat) : Stmt → List Use
  | .empty | .var _ none | .returns _ none | .unknown _ => []
  | .expression e | .print e | .var _ (some e) | .returns _ (some e) | .ofExpr e => e.uses scopes
  | .block body => Stmt.usesAll (scopes + 1) body
  | .branch c yes none => c.uses scopes ++ yes.uses scopes
  | .branch c yes (some no) => c.uses scopes ++ (yes.uses scopes ++ no.uses scopes)
  | .loop c body => c.uses scopes ++ body.uses scopes
  | .function d => d.uses scopes
  | .cls _ methods => FunDecl.usesAll (scopes + 1) methods

def Stmt.usesAll (scopes : Nat) : List Stmt → List Use
  | [] => []
  | s :: ss => s.uses scopes ++ Stmt.usesAll scopes ss

def FunDecl.uses (scopes : Nat) : FunDecl → List Use
  | .mk _ _ body => Stmt.usesAll (scopes + 1) body

def FunDecl.usesAll (scopes : Nat) : List FunDecl → List Use
  | [] => []
  | d :: ds => d.uses scopes ++ FunDecl.usesAll scopes ds

end

variable {scopes : Nat}

theorem Expr.usesAll_eq (es : List Expr) : usesAll scopes es = es.flatMap (·.uses scopes) := by
  induction es with
  | nil => rfl
  | cons e es ih => rw [usesAll, ih, List.flatMap_cons]

theorem Stmt.usesAll_eq (ss : List Stmt) : usesAll scopes ss = ss.flatMap (·.uses scopes) := by
  induction ss with
  | nil => rfl
  | cons s ss ih => rw [usesAll, ih, List.flatMap_cons]

theorem FunDecl.usesAll_eq (ds : List FunDecl) : usesAll scopes ds = ds.flatMap (·.uses scopes) := by
  induction ds with
  | nil => rfl
  | cons d ds ih => rw [usesAll, ih, List.flatMap_cons]

end Uses

section Known

mutual

def Expr.known : Expr → Bool
  | .literal _ | .var _ _ | .self _ _ => true
  | .group e | .unary _ e | .assign _ e _ | .get e _ => e.known
  | .binary l _ r | .logical l _ r | .set l _ r => l.known && r.known
  | .call callee _ arguments => callee.known && Expr.knownAll arguments
  | .ofStmt s => s.known

def Expr.knownAll : List Expr → Bool
  | [] => true
  | e :: es => e.known && Expr.knownAll es

/-- Whether all statements are of kinds that have a meaning. -/
def Stmt.known : Stmt → Bool
  | .empty | .var _ none | .returns _ none => true
  | .expression e | .print e | .var _ (some e) | .returns _ (some e) | .ofExpr e => e.known
  | .block body => Stmt.knownAll body
  | .branch c yes none => c.known && yes.known
  | .branch c yes (some no) => c.known && (yes.known && no.known)
  | .loop c body => c.known && body.known
  | .function d => d.known
  | .cls _ methods => FunDecl.knownAll methods
  | .unknown _ => false

def Stmt.knownAll : List Stmt → Bool
  | [] => true
  | s :: ss => s.known && Stmt.knownAll ss

def FunDecl.known : FunDecl → Bool
  | .mk _ _ body => Stmt.knownAll body

def FunDecl.knownAll : List FunDecl → Bool
  | [] => true
  | d :: ds => d.known && FunDecl.knownAll ds

end

theorem Expr.knownAll_iff {es : List Expr} : knownAll es = true ↔ ∀ e ∈ es, e.known = true := by
  induction es with
  | nil => simp [knownAll]
  | cons e es ih => rw [knownAll, Bool.and_eq_true, ih, List.forall_mem_cons]

theorem Stmt.knownAll_iff {ss : List Stmt} : knownAll ss = true ↔ ∀ s ∈ ss, s.known = true := by
  induction ss with
  | nil => simp [knownAll]
  | cons s ss ih => rw [knownAll, Bool.and_eq_true, ih, List.forall_mem_cons]

theorem FunDecl.knownAll_iff {ds : List FunDecl} :
    knownAll ds = true ↔ ∀ d ∈ ds, d.known = true := by
  induction ds with
  | nil => simp [knownAll]
  | cons d ds ih => rw [knownAll, Bool.and_eq_true, ih, List.forall_mem_cons]

theorem FunDecl.known_iff {d : FunDecl} : d.known = true ↔ ∀ s ∈ d.body, s.known = true := by
  cases d
  exact Stmt.knownAll_iff

end Known

def Use.marks (uses : List Use) : List Nat := uses.filterMap (·.mark)

/-- No reference occurs twice. -/
def Stmt.Unshared (ss : List Stmt) : Prop := (Use.marks (Stmt.usesAll 0 ss)).Nodup

/-- A link is one of a use, to a scope around it. -/
structure Link.Of (l : Link) (u : Use) : Prop where
  kind_eq : l.kind = u.kind
  name_eq : l.name = u.name
  mark_eq : l.mark = u.mark
  hops_lt : l.hops < u.scopes

/-- The links are of some of the uses, one for each, in order. -/
def Link.Among (links : List Link) (uses : List Use) : Prop :=
  ∃ used, used.Sublist uses ∧ List.Forall₂ Link.Of links used

namespace Link.Among

variable {links links' : List Link} {uses uses' : List Use}

theorem nil : Among [] uses := ⟨[], List.nil_sublist _, .nil⟩

theorem append (h : Among links uses) (h' : Among links' uses') :
    Among (links ++ links') (uses ++ uses') := by
  obtain ⟨used, hsub, hof⟩ := h
  obtain ⟨used', hsub', hof'⟩ := h'
  exact ⟨used ++ used', hsub.append hsub', List.rel_append hof hof'⟩

theorem marks (h : Among links uses) :
    (links.filterMap (·.mark)).Sublist (Use.marks uses) := by
  obtain ⟨used, hsub, hof⟩ := h
  have heq : links.filterMap (·.mark) = Use.marks used := by
    clear hsub
    induction hof with
    | nil => rfl
    | cons hof _ ih =>
      rw [Use.marks, List.filterMap_cons, List.filterMap_cons, hof.mark_eq, ih]
      rfl
  rw [heq]
  exact hsub.filterMap _

end Link.Among

section Sharing

theorem Link.findIdx?_isOf {links : Array Link} {l : Link}
    (h : ∀ m ∈ l.mark, m ∉ links.toList.filterMap (·.mark)) : links.findIdx? l.isOf = none := by
  rw [Array.findIdx?_eq_none_iff]
  intro k hk
  cases hm : l.mark with
  | none => simp [isOf, hm]
  | some m =>
    have hne : k.mark ≠ some m := fun heq ↦
      h m hm (List.mem_filterMap.mpr ⟨k, Array.mem_toList_iff.mpr hk, heq⟩)
    simpa [isOf, hm] using Ne.symm hne

theorem Link.foldl_insert (links : List Link) (done : Array Link)
    (h : ((done.toList ++ links).filterMap (·.mark)).Nodup) :
    (links.foldl insert done).toList = done.toList ++ links := by
  induction links generalizing done with
  | nil => simp
  | cons l links ih =>
    have hfresh : done.findIdx? l.isOf = none := by
      refine findIdx?_isOf fun m hm hmem ↦ ?_
      have hl : m ∈ (l :: links).filterMap (·.mark) := List.mem_filterMap.mpr ⟨l, .head _, hm⟩
      rw [List.filterMap_append] at h
      exact (List.nodup_append.mp h).2.2 m hmem m hl rfl
    have hinsert : insert done l = done.push l := by
      rw [insert, hfresh]
    rw [List.foldl_cons, hinsert, ih]
    · simp
    · simpa using h

/-- Links of references that occur once are a table as they are. -/
theorem Link.unify_eq {links : List Link} (h : (links.filterMap (·.mark)).Nodup) : unify links = links :=
  (foldl_insert links #[] (by simpa using h)).trans (List.nil_append _)

theorem Ref.relink_append {links links' : List Link} {ref : Ref}
    (h : ∀ m ∈ ref.mark, m ∉ links'.filterMap (·.mark)) :
    ref.relink (links ++ links') = ref.relink links := by
  unfold relink
  split
  · rfl
  · next m hm =>
    have hnone : links'.find? (·.mark == some m) = none := by
      rw [List.find?_eq_none]
      intro l hl heq
      exact h m hm (List.mem_filterMap.mpr ⟨l, hl, by simpa using heq⟩)
    rw [List.find?_append, hnone, Option.or_none]

theorem Ref.relink_append_right {links links' : List Link} {ref : Ref}
    (h : ∀ m ∈ ref.mark, m ∉ links.filterMap (·.mark)) :
    ref.relink (links ++ links') = ref.relink links' := by
  unfold relink
  split
  · rfl
  · next m hm =>
    have hnone : links.find? (·.mark == some m) = none := by
      rw [List.find?_eq_none]
      intro l hl heq
      exact h m hm (List.mem_filterMap.mpr ⟨l, hl, by simpa using heq⟩)
    rw [List.find?_append, hnone, Option.none_or]

def Use.Agree (f g : Ref → Ref) (uses : List Use) : Prop :=
  ∀ ref : Ref, (∀ m ∈ ref.mark, m ∈ Use.marks uses) → f ref = g ref

variable {f g : Ref → Ref} {uses uses' : List Use}

theorem Use.Agree.mono (h : Agree f g uses) (hsub : Use.marks uses' ⊆ Use.marks uses) :
    Agree f g uses' :=
  fun ref href ↦ h ref fun m hm ↦ hsub (href m hm)

theorem Use.Agree.left (h : Agree f g (uses ++ uses')) : Agree f g uses :=
  h.mono (by simp [Use.marks])

theorem Use.Agree.right (h : Agree f g (uses ++ uses')) : Agree f g uses' :=
  h.mono (by simp [Use.marks])

theorem Use.Agree.one {kind : RefKind} {name : Token} {ref : Ref} {scopes : Nat}
    (h : Agree f g [⟨kind, name, ref.mark, scopes⟩]) : f ref = g ref :=
  h ref fun m hm ↦ by simpa [Use.marks] using hm

mutual

theorem Expr.mapRefs_congr {scopes : Nat} :
    ∀ (e : Expr), Use.Agree f g (e.uses scopes) → e.mapRefs f = e.mapRefs g
  | .literal _, _ => rfl
  | .group e, h => congrArg Expr.group (Expr.mapRefs_congr e h)
  | .unary operator e, h => congrArg (Expr.unary operator) (Expr.mapRefs_congr e h)
  | .binary l operator r, h => by
    rw [Expr.mapRefs, Expr.mapRefs, Expr.mapRefs_congr l h.left, Expr.mapRefs_congr r h.right]
  | .logical l operator r, h => by
    rw [Expr.mapRefs, Expr.mapRefs, Expr.mapRefs_congr l h.left, Expr.mapRefs_congr r h.right]
  | .var name _, h => congrArg (Expr.var name) h.one
  | .assign name e ref, h => by
    rw [Expr.mapRefs, Expr.mapRefs, Expr.mapRefs_congr e h.left, h.right.one]
  | .call callee paren arguments, h => by
    rw [Expr.mapRefs, Expr.mapRefs, Expr.mapRefs_congr callee h.left,
      Expr.mapRefsAll_congr arguments h.right]
  | .get e name, h => congrArg (Expr.get · name) (Expr.mapRefs_congr e h)
  | .set o name e, h => by
    rw [Expr.mapRefs, Expr.mapRefs, Expr.mapRefs_congr o h.right, Expr.mapRefs_congr e h.left]
  | .self keyword _, h => congrArg (Expr.self keyword) h.one
  | .ofStmt s, h => congrArg Expr.ofStmt (Stmt.mapRefs_congr s h)

theorem Expr.mapRefsAll_congr {scopes : Nat} : ∀ (es : List Expr),
    Use.Agree f g (Expr.usesAll scopes es) → Expr.mapRefsAll f es = Expr.mapRefsAll g es
  | [], _ => rfl
  | e :: es, h => by
    rw [Expr.mapRefsAll, Expr.mapRefsAll, Expr.mapRefs_congr e h.left,
      Expr.mapRefsAll_congr es h.right]

theorem Stmt.mapRefs_congr {scopes : Nat} :
    ∀ (s : Stmt), Use.Agree f g (s.uses scopes) → s.mapRefs f = s.mapRefs g
  | .empty, _ | .var _ none, _ | .returns _ none, _ | .unknown _, _ => rfl
  | .expression e, h => congrArg Stmt.expression (Expr.mapRefs_congr e h)
  | .print e, h => congrArg Stmt.print (Expr.mapRefs_congr e h)
  | .var name (some e), h => congrArg (Stmt.var name ∘ some) (Expr.mapRefs_congr e h)
  | .returns keyword (some e), h =>
    congrArg (Stmt.returns keyword ∘ some) (Expr.mapRefs_congr e h)
  | .ofExpr e, h => congrArg Stmt.ofExpr (Expr.mapRefs_congr e h)
  | .block body, h => congrArg Stmt.block (Stmt.mapRefsAll_congr body h)
  | .branch c yes none, h => by
    rw [Stmt.mapRefs, Stmt.mapRefs, Expr.mapRefs_congr c h.left, Stmt.mapRefs_congr yes h.right]
  | .branch c yes (some no), h => by
    rw [Stmt.mapRefs, Stmt.mapRefs, Expr.mapRefs_congr c h.left, Stmt.mapRefs_congr yes h.right.left,
      Stmt.mapRefs_congr no h.right.right]
  | .loop c body, h => by
    rw [Stmt.mapRefs, Stmt.mapRefs, Expr.mapRefs_congr c h.left, Stmt.mapRefs_congr body h.right]
  | .function d, h => congrArg Stmt.function (FunDecl.mapRefs_congr d h)
  | .cls name methods, h => congrArg (Stmt.cls name) (FunDecl.mapRefsAll_congr methods h)

theorem Stmt.mapRefsAll_congr {scopes : Nat} : ∀ (ss : List Stmt),
    Use.Agree f g (Stmt.usesAll scopes ss) → Stmt.mapRefsAll f ss = Stmt.mapRefsAll g ss
  | [], _ => rfl
  | s :: ss, h => by
    rw [Stmt.mapRefsAll, Stmt.mapRefsAll, Stmt.mapRefs_congr s h.left,
      Stmt.mapRefsAll_congr ss h.right]

theorem FunDecl.mapRefs_congr {scopes : Nat} :
    ∀ (d : FunDecl), Use.Agree f g (d.uses scopes) → d.mapRefs f = d.mapRefs g
  | .mk name params body, h => congrArg (FunDecl.mk name params) (Stmt.mapRefsAll_congr body h)

theorem FunDecl.mapRefsAll_congr {scopes : Nat} : ∀ (ds : List FunDecl),
    Use.Agree f g (FunDecl.usesAll scopes ds) → FunDecl.mapRefsAll f ds = FunDecl.mapRefsAll g ds
  | [], _ => rfl
  | d :: ds, h => by
    rw [FunDecl.mapRefsAll, FunDecl.mapRefsAll, FunDecl.mapRefs_congr d h.left,
      FunDecl.mapRefsAll_congr ds h.right]

end

theorem Stmt.mapRefsAll_append (ss ss' : List Stmt) :
    Stmt.mapRefsAll f (ss ++ ss') = Stmt.mapRefsAll f ss ++ Stmt.mapRefsAll f ss' := by
  induction ss with
  | nil => rfl
  | cons s ss ih => rw [List.cons_append, mapRefsAll, mapRefsAll, ih, List.cons_append]

end Sharing

end TreeWalk
