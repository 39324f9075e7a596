import Mathlib.Data.List.Induction
import TreeWalk.Proofs.Session.Evaluation

namespace TreeWalk.Session

open Exec Frames Resolving

section Steps

variable (setup : Setup) (sources : List String)

/-- A call is entered with proper arguments, one for each parameter. -/
def Supplied (fs : Frames Value) : Event → Prop
  | .enter _ c arguments =>
    (∀ a ∈ arguments, Proper setup sources fs a) ∧ arguments.length = c.arity
  | _ => True

/-- The machine of a moment is sound, and what is evaluated fits a visit. -/
structure Fits (μ : Moment) : Prop where
  sound : Sound setup sources μ.machine
  situated : ∃ v, Situated setup sources v μ.event μ.env μ.machine.frames
  supplied : Supplied setup sources μ.machine.frames μ.event

variable {setup sources} {m m' : Machine} {v : Visit}

theorem Fits.expr {room : Nat} {e : Expr} (hm : Sound setup sources m)
    (h : Situated setup sources v (.expr room e) m.env m.frames) :
    Fits setup sources ⟨.expr room e, m⟩ :=
  ⟨hm, ⟨v, h⟩, trivial⟩

theorem Fits.stmt {room : Nat} {s : Stmt} (hm : Sound setup sources m)
    (h : Situated setup sources v (.stmt room s) m.env m.frames) :
    Fits setup sources ⟨.stmt room s, m⟩ :=
  ⟨hm, ⟨v, h⟩, trivial⟩

theorem arguments_fit {room : Nat} {callee : Expr} {paren : Token} {es is : List Expr}
    {m₁ : Machine} {f : Value} {vs : List Value} (hlawful : setup.Lawful)
    (hm : Sound setup sources m)
    (hv : Situated setup sources v (.expr (room + 5) (.call callee paren (es ++ is))) m.env m.frames)
    (hμ : Happens setup sources ⟨.expr (room + 5) (.call callee paren (es ++ is)), m⟩)
    (hf : eval setup (room + 3) callee m = .ok f m₁)
    (hes : es.mapM (eval setup (room + 2)) m₁ = .ok vs m') :
    Sound setup sources m' ∧ m'.env = m.env ∧ Grow m.frames m'.frames ∧
      Proper setup sources m'.frames f ∧ ∀ w ∈ vs, Proper setup sources m'.frames w := by
  obtain ⟨v', hv'⟩ := hv.callee (room + 3)
  obtain ⟨hm₁, henv₁, hg₁, hproper⟩ :=
    (exprs_go hlawful (room + 3) hm hv' (hμ.tail .callee)).ok hf
  have hgo : Goes setup sources (es.mapM (eval setup (room + 2))) m₁ fun vs m' ↦
      ∀ w ∈ vs, Proper setup sources m'.frames w := by
    refine mapM_goes es hm₁ (fun _ _ _ ↦ .grow) fun before a rest has bs m' hbs hm' henv hg ↦ ?_
    rw [has, List.append_assoc, List.cons_append] at hv hμ
    obtain ⟨v'', hv''⟩ := hv.argument (room + 2)
    exact exprs_go hlawful (room + 2) hm' ((hv''.later henv₁ hg₁).later henv hg)
      (hμ.tail (.argument hf hbs))
  obtain ⟨hm', henv, hg, hvs⟩ := hgo.ok hes
  exact ⟨hm', henv.trans henv₁, hg₁.trans hg, hproper.grow hg, hvs⟩

theorem rounds_fit {room n : Nat} {e : Expr} {body : Stmt} (hlawful : setup.Lawful)
    (hm : Sound setup sources m)
    (hv : Situated setup sources v (.stmt (room + 3) (.loop e body)) m.env m.frames)
    (hμ : Happens setup sources ⟨.stmt (room + 3) (.loop e body), m⟩)
    (hr : Moment.Rounds (eval setup (room + 1) e) (exec setup (room + 1) body) n m m')
    (hn : n ≤ setup.limits.rounds) :
    Sound setup sources m' ∧ m'.env = m.env ∧ Grow m.frames m'.frames := by
  obtain ⟨vc, hvc⟩ := hv.test (room + 1)
  obtain ⟨vb, hvb, -⟩ := hv.round (room + 1)
  refine rounds_sound (fun k m₁ hr hk hm₁ henv hg ↦ ?_)
    (fun k m₁ w m₂ hr hk hw htrue hm₂ henv hg ↦ ?_) hr hm
  · exact (exprs_go hlawful (room + 1) hm₁ (hvc.later henv hg)
      (hμ.tail (.test hr (Nat.lt_of_lt_of_le hk hn)))).mono fun _ _ _ _ _ _ ↦ trivial
  · exact (stmts_go hlawful (room + 1) hm₂ (hvb.later henv hg)
      (hμ.tail (.round hr (Nat.lt_of_lt_of_le hk hn) hw htrue))).mono fun _ _ _ _ _ _ ↦ trivial

/-- What a moment leads to fits if the moment does. -/
theorem Fits.leads {μ μ' : Moment} (hlawful : setup.Lawful) (h : Fits setup sources μ)
    (hμ : Happens setup sources μ) (hleads : μ.Leads setup μ') : Fits setup sources μ' := by
  obtain ⟨hm, ⟨v, hv⟩, hsupplied⟩ := h
  cases hleads with
  | group =>
    obtain ⟨v', hv'⟩ := hv.group _
    exact .expr hm hv'
  | unary =>
    obtain ⟨v', hv'⟩ := hv.unary _
    exact .expr hm hv'
  | binaryLeft =>
    obtain ⟨⟨v', hv'⟩, -⟩ := hv.binary _
    exact .expr hm hv'
  | binaryRight hl =>
    obtain ⟨⟨vl, hvl⟩, -⟩ := hv.binary _
    obtain ⟨-, ⟨vr, hvr⟩⟩ := hv.binary _
    obtain ⟨hm', henv, hg, -⟩ := (exprs_go hlawful _ hm hvl (hμ.tail .binaryLeft)).ok hl
    exact .expr hm' (hvr.later henv hg)
  | logicalLeft =>
    obtain ⟨⟨v', hv'⟩, -⟩ := hv.logical _
    exact .expr hm hv'
  | logicalRight hl =>
    obtain ⟨⟨vl, hvl⟩, -⟩ := hv.logical _
    obtain ⟨-, ⟨vr, hvr⟩⟩ := hv.logical _
    obtain ⟨hm', henv, hg, -⟩ := (exprs_go hlawful _ hm hvl (hμ.tail .logicalLeft)).ok hl
    exact .expr hm' (hvr.later henv hg)
  | assigned =>
    obtain ⟨v', hv'⟩ := hv.assigned _
    exact .expr hm hv'
  | callee =>
    obtain ⟨v', hv'⟩ := hv.callee _
    exact .expr hm hv'
  | argument hf hes =>
    obtain ⟨v', hv'⟩ := hv.argument _
    obtain ⟨hm', henv, hg, -⟩ := arguments_fit hlawful hm hv hμ hf hes
    exact .expr hm' (hv'.later henv hg)
  | @enter room paren e es m m₁ m' identity c vs hf hes hlen =>
    rw [← List.append_nil es] at hv hμ
    obtain ⟨hm', -, -, ⟨⟨v', hv'⟩, -⟩, hvs⟩ := arguments_fit hlawful hm hv hμ hf hes
    exact ⟨hm'.congr rfl rfl, ⟨v', hv' _ _⟩, hvs, hlen⟩
  | @bindInitializer room paren e es m m₁ m' identity info c vs hf hes hlen hdepth hi =>
    rw [← List.append_nil es] at hv hμ
    obtain ⟨hm', -, -, hproper, -⟩ := arguments_fit hlawful hm hv hμ hf hes
    obtain ⟨v', hv'⟩ := hproper "init" c hi
    exact ⟨(hm'.congr rfl rfl : Sound setup sources m'.called).newObject, ⟨v', hv' _⟩, trivial⟩
  | @enterInitializer room paren e es m m₁ m' m₂ identity info c c' vs hf hes hlen hdepth hi hbind =>
    have hμ' := hμ.tail (.bindInitializer hf hes hlen hdepth hi)
    rw [← List.append_nil es] at hv hμ
    obtain ⟨hm', -, -, hproper, hvs⟩ := arguments_fit hlawful hm hv hμ hf hes
    obtain ⟨v', hv'⟩ := hproper "init" c hi
    have hm₁ : Sound setup sources m'.called.newObject :=
      (hm'.congr rfl rfl : Sound setup sources m'.called).newObject
    have hproper : Proper setup sources m'.frames (.object m'.objects.size info) := hproper
    obtain ⟨hm₂, -, hg, ⟨⟨v'', hv''⟩, -⟩, hdecl⟩ := (bind_goes hm₁ (hv' _) hproper hμ').ok hbind
    refine ⟨hm₂, ⟨v'', hv'' _ _⟩, fun a ha ↦ (hvs a ha).grow hg, ?_⟩
    rw [hlen, ClassInfo.arity, hi, Closure.arity, hdecl]
    rfl
  | object =>
    obtain ⟨v', hv'⟩ := hv.object _
    exact .expr hm hv'
  | bindMethod ho hnone hc =>
    obtain ⟨v', hv'⟩ := hv.object _
    obtain ⟨hm', henv, hg, hproper⟩ := (exprs_go hlawful _ hm hv' (hμ.tail .object)).ok ho
    obtain ⟨v'', hv''⟩ := hproper _ _ hc
    exact ⟨hm', ⟨v'', hv'' _⟩, trivial⟩
  | owner =>
    obtain ⟨⟨v', hv'⟩, -⟩ := hv.set _
    exact .expr hm hv'
  | field ho =>
    obtain ⟨⟨vo, hvo⟩, -⟩ := hv.set _
    obtain ⟨-, ⟨vv, hvv⟩⟩ := hv.set _
    obtain ⟨hm', henv, hg, -⟩ := (exprs_go hlawful _ hm hvo (hμ.tail .owner)).ok ho
    exact .expr hm' (hvv.later henv hg)
  | expression =>
    obtain ⟨v', hv'⟩ := hv.expression _
    exact .expr hm hv'
  | printed =>
    obtain ⟨v', hv'⟩ := hv.printed _
    exact .expr hm hv'
  | initializer =>
    obtain ⟨v', hv'⟩ := hv.initializer _
    exact .expr hm hv'
  | item hss =>
    obtain ⟨v', hscopes, hv'⟩ := hv.item hμ
    obtain ⟨hm', henv, -, hlies⟩ := (items_go (stmts_go hlawful _) hm hv hμ).ok hss
    rw [Behind, ← hscopes, henv] at hlies
    exact .stmt hm' (by rw [henv]; exact hv' _ _ hlies)
  | condition =>
    obtain ⟨v', hv'⟩ := hv.condition _
    exact .expr hm hv'
  | yes hc =>
    obtain ⟨vc, hvc⟩ := hv.condition _
    obtain ⟨v', hv', -⟩ := hv.yes _
    obtain ⟨hm', henv, hg, -⟩ := (exprs_go hlawful _ hm hvc (hμ.tail .condition)).ok hc
    exact .stmt hm' (hv'.later henv hg)
  | no hc =>
    obtain ⟨vc, hvc⟩ := hv.condition _
    obtain ⟨v', hv', -⟩ := hv.no _
    obtain ⟨hm', henv, hg, -⟩ := (exprs_go hlawful _ hm hvc (hμ.tail .condition)).ok hc
    exact .stmt hm' (hv'.later henv hg)
  | test hr hn =>
    obtain ⟨v', hv'⟩ := hv.test _
    obtain ⟨hm', henv, hg⟩ := rounds_fit hlawful hm hv hμ hr (Nat.le_of_lt hn)
    exact .expr hm' (hv'.later henv hg)
  | round hr hn hc htrue =>
    obtain ⟨vc, hvc⟩ := hv.test _
    obtain ⟨v', hv', -⟩ := hv.round _
    obtain ⟨hm₁, henv₁, hg₁⟩ := rounds_fit hlawful hm hv hμ hr (Nat.le_of_lt hn)
    obtain ⟨hm', henv, hg, -⟩ :=
      (exprs_go hlawful _ hm₁ (hvc.later henv₁ hg₁) (hμ.tail (.test hr hn))).ok hc
    exact .stmt hm' ((hv'.later henv₁ hg₁).later henv hg)
  | returned =>
    obtain ⟨v', hv'⟩ := hv.returned _
    exact .expr hm hv'
  | statement hbody hss =>
    obtain ⟨v', hscopes, hv'⟩ := hv.statement hμ hbody
    obtain ⟨hm', henv, -, hlies⟩ :=
      (statements_go (stmts_go hlawful _) hm hv hsupplied.1 hsupplied.2 hμ hbody).ok hss
    rw [Behind, ← hscopes, henv] at hlies
    exact .stmt hm' (by rw [henv]; exact hv' _ _ hlies)

end Steps

end TreeWalk.Session
