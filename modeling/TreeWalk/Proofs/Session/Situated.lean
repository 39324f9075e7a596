import TreeWalk.Proofs.Machine.Lies
import TreeWalk.Proofs.Session.History

namespace TreeWalk

open Resolving Frames

def Visit.Regular : Visit → Prop
  | ⟨.expr _ e, _⟩ => e.Regular
  | ⟨.stmt _ s, _⟩ => s.Regular
  | ⟨.function _ _ d, _⟩ => ∀ s ∈ d.body, s.Regular
  | ⟨.methods _ ds, _⟩ => ∀ d ∈ ds, ∀ s ∈ d.body, s.Regular

/-- No definition is pending. Around an expression, a variable may be defined in the innermost scope. -/
def Visit.Settled : Visit → Prop
  | ⟨.expr _ _, r⟩ => TreeWalk.Settled r.scopes.tail ∧
      ∀ scope ∈ r.scopes.head?, scope.get? "this" ≠ some false
  | ⟨_, r⟩ => TreeWalk.Settled r.scopes

namespace Session

section Made

variable (setup : Setup) (sources : List String)

/-- Each frame of a chain but the globals was made at a moment at which what encloses a visit was
evaluated, in the frames behind it on the chain. -/
def Made (v : Visit) (chain : List FrameId) : Prop :=
  ∀ i < v.state.scopes.length, ∃ v₀ μ,
    Visited setup sources v₀ ∧ v₀.Encloses v ∧ v₀.state.scopes = v.state.scopes.drop (i + 1) ∧
    Happens setup sources μ ∧ v₀.Gives μ.event ∧ μ.Opens ∧
    chain[i]? = some μ.machine.frames.next ∧ μ.env.chain = chain.drop (i + 1)

variable {setup sources} {v v' : Visit} {chain : List FrameId}

theorem Made.part (h : Made setup sources v chain) (hv : v.Leads v')
    (htail : v'.state.scopes.tail = v.state.scopes.tail)
    (hlen : v'.state.scopes.length = v.state.scopes.length) : Made setup sources v' chain := by
  intro i hi
  obtain ⟨v₀, μ, hv₀, henc, hscopes, hμ⟩ := h i (hlen ▸ hi)
  refine ⟨v₀, μ, hv₀, .tail henc hv, ?_, hμ⟩
  rw [hscopes, ← List.drop_tail, ← List.drop_tail, htail]

theorem Made.inside {μ : Moment} (h : Made setup sources v μ.env.chain)
    (hvisited : Visited setup sources v) (hμ : Happens setup sources μ) (hgives : v.Gives μ.event)
    (hopens : μ.Opens) (hv : v.Leads v') (htail : v'.state.scopes.tail = v.state.scopes) :
    Made setup sources v' (μ.machine.frames.next :: μ.env.chain) := by
  intro i hi
  cases i with
  | zero =>
    refine ⟨v, μ, hvisited, .single hv, ?_, hμ, hgives, hopens, rfl, rfl⟩
    rw [← htail, List.drop_one]
  | succ i =>
    have hi : i < v.state.scopes.length := by
      rw [← htail, List.length_tail]
      omega
    obtain ⟨v₀, μ₀, hv₀, henc, hscopes, hμ₀⟩ := h i hi
    refine ⟨v₀, μ₀, hv₀, .tail henc hv, ?_, hμ₀⟩
    rw [hscopes, ← htail, List.drop_tail]

end Made

section Situated

variable (setup : Setup) (sources : List String)

/-- What is evaluated in an environment was visited, and the environment fits the visit. -/
structure Situated (v : Visit) (ev : Event) (env : Env) (fs : Frames Value) : Prop where
  visited : Visited setup sources v
  gives : v.Gives ev
  regular : v.Regular
  settled : v.Settled
  lies : Lies fs env.chain v.state.scopes
  made : Made setup sources v env.chain

variable {setup sources} {v v' : Visit} {ev ev' : Event} {env : Env} {fs fs' : Frames Value}

namespace Situated

theorem grow (h : Situated setup sources v ev env fs) (hg : Grow fs fs') :
    Situated setup sources v ev env fs' :=
  { h with lies := h.lies.grow hg }

theorem part (h : Situated setup sources v ev env fs) (hv : v.Leads v') (hgives : v'.Gives ev')
    (hregular : v'.Regular) (hsettled : v'.Settled)
    (htail : v'.state.scopes.tail = v.state.scopes.tail)
    (hlies : Lies fs env.chain v'.state.scopes) : Situated setup sources v' ev' env fs where
  visited := h.visited.tail hv
  gives := hgives
  regular := hregular
  settled := hsettled
  lies := hlies
  made := h.made.part hv htail <| Nat.succ.inj <| hlies.length_eq.symm.trans h.lies.length_eq

section Expressions

variable {room room' : Nat} {e i : Expr} {r : Resolution}

theorem operand {r₁ r' : Resolution} {e' : Expr} (h : Situated setup sources v ev env fs)
    (hv : v.Leads ⟨.expr room e, r₁⟩) (hwalk : Runs (expr room e) r₁ e' r') (he : e.Regular)
    (hscopes : r₁.scopes = v.state.scopes) (n : Nat) :
    ∃ v', Situated setup sources v' (.expr n e') env fs := by
  refine ⟨_, h.part hv (.expr hwalk) he ?_ (congrArg List.tail hscopes) (hscopes ▸ h.lies)⟩
  have hs := h.settled
  show TreeWalk.Settled r₁.scopes.tail ∧ ∀ scope ∈ r₁.scopes.head?, scope.get? "this" ≠ some false
  rw [hscopes]
  cases v with
  | mk p r =>
    cases p with
    | expr => exact hs
    | _ => exact ⟨TreeWalk.Settled.tail hs, TreeWalk.Settled.head hs⟩

theorem group (h : Situated setup sources v (.expr room (.group e)) env fs) (n : Nat) :
    ∃ v', Situated setup sources v' (.expr n e) env fs := by
  have hregular := h.regular
  obtain ⟨hwalk⟩ := h.gives
  obtain ⟨_, rfl, hform⟩ := expr_runs hwalk
  cases hform with
  | group hwalk =>
    cases hregular with
    | group he => exact h.operand .group hwalk he rfl n

theorem unary {operator : Token}
    (h : Situated setup sources v (.expr room (.unary operator e)) env fs) (n : Nat) :
    ∃ v', Situated setup sources v' (.expr n e) env fs := by
  have hregular := h.regular
  obtain ⟨hwalk⟩ := h.gives
  obtain ⟨_, rfl, hform⟩ := expr_runs hwalk
  cases hform with
  | unary hwalk =>
    cases hregular with
    | unary he => exact h.operand .unary hwalk he rfl n

theorem binary {operator : Token}
    (h : Situated setup sources v (.expr room (.binary e operator i)) env fs) (n : Nat) :
    (∃ v', Situated setup sources v' (.expr n e) env fs) ∧
      ∃ v', Situated setup sources v' (.expr n i) env fs := by
  have hregular := h.regular
  obtain ⟨hwalk⟩ := h.gives
  obtain ⟨_, rfl, hform⟩ := expr_runs hwalk
  cases hform with
  | binary hleft hright =>
    obtain rfl := hleft.after_eq
    cases hregular with
    | binary he hi =>
      exact ⟨h.operand .binaryLeft hleft he rfl n,
        h.operand .binaryRight hright hi (expr_scopes he hleft) n⟩

theorem logical {operator : Token}
    (h : Situated setup sources v (.expr room (.logical e operator i)) env fs) (n : Nat) :
    (∃ v', Situated setup sources v' (.expr n e) env fs) ∧
      ∃ v', Situated setup sources v' (.expr n i) env fs := by
  have hregular := h.regular
  obtain ⟨hwalk⟩ := h.gives
  obtain ⟨_, rfl, hform⟩ := expr_runs hwalk
  cases hform with
  | logical hleft hright =>
    obtain rfl := hleft.after_eq
    cases hregular with
    | logical he hi =>
      exact ⟨h.operand .logicalLeft hleft he rfl n,
        h.operand .logicalRight hright hi (expr_scopes he hleft) n⟩

theorem assigned {name : Token} {ref : Ref}
    (h : Situated setup sources v (.expr room (.assign name e ref)) env fs) (n : Nat) :
    ∃ v', Situated setup sources v' (.expr n e) env fs := by
  have hregular := h.regular
  obtain ⟨hwalk⟩ := h.gives
  obtain ⟨_, rfl, hform⟩ := expr_runs hwalk
  cases hform with
  | assign hvalue =>
    cases hregular with
    | assign he => exact h.operand .assigned hvalue he rfl n

theorem callee {paren : Token} {es : List Expr}
    (h : Situated setup sources v (.expr room (.call e paren es)) env fs) (n : Nat) :
    ∃ v', Situated setup sources v' (.expr n e) env fs := by
  have hregular := h.regular
  obtain ⟨hwalk⟩ := h.gives
  obtain ⟨_, rfl, hform⟩ := expr_runs hwalk
  cases hform with
  | call hcallee =>
    cases hregular with
    | call he => exact h.operand .callee hcallee he rfl n

theorem argument {paren : Token} {es is : List Expr}
    (h : Situated setup sources v (.expr room (.call e paren (es ++ i :: is))) env fs) (n : Nat) :
    ∃ v', Situated setup sources v' (.expr n i) env fs := by
  have hregular := h.regular
  obtain ⟨hwalk⟩ := h.gives
  obtain ⟨room, rfl, hform⟩ := expr_runs hwalk
  cases hform with
  | call hcallee hwalk =>
    cases hregular with
    | call he hes =>
      obtain rfl := hcallee.after_eq
      obtain ⟨es, i, is, r₁, r₂, rfl, hes', hi, -⟩ := (hwalk.all (expr_careful room)).split
      obtain rfl := hes'.after_eq
      refine h.operand .argument hi (hes i (by simp)) ?_ n
      exact (hes'.scopes_eq fun e hmem _ _ _ h ↦
        expr_scopes (hes e (List.mem_append_left _ hmem)) h).trans (expr_scopes he hcallee)

theorem object {name : Token} (h : Situated setup sources v (.expr room (.get e name)) env fs)
    (n : Nat) : ∃ v', Situated setup sources v' (.expr n e) env fs := by
  have hregular := h.regular
  obtain ⟨hwalk⟩ := h.gives
  obtain ⟨_, rfl, hform⟩ := expr_runs hwalk
  cases hform with
  | get hwalk =>
    cases hregular with
    | get he => exact h.operand .object hwalk he rfl n

theorem set {name : Token} (h : Situated setup sources v (.expr room (.set e name i)) env fs)
    (n : Nat) :
    (∃ v', Situated setup sources v' (.expr n e) env fs) ∧
      ∃ v', Situated setup sources v' (.expr n i) env fs := by
  have hregular := h.regular
  obtain ⟨hwalk⟩ := h.gives
  obtain ⟨_, rfl, hform⟩ := expr_runs hwalk
  cases hform with
  | set hvalue hobject =>
    obtain rfl := hvalue.after_eq
    cases hregular with
    | set he hi =>
      exact ⟨h.operand .owner hobject he (expr_scopes hi hvalue) n, h.operand .field hvalue hi rfl n⟩

theorem notOfStmt {s : Stmt} (h : Situated setup sources v (.expr room (.ofStmt s)) env fs) :
    False := by
  have hregular := h.regular
  obtain ⟨hwalk⟩ := h.gives
  obtain ⟨_, rfl, hform⟩ := expr_runs hwalk
  cases hform with
  | ofStmt => cases hregular

end Expressions

section Statements

variable {room : Nat} {e : Expr} {s : Stmt}

theorem expression (h : Situated setup sources v (.stmt room (.expression e)) env fs) (n : Nat) :
    ∃ v', Situated setup sources v' (.expr n e) env fs := by
  have hregular := h.regular
  obtain _ | ⟨hwalk⟩ := h.gives
  obtain ⟨_, rfl, hform⟩ := stmt_runs hwalk
  cases hform with
  | expression hwalk =>
    cases hregular with
    | expression he => exact h.operand .expression hwalk he rfl n

theorem printed (h : Situated setup sources v (.stmt room (.print e)) env fs) (n : Nat) :
    ∃ v', Situated setup sources v' (.expr n e) env fs := by
  have hregular := h.regular
  obtain _ | ⟨hwalk⟩ := h.gives
  obtain ⟨_, rfl, hform⟩ := stmt_runs hwalk
  cases hform with
  | print hwalk =>
    cases hregular with
    | print he => exact h.operand .printed hwalk he rfl n

theorem returned {keyword : Token}
    (h : Situated setup sources v (.stmt room (.returns keyword (some e))) env fs) (n : Nat) :
    ∃ v', Situated setup sources v' (.expr n e) env fs := by
  have hregular := h.regular
  obtain _ | ⟨hwalk⟩ := h.gives
  obtain ⟨_, rfl, hform⟩ := stmt_runs hwalk
  cases hform with
  | returnsValue hcheck hvalue =>
    obtain rfl := hcheck.after_eq
    cases hregular with
    | returns he =>
      exact h.operand .returned hvalue (he _ rfl) (congrArg _ (checkReturn_runs hcheck)) n

theorem initializer {name : Token}
    (h : Situated setup sources v (.stmt room (.var name (some e))) env fs) (n : Nat) :
    ∃ v', Situated setup sources v' (.expr n e) env fs := by
  have hregular := h.regular
  have hsettled := h.settled
  obtain _ | ⟨hwalk⟩ := h.gives
  obtain ⟨_, rfl, hform⟩ := stmt_runs hwalk
  cases hform with
  | initialized hdeclare hvalue =>
    have hscopes := congrArg Resolution.scopes (declare_runs hdeclare)
    obtain rfl := hdeclare.after_eq
    cases hregular with
    | var hthis he =>
      have htail := (congrArg List.tail hscopes).trans (markIn_tail _ _ _)
      refine ⟨_, h.part .initializer (.expr hvalue) (he _ rfl) ?_ htail ?_⟩
      · refine ⟨?_, fun scope hscope ↦ ?_⟩
        · show TreeWalk.Settled (Resolving.after (declare name) _).scopes.tail
          rw [htail]
          exact TreeWalk.Settled.tail hsettled
        · rw [hscopes] at hscope
          exact TreeWalk.Settled.markIn_head hsettled (Ne.symm hthis) scope hscope
      · exact hscopes ▸ h.lies.pending

theorem branch {r₁ r' : Resolution} {s' : Stmt} {n₀ : Nat} (h : Situated setup sources v ev env fs)
    (hv : v.Leads ⟨.stmt n₀ s, r₁⟩) (hwalk : Runs (stmt n₀ s) r₁ s' r') (hs : s.Regular)
    (hscopes : r₁.scopes = v.state.scopes) (hsettled : TreeWalk.Settled v.state.scopes) (n : Nat) :
    ∃ v', Situated setup sources v' (.stmt n s') env fs ∧ v'.state.scopes = v.state.scopes :=
  ⟨_, h.part hv (.stmt hwalk) hs (show TreeWalk.Settled r₁.scopes from hscopes ▸ hsettled)
    (congrArg List.tail hscopes) (hscopes ▸ h.lies), hscopes⟩

theorem condition {yes : Stmt} {no : Option Stmt}
    (h : Situated setup sources v (.stmt room (.branch e yes no)) env fs) (n : Nat) :
    ∃ v', Situated setup sources v' (.expr n e) env fs := by
  have hregular := h.regular
  obtain _ | ⟨hwalk⟩ := h.gives
  obtain ⟨_, rfl, hform⟩ := stmt_runs hwalk
  cases hform with
  | branch hc | branches hc =>
    cases hregular with
    | branch he => exact h.operand .condition hc he rfl n

theorem yes {yes : Stmt} {no : Option Stmt}
    (h : Situated setup sources v (.stmt room (.branch e yes no)) env fs) (n : Nat) :
    ∃ v', Situated setup sources v' (.stmt n yes) env fs ∧ v'.state.scopes = v.state.scopes ∧
      yes.declared? = none := by
  have hregular := h.regular
  have hsettled := h.settled
  obtain _ | ⟨hwalk⟩ := h.gives
  obtain ⟨_, rfl, hform⟩ := stmt_runs hwalk
  cases hform with
  | branch hc hyes | branches hc hyes =>
    obtain rfl := hc.after_eq
    cases hregular with
    | branch he hs hplain =>
      obtain ⟨v', h', hscopes⟩ := h.branch .yes hyes hs (expr_scopes he hc) hsettled n
      exact ⟨v', h', hscopes, (declared?_eq hyes).trans hplain⟩

theorem no {yes no : Stmt}
    (h : Situated setup sources v (.stmt room (.branch e yes (some no))) env fs) (n : Nat) :
    ∃ v', Situated setup sources v' (.stmt n no) env fs ∧ v'.state.scopes = v.state.scopes ∧
      no.declared? = none := by
  have hregular := h.regular
  have hsettled := h.settled
  obtain _ | ⟨hwalk⟩ := h.gives
  obtain ⟨_, rfl, hform⟩ := stmt_runs hwalk
  cases hform with
  | branches hc hyes hno =>
    obtain rfl := hc.after_eq
    obtain rfl := hyes.after_eq
    cases hregular with
    | branch he hs hplain hs' hplain' =>
      have hscopes := (stmt_scopes hs hyes).trans
        ((Stmt.declaredIn_of_none hplain _).trans (expr_scopes he hc))
      obtain ⟨v', h', hscopes⟩ := h.branch .no hno (hs' _ rfl) hscopes hsettled n
      exact ⟨v', h', hscopes, (declared?_eq hno).trans (hplain' _ rfl)⟩

theorem test {body : Stmt} (h : Situated setup sources v (.stmt room (.loop e body)) env fs)
    (n : Nat) : ∃ v', Situated setup sources v' (.expr n e) env fs := by
  have hregular := h.regular
  obtain _ | ⟨hwalk⟩ := h.gives
  obtain ⟨_, rfl, hform⟩ := stmt_runs hwalk
  cases hform with
  | loop hc =>
    cases hregular with
    | loop he => exact h.operand .test hc he rfl n

theorem round {body : Stmt} (h : Situated setup sources v (.stmt room (.loop e body)) env fs)
    (n : Nat) :
    ∃ v', Situated setup sources v' (.stmt n body) env fs ∧ v'.state.scopes = v.state.scopes ∧
      body.declared? = none := by
  have hregular := h.regular
  have hsettled := h.settled
  obtain _ | ⟨hwalk⟩ := h.gives
  obtain ⟨_, rfl, hform⟩ := stmt_runs hwalk
  cases hform with
  | loop hc hbody =>
    obtain rfl := hc.after_eq
    cases hregular with
    | loop he hs hplain =>
      obtain ⟨v', h', hscopes⟩ := h.branch .round hbody hs (expr_scopes he hc) hsettled n
      exact ⟨v', h', hscopes, (declared?_eq hbody).trans hplain⟩

theorem notOfExpr (h : Situated setup sources v (.stmt room (.ofExpr e)) env fs) : False := by
  have hregular := h.regular
  obtain _ | ⟨hwalk⟩ := h.gives
  obtain ⟨_, rfl, hform⟩ := stmt_runs hwalk
  cases hform with
  | ofExpr => cases hregular

theorem notUnknown {kind : String}
    (h : Situated setup sources v (.stmt room (.unknown kind)) env fs) : False := by
  obtain _ | ⟨hwalk⟩ := h.gives
  obtain ⟨_, rfl, hform⟩ := stmt_runs hwalk
  cases hform

end Statements

section Frames

variable {m : Machine} {s : Stmt} {ss rest : List Stmt}

theorem inside {μ : Moment} (h : Situated setup sources v μ.event μ.env μ.machine.frames)
    (hμ : Happens setup sources μ) (hopens : μ.Opens) (hv : v.Leads v') (hgives : v'.Gives ev')
    (hregular : v'.Regular) (hsettled : v'.Settled)
    (htail : v'.state.scopes.tail = v.state.scopes)
    (hlies : Lies fs (μ.machine.frames.next :: μ.env.chain) v'.state.scopes) :
    Situated setup sources v' ev' (μ.env.inside μ.machine.frames.next) fs where
  visited := h.visited.tail hv
  gives := hgives
  regular := hregular
  settled := hsettled
  lies := hlies
  made := h.made.inside h.visited hμ h.gives hopens hv htail

theorem item {room : Nat}
    (h : Situated setup sources v (.stmt room (.block (ss ++ s :: rest))) m.env m.frames)
    (hμ : Happens setup sources ⟨.stmt room (.block (ss ++ s :: rest)), m⟩) :
    ∃ v', v'.state.scopes = declaredAll ss (.empty :: v.state.scopes) ∧
      ∀ n fs', Lies fs' (m.frames.next :: m.env.chain) v'.state.scopes →
        Situated setup sources v' (.stmt n s) (m.env.inside m.frames.next) fs' := by
  have hregular := h.regular
  have hsettled := h.settled
  obtain _ | ⟨hwalk⟩ := h.gives
  obtain ⟨n₀, rfl, hform⟩ := stmt_runs hwalk
  cases hform with
  | block hbody =>
    cases hregular with
    | block hss =>
      obtain ⟨as, a, bs, r₁, r₂, rfl, has, ha, -⟩ := (hbody.all (stmt_careful _)).split
      have hscopes := has.scopes_declared fun s hmem _ _ _ hs ↦
        stmt_scopes (hss s (List.mem_append_left _ hmem)) hs
      obtain rfl := has.after_eq
      refine ⟨⟨.stmt (n₀ + 1) a, _⟩, hscopes.trans (has.declaredAll_eq _).symm,
        fun n fs' hlies ↦ ?_⟩
      refine Situated.inside h hμ trivial .item (.stmt ha) (hss a (by simp)) ?_
        ((congrArg List.tail hscopes).trans (declaredAll_tail _ _)) hlies
      show TreeWalk.Settled (Resolving.after _ _).scopes
      rw [hscopes]
      exact (TreeWalk.Settled.inside hsettled).declaredAll as

theorem statement {room : Nat} {c : Closure} {arguments : List Value}
    (h : Situated setup sources v (.enter room c arguments) c.env m.frames)
    (hμ : Happens setup sources ⟨.enter room c arguments, m⟩) (hbody : c.decl.body = ss ++ s :: rest) :
    ∃ v', v'.state.scopes = declaredAll ss
        (c.decl.params.foldl (fun scopes t ↦ declareIn t.lexeme scopes) (.empty :: v.state.scopes)) ∧
      ∀ n fs', Lies fs' (m.frames.next :: c.env.chain) v'.state.scopes →
        Situated setup sources v' (.stmt n s) (c.env.inside m.frames.next) fs' := by
  have hregular := h.regular
  have hsettled := h.settled
  obtain _ | _ | @⟨n₀, _, _, _, _, _, _, _, hwalk⟩ := h.gives
  obtain ⟨decl, env, isInitializer⟩ := c
  cases function_runs hwalk with
  | mk hparams hstmts =>
    obtain rfl : _ = ss ++ s :: rest := hbody
    obtain ⟨as, a, bs, r₁, r₂, rfl, has, ha, -⟩ := (hstmts.all (stmt_careful _)).split
    have hp := parameters_runs hparams
    have hscopes := has.scopes_declared fun s hmem _ _ _ hs ↦
      stmt_scopes (hregular s (List.mem_append_left _ hmem)) hs
    obtain rfl := hparams.after_eq
    obtain rfl := has.after_eq
    rw [hp] at hscopes
    refine ⟨⟨.stmt n₀ a, _⟩, hscopes.trans (has.declaredAll_eq _).symm, fun n fs' hlies ↦ ?_⟩
    have htail := (congrArg List.tail hscopes).trans
      ((declaredAll_tail _ _).trans (foldl_declareIn_tail _ _))
    refine Situated.inside h hμ trivial .statement (.stmt ha) (hregular a (by simp [FunDecl.body]))
      ?_ htail hlies
    show TreeWalk.Settled (Resolving.after _ _).scopes
    rw [hscopes]
    exact ((TreeWalk.Settled.inside hsettled).parameters _).declaredAll as

theorem bound {c : Closure} {this : Value}
    (h : Situated setup sources v (.bind c this) c.env m.frames)
    (hμ : Happens setup sources ⟨.bind c this, m⟩) :
    ∃ v', ∀ n b arguments, Situated setup sources v'
      (.enter n ⟨c.decl, c.env.inside m.frames.next, b⟩ arguments) (c.env.inside m.frames.next)
      (m.frames.push (Bindings.empty.set "this" this)) := by
  have hregular := h.regular
  have hsettled := h.settled
  obtain _ | _ | _ | @⟨n₀, _, _, _, _, _, _, hwalk, hmem⟩ := h.gives
  obtain ⟨ds₁, ds₂, hds⟩ := List.append_of_mem hmem
  rw [hds] at hwalk
  obtain ⟨as, a, bs, r₁, r₂, rfl, has, ha, -⟩ := (hwalk.all (method_careful _)).split
  have hscopes := has.scopes_eq fun d hmem _ _ _ hd ↦
    function_scopes (hregular d (List.mem_append_left _ hmem)) (function_runs hd)
  refine ⟨⟨.function n₀ (methodRole a) a, r₁⟩, fun n b arguments ↦ ?_⟩
  obtain rfl := has.after_eq
  refine Situated.inside h hμ trivial .method (.function ha) (hregular a (by simp)) ?_
    (congrArg List.tail hscopes) ?_
  · show TreeWalk.Settled (Resolving.after _ _).scopes
    rw [hscopes]
    refine TreeWalk.Settled.cons hsettled fun name ↦ ?_
    rw [thisScope, Bindings.get?_set]
    split <;> simp [Bindings.empty, Bindings.get?]
  · show Lies _ _ (Resolving.after _ _).scopes
    rw [hscopes]
    refine h.lies.push fun name hname ↦ ?_
    rw [thisScope, Bindings.get?_set] at hname
    rw [Bindings.contains_set]
    split at hname
    · next he => exact .inl he
    · simp [Bindings.empty, Bindings.get?] at hname

theorem declared {name : String} (h : Situated setup sources v ev env fs) (hv : v.Leads v')
    (hgives : v'.Gives ev') (hregular : v'.Regular) (hsettled : v'.Settled)
    (hscopes : v'.state.scopes = declareIn name v.state.scopes)
    (hlies : Lies fs' env.chain (declareIn name v.state.scopes)) :
    Situated setup sources v' ev' env fs' where
  visited := h.visited.tail hv
  gives := hgives
  regular := hregular
  settled := hsettled
  lies := hscopes ▸ hlies
  made := by
    refine h.made.part hv ?_ ?_
    · rw [hscopes, declareIn, markIn_tail, markIn_tail]
    · have hlen := hlies.length_eq.symm.trans h.lies.length_eq
      rw [hscopes]
      omega

theorem function {room : Nat} {d : FunDecl}
    (h : Situated setup sources v (.stmt room (.function d)) env fs) :
    ∃ v', ∀ fs', Lies fs' env.chain (declareIn d.name.lexeme v.state.scopes) →
      ∀ n arguments, Situated setup sources v' (.enter n ⟨d, env, false⟩ arguments) env fs' := by
  have hregular := h.regular
  have hsettled := h.settled
  obtain _ | ⟨hwalk⟩ := h.gives
  obtain ⟨n₀, rfl, hform⟩ := stmt_runs hwalk
  cases hform with
  | @function d₀ _ _ _ r₁ r₂ _ hdeclare hdefine hfunction =>
    have hname : d.name = d₀.name := by
      cases function_runs hfunction
      rfl
    have hscopes := congrArg Resolution.scopes (define_runs hdefine)
    rw [declare_runs hdeclare] at hscopes
    refine ⟨⟨.function n₀ .function d₀, r₂⟩, fun fs' hlies n arguments ↦ ?_⟩
    obtain rfl := hdeclare.after_eq
    obtain rfl := hdefine.after_eq
    rw [hname] at hlies
    cases hregular with
    | function hss =>
      refine h.declared .function (.function hfunction) hss ?_ hscopes hlies
      show TreeWalk.Settled (Resolving.after _ _).scopes
      rw [hscopes]
      exact TreeWalk.Settled.declareIn hsettled _

theorem methods {room : Nat} {name : Token} {ds : List FunDecl}
    (h : Situated setup sources v (.stmt room (.cls name ds)) env fs) :
    ∃ v', ∀ fs', Lies fs' env.chain (declareIn name.lexeme v.state.scopes) →
      ∀ d ∈ ds, ∀ b this, Situated setup sources v' (.bind ⟨d, env, b⟩ this) env fs' := by
  have hregular := h.regular
  have hsettled := h.settled
  obtain _ | ⟨hwalk⟩ := h.gives
  obtain ⟨n₀, rfl, hform⟩ := stmt_runs hwalk
  cases hform with
  | @cls _ ds₀ _ _ _ r₁ r₂ _ _ hdeclare hdefine hmethods =>
    have hscopes := congrArg Resolution.scopes (define_runs hdefine)
    rw [declare_runs hdeclare] at hscopes
    refine ⟨⟨.methods n₀ ds₀, r₂⟩, fun fs' hlies d hmem b this ↦ ?_⟩
    obtain rfl := hdeclare.after_eq
    obtain rfl := hdefine.after_eq
    cases hregular with
    | cls hss =>
      refine h.declared .methods (.methods hmethods hmem) hss ?_ hscopes hlies
      show TreeWalk.Settled (Resolving.after _ _).scopes
      rw [hscopes]
      exact TreeWalk.Settled.declareIn hsettled _

end Frames

section References

variable {room : Nat} {name : Token} {ref : Ref} {d : Nat}

theorem hops?_eq_some {scopes : List Scope} {k : String} (h : hops? scopes k = some d) :
    ∃ scope, scopes[d]? = some scope ∧ scope.contains k = true := by
  obtain ⟨hd, hc, -⟩ := List.findIdx?_eq_some_iff_getElem.mp h
  exact ⟨scopes[d], List.getElem?_eq_getElem hd, hc⟩

/-- A reference with a distance leads to a name that is defined and bound. -/
theorem finds {k : String} (h : Situated setup sources v ev env fs)
    (hhead : ∀ scope ∈ v.state.scopes.head?, scope.get? k ≠ some false)
    (htail : TreeWalk.Settled v.state.scopes.tail) (hd : hops? v.state.scopes k = some d) :
    ∃ scope f, v.state.scopes[d]? = some scope ∧ scope.get? k = some true ∧
      env.chain[d]? = some f ∧ (fs.bindings f).contains k = true := by
  obtain ⟨scope, hscope, hc⟩ := hops?_eq_some hd
  have hne : scope.get? k ≠ some false := by
    cases d with
    | zero =>
      exact hhead scope (by rw [List.head?_eq_getElem?, hscope]; exact rfl)
    | succ d =>
      refine htail scope (List.mem_of_getElem? (i := d) ?_) k
      rw [List.getElem?_tail, hscope]
  obtain ⟨marked, hmarked⟩ := Bindings.contains_iff.mp hc
  have htrue : scope.get? k = some true := by
    cases marked
    · exact absurd hmarked hne
    · exact hmarked
  obtain ⟨f, hf, hnames⟩ := h.lies.contains hscope
  exact ⟨scope, f, hscope, htrue, hf, hnames k htrue⟩

theorem variable_finds (h : Situated setup sources v (.expr room (.var name ref)) env fs) :
    ref.hops = hops? v.state.scopes name.lexeme ∧ ∀ d, ref.hops = some d →
      ∃ scope f, v.state.scopes[d]? = some scope ∧ scope.get? name.lexeme = some true ∧
        env.chain[d]? = some f ∧ (fs.bindings f).contains name.lexeme = true := by
  have hsettled := h.settled
  obtain ⟨hwalk⟩ := h.gives
  obtain ⟨_, rfl, hform⟩ := expr_runs hwalk
  cases hform with
  | var hhead => exact ⟨rfl, fun d hd ↦ h.finds hhead hsettled.1 hd⟩

theorem self_finds (h : Situated setup sources v (.expr room (.self name ref)) env fs) :
    ref.hops = hops? v.state.scopes name.lexeme ∧ ∀ d, ref.hops = some d →
      ∃ scope f, v.state.scopes[d]? = some scope ∧ scope.get? name.lexeme = some true ∧
        env.chain[d]? = some f ∧ (fs.bindings f).contains name.lexeme = true := by
  have hregular := h.regular
  have hsettled := h.settled
  obtain ⟨hwalk⟩ := h.gives
  obtain ⟨_, rfl, hform⟩ := expr_runs hwalk
  cases hform with
  | self =>
    cases hregular with
    | self hthis =>
      refine ⟨rfl, fun d hd ↦ h.finds ?_ hsettled.1 hd⟩
      rw [hthis]
      exact hsettled.2

theorem target {e : Expr} (h : Situated setup sources v (.expr room (.assign name e ref)) env fs) :
    ∀ d, ref.hops = some d → ∃ f, env.frameAt d = .ok f := by
  have hregular := h.regular
  obtain ⟨hwalk⟩ := h.gives
  obtain ⟨_, rfl, hform⟩ := expr_runs hwalk
  cases hform with
  | assign hvalue =>
    cases hregular with
    | assign he =>
      intro d hd
      have hd : hops? _ name.lexeme = some d := hd
      rw [expr_scopes he hvalue] at hd
      obtain ⟨scope, hscope, -⟩ := hops?_eq_some hd
      obtain ⟨f, hf, -⟩ := h.lies.contains hscope
      exact ⟨f, by rw [Env.frameAt, hf]⟩

end References

end Situated

end Situated

end Session

end TreeWalk
