import TreeWalk.Proofs.Machine.Thinning
import TreeWalk.Proofs.Scope.ForLoop

namespace TreeWalk

namespace Exec

/-- Rounds of a loop while the condition holds. After each body that is completed comes the increment. -/
def rounds (test : Exec Value) (body : Exec Flow) (increment : Exec Unit) : Nat → Exec Flow
  | 0 => throw .endless
  | n + 1 => do
    if (← test).isTruthy then
      match ← body with
      | .next => do
        increment
        rounds test body increment n
      | .returned v => return .returned v
    else return .next

end Exec

namespace ForLoop

open Exec

/-- What the loop does, its parts in as much room as they have in the tree. -/
def run (l : ForLoop) (setup : Setup) : Nat → Exec Flow
  | room + 3 => do
    let frame ← newFrame .empty
    within ((← get).env.inside frame) do
      discard (exec setup room l.initial)
      rounds (eval setup (room - 2) l.condition) (exec setup (room - 5) l.body)
        (discard (exec setup (room - 5) l.increment)) setup.limits.rounds
  | _ => throw .tooDeep

end ForLoop

namespace Exec

variable {setup : Setup} {w : List FrameId} {marks : List Bool}

def round (body : Exec Flow) (increment : Exec Unit) : Exec Flow := do
  match ← body with
  | .next => do
    increment
    return .next
  | .returned v => return .returned v

theorem round_bind (body : Exec Flow) (increment : Exec Unit) (f : Flow → Exec Flow) :
    (round body increment >>= f) = (do
      match ← body with
      | .next => do
        increment
        f .next
      | .returned v => f (.returned v)) := by
  unfold round
  rw [bind_assoc]
  congr 1
  funext flow
  cases flow <;> simp

theorem rounds_eq (test : Exec Value) (body : Exec Flow) (increment : Exec Unit) (n : Nat) :
    rounds test body increment n = repeatWhile test (round body increment) n := by
  induction n with
  | zero => rfl
  | succ n ih =>
    unfold rounds repeatWhile
    simp only [ih, round_bind]

theorem exec_tooDeep {room : Nat} (h : room < 3) (s : Stmt) : exec setup room s = throw .tooDeep := by
  obtain rfl | rfl | rfl : room = 0 ∨ room = 1 ∨ room = 2 := by omega
  all_goals rfl

theorem exec_inHeader {s : Stmt} (hs : s.InHeader) {room : Nat} {m m₁ : Machine} {flow : Flow}
    (hrun : exec setup room s m = .ok flow m₁) : flow = .next := by
  by_cases hroom : room < 3
  · rw [exec_tooDeep hroom] at hrun
    cases hrun
  · obtain ⟨room, rfl⟩ := Nat.exists_eq_add_of_le' (Nat.le_of_not_lt hroom)
    unfold exec at hrun
    cases hs with
    | empty =>
      cases hrun
      rfl
    | expression =>
      obtain ⟨_, _, -, hlast⟩ := ok_of_bind hrun
      cases hlast
      rfl
    | @var name initializer =>
      cases initializer with
      | none =>
        cases hrun
        rfl
      | some =>
        obtain ⟨_, _, -, hrest⟩ := ok_of_bind hrun
        cases hrest
        rfl

theorem header_tandem (hsetup : setup.Unaware) {s s' : Stmt} (hs : s.Thinned marks s')
    (hheader : s.InHeader) (room : Nat) {f : Flow → Exec Flow} {act' : Exec Flow}
    (hf : ∀ w₁, w <+: w₁ → Tandem w₁ marks Flow.Thinned (f .next) act') :
    Tandem w marks Flow.Thinned (exec setup room s >>= f)
      (discard (exec setup room s') >>= fun _ ↦ act') := by
  have hdiscard : (discard (exec setup room s') >>= fun _ ↦ act') =
      exec setup room s' >>= fun _ ↦ act' := bind_map_left _ _ _
  rw [hdiscard]
  refine ((exec_tandem hsetup room w marks s s' hs).knowing fun _ _ _ ↦ exec_inHeader hheader).bind
    fun w₁ flow flow' hw hflow ↦ ?_
  rw [hflow.2]
  exact hf w₁ hw

theorem exec_block (room : Nat) (ss : List Stmt) :
    exec setup (room + 3) (.block ss) = block (exec setup room) ss := by rw [exec]

theorem round_tandem (hsetup : setup.Unaware) {b b' n n' : Stmt} (hb : b.Thinned (true :: marks) b')
    (hn : n.Thinned (true :: marks) n') (hheader : n.InHeader) (room : Nat) :
    Tandem w marks Flow.Thinned (exec setup (room + 1) (.block [b, n]))
      (round (exec setup (room - 2) b') (discard (exec setup (room - 2) n'))) := by
  by_cases hroom : room < 2
  · rw [exec_tooDeep (by omega), exec_tooDeep (by omega)]
    exact .throw .tooDeep
  · obtain ⟨room, rfl⟩ := Nat.exists_eq_add_of_le' (Nat.le_of_not_lt hroom)
    rw [exec_block, Nat.add_sub_cancel]
    refine .inSpare ((exec_tandem hsetup room w _ b b' hb).bind fun w₁ flow flow' _ hflow ↦ ?_)
    cases hflow with
    | next => exact header_tandem hsetup hn hheader room fun _ _ ↦ flow_tandem .next
    | returned hv => exact flow_tandem (.returned hv)

theorem exec_loop (room : Nat) (c : Expr) (s : Stmt) :
    exec setup (room + 3) (.loop c s) =
      repeatWhile (eval setup (room + 1) c) (exec setup (room + 1) s) setup.limits.rounds := by
  rw [exec]

theorem sequence_one (run : Stmt → Exec Flow) (s : Stmt) : sequence run [s] = run s := by
  rw [sequence]
  conv_rhs => rw [← bind_pure (run s)]
  congr 1
  funext flow
  cases flow <;> rfl

theorem parts_tandem (hsetup : setup.Unaware) {l l' : ForLoop} (hl : l.Thinned marks l')
    (hinitial : l.initial.InHeader) (hincrement : l.increment.InHeader) (room : Nat) :
    Tandem w (false :: marks) Flow.Thinned
      (sequence (exec setup room) [l.initial, .loop l.condition (.block [l.body, l.increment])])
      (discard (exec setup room l'.initial) >>= fun _ ↦
        rounds (eval setup (room - 2) l'.condition) (exec setup (room - 5) l'.body)
          (discard (exec setup (room - 5) l'.increment)) setup.limits.rounds) := by
  by_cases hroom : room < 3
  · rw [sequence, exec_tooDeep hroom, exec_tooDeep hroom]
    exact .throw .tooDeep
  · refine header_tandem hsetup hl.initial hinitial room fun w₁ _ ↦ ?_
    obtain ⟨room, rfl⟩ := Nat.exists_eq_add_of_le' (Nat.le_of_not_lt hroom)
    have hloop := repeatWhile_tandem
      (eval_tandem hsetup (room + 1) w₁ _ l.condition l'.condition hl.condition)
      (round_tandem hsetup hl.body hl.increment hincrement room) setup.limits.rounds
    rw [← exec_loop, ← rounds_eq] at hloop
    dsimp only
    rw [sequence_one]
    exact hloop

/-- The tree of a loop and the loop itself, with the parts that are left without the spare frames. -/
theorem forLoop_tandem (hsetup : setup.Unaware) {l l' : ForLoop} (hl : l.Thinned marks l')
    (hinitial : l.initial.InHeader) (hincrement : l.increment.InHeader) (room : Nat) :
    Tandem w marks Flow.Thinned (exec setup room l.tree) (l'.run setup room) := by
  by_cases hroom : room < 3
  · have hrun : l'.run setup room = throw .tooDeep := by
      obtain rfl | rfl | rfl : room = 0 ∨ room = 1 ∨ room = 2 := by omega
      all_goals rfl
    rw [exec_tooDeep hroom, hrun]
    exact .throw .tooDeep
  · obtain ⟨room, rfl⟩ := Nat.exists_eq_add_of_le' (Nat.le_of_not_lt hroom)
    rw [ForLoop.tree, Stmt.forLoop, exec_block, ForLoop.run]
    refine (newFrame_tandem (.of_rel .empty)).bind fun w₁ f f' _ hf ↦ Tandem.get.bind
      fun w₂ m m' hw₂ hm ↦ (parts_tandem hsetup hl hinitial hincrement room).within
        (.frame (pair_mono hw₂ hf) hm.2)

end Exec

end TreeWalk
