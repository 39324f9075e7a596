import TreeWalk.Proofs.Scope.Effect

namespace TreeWalk

/-- The state behind a top-level statement, from which the walk goes on if that was too deep. -/
def Resolution.resumed (r : Resolution) (s : Stmt) : Resolution :=
  if r.halted = some .tooDeep then
    { links := r.links,
      faults := r.faults.push ⟨(s.anchor.map (·.line)).getD 1, .unspecified, .nestingTooDeep⟩ }
  else r

namespace Resolving

variable {room : Nat} {s s' : Stmt} {ss ss' : List Stmt} {r r' : Resolution}

theorem topLevel_run (room : Nat) (s : Stmt) (r : Resolution) :
    (topLevel room s).run r = (((stmt room s).run r).1, ((stmt room s).run r).2.resumed s) := by
  have h : (topLevel room s).run r = (do
      if ((stmt room s).run r).2.halted == some .tooDeep then
        modify fun r' ↦
          { links := r'.links, faults := r'.faults.push
              ⟨(s.anchor.map (·.line)).getD 1, .unspecified, .nestingTooDeep⟩ }
      return ((stmt room s).run r).1 : Resolving Stmt).run ((stmt room s).run r).2 := rfl
  rw [h, Resolution.resumed]
  by_cases hh : ((stmt room s).run r).2.halted = some .tooDeep
  · rw [if_pos hh, if_pos (by rw [hh]; rfl)]
    rfl
  · rw [if_neg hh, if_neg (by simpa using hh)]
    rfl

theorem resumed_halted (r : Resolution) (s : Stmt) : (r.resumed s).halted ≠ some .tooDeep := by
  unfold Resolution.resumed
  split
  · simp
  · assumption

theorem Resolution.Clean.of_resumed (h : (r.resumed s).Clean) : r.resumed s = r := by
  unfold Resolution.resumed at h ⊢
  split
  · next hh =>
    rw [if_pos hh] at h
    exact absurd h.2 (by simp)
  · rfl

theorem topLevel_runs (h : Runs (topLevel room s) r s' r') : Runs (stmt room s) r s' r' := by
  obtain ⟨hrun, hclean⟩ := h
  rw [topLevel_run] at hrun
  obtain ⟨rfl, rfl⟩ := Prod.mk.inj hrun
  have hr := Resolution.Clean.of_resumed hclean
  rw [hr] at hclean ⊢
  exact ⟨rfl, hclean⟩

theorem Runs.topLevel (h : Runs (stmt room s) r s' r') : Runs (topLevel room s) r s' r' := by
  refine ⟨?_, h.2⟩
  rw [topLevel_run, h.1, Resolution.resumed, h.2.1, if_neg (by simp)]

theorem topLevel_careful (room : Nat) (s : Stmt) : Careful (topLevel room s) :=
  fun _ hr hclean ↦
    hr ((topLevel_runs (Runs.of_after hclean).choose_spec).clean (stmt_careful room s))

theorem mapM_halted (room : Nat) (ss : List Stmt) (hr : r.halted ≠ some .tooDeep) :
    (after (ss.mapM (topLevel room)) r).halted ≠ some .tooDeep := by
  induction ss generalizing r with
  | nil => exact hr
  | cons s ss ih =>
    rw [List.mapM_cons]
    refine ih (r := after (topLevel room s) r) ?_
    rw [after, topLevel_run]
    exact resumed_halted _ s

def Known (r : Resolution) : Prop := ∀ kind, r.halted ≠ some (.unknown kind)

theorem known_kept : Kept Known where
  congr h hh _ kind hr := h kind (hh ▸ hr)
  complaint _ h := h
  tooDeep _ _ := by simp

theorem topLevel_known (room : Nat) (hs : s.Regular) : Keeps Known (topLevel room s) := by
  intro r hr
  have hstmt := stmt_keeps known_kept room s (.inl hs) r hr
  rw [after, topLevel_run, Resolution.resumed]
  split
  · exact fun kind ↦ by simp
  · exact hstmt

theorem RunsAll.topLevel_scopes (h : RunsAll (topLevel room) r ss ss' r')
    (hss : ∀ s ∈ ss, s.Regular) (hr : r.scopes = []) : r'.scopes = [] := by
  induction h with
  | nil => exact hr
  | cons hs _ ih =>
    refine ih (fun s h ↦ hss s (.tail _ h)) ?_
    rw [stmt_scopes (hss _ (.head _)) (topLevel_runs hs), hr, Stmt.declaredIn]
    split <;> rfl

end Resolving

open Resolving

/-- A regular program can be resolved. -/
theorem Resolved.ofStatements_regular (room : Nat) {ss : List Stmt} (hss : ∀ s ∈ ss, s.Regular) :
    ∃ resolved, ofStatements room ss = .ok resolved := by
  have hknown : Known (after (ss.mapM (topLevel room)) {}) :=
    Keeps.mapM ss (fun s hs ↦ topLevel_known room (hss s hs)) {} fun _ ↦ by simp
  cases hrun : (ss.mapM (topLevel room)).run {} with
  | mk ss' r =>
    rw [after, hrun] at hknown
    refine ⟨⟨ss', r.links.toList, r.faults.toList⟩, ?_⟩
    rw [ofStatements, hrun]
    dsimp only
    split
    · next kind hkind => exact absurd hkind (hknown kind)
    · rfl

/-- A program is resolved without a complaint if the walk over its statements goes well. -/
theorem Resolved.runs_of_ofStatements {room : Nat} {ss : List Stmt} {resolved : Resolved}
    (h : ofStatements room ss = .ok resolved) (hclean : resolved.faults = []) :
    ∃ r, RunsAll (topLevel room) {} ss resolved.statements r := by
  have hnone := mapM_halted room ss (r := {}) (by simp)
  unfold ofStatements at h
  cases hrun : (ss.mapM (topLevel room)).run {} with
  | mk ss' r =>
    rw [after, hrun] at hnone
    rw [hrun] at h
    dsimp only at h hnone
    split at h
    · cases h
    · next hknown =>
      cases h
      have hr : r.Clean := by
        refine ⟨?_, by simpa using hclean⟩
        cases hh : r.halted with
        | none => rfl
        | some halt =>
          cases halt with
          | tooDeep => exact absurd hh hnone
          | unknown kind => exact absurd hh (hknown kind)
      exact ⟨r, Runs.all (topLevel_careful room) ⟨hrun, hr⟩⟩

theorem Resolved.ofStatements_of_runs {room : Nat} {ss ss' : List Stmt} {r : Resolution}
    (h : RunsAll (topLevel room) {} ss ss' r) (hr : r.Clean) :
    ofStatements room ss = .ok ⟨ss', r.links.toList, []⟩ := by
  rw [ofStatements, h.run_eq]
  dsimp only
  rw [hr.1, hr.2]

end TreeWalk
