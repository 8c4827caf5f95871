import TypeInference.Journal
import Mathlib.Tactic.Common

/-!
# Taking changes back

What is needed of a journal is said by two relations. A journal is *later* than another one if it is
that one after some changes, each of which was logged with how to undo it, and a snapshot can be
rolled back from every later journal. A *shadow* of a journal does what the journal does, inside one
more snapshot.
-/

namespace TypeInference.Journal

variable {α δ : Type} {undo : δ → α → α} {entry : δ} {change : α → α}

/-- Nothing stays in the log without an open snapshot. -/
def Kept (j : Journal α δ) : Prop := j.depth = 0 → j.log = #[]

/-! ## Rewinding -/

theorem rewind_of_log_empty {j : Journal α δ} (h : j.log = #[]) (n : Nat) :
    rewind undo n j = j := by
  obtain ⟨current, log, depth⟩ := j
  subst h
  cases n <;> rfl

theorem rewind_add (m n : Nat) (j : Journal α δ) :
    rewind undo (m + n) j = rewind undo n (rewind undo m j) := by
  induction m generalizing j with
  | zero => rw [Nat.zero_add, rewind]
  | succ m ih =>
    obtain ⟨current, log, depth⟩ := j
    rw [Nat.succ_add, rewind, rewind]
    cases hlast : log.back? with
    | some entry => exact ih _
    | none => exact (rewind_of_log_empty (Array.back?_eq_none_iff.1 hlast) n).symm

theorem rewind_write {j : Journal α δ} (hdepth : j.depth ≠ 0)
    (hundo : undo entry (change j.current) = j.current) :
    rewind undo 1 (j.write entry change) = j := by
  obtain ⟨current, log, depth⟩ := j
  have hundo : undo entry (change current) = current := hundo
  simp only [write, if_neg hdepth, rewind, Array.back?_push, Array.pop_push, hundo]

theorem rewind_with_depth (n d : Nat) (j : Journal α δ) :
    rewind undo n { j with depth := d } = { rewind undo n j with depth := d } := by
  induction n generalizing j with
  | zero => rfl
  | succ n ih =>
    obtain ⟨current, log, depth⟩ := j
    simp only [rewind]
    cases log.back? with
    | some entry => exact ih ⟨undo entry current, log.pop, depth⟩
    | none => rfl

/-! ## Later journals -/

/-- Journal `j'` is `j` after changes that can be undone; without an open snapshot they leave no
trace in the log. -/
structure Later (undo : δ → α → α) (j j' : Journal α δ) : Prop where
  depth_eq : j'.depth = j.depth
  log_eq : j.depth = 0 → j'.log = j.log
  rewinds : j.depth ≠ 0 → ∃ n, j'.log.size = j.log.size + n ∧ rewind undo n j' = j

namespace Later

variable {j j' j'' : Journal α δ}

theorem refl (j : Journal α δ) : Later undo j j :=
  ⟨rfl, fun _ => rfl, fun _ => ⟨0, rfl, rfl⟩⟩

theorem trans (h : Later undo j j') (h' : Later undo j' j'') : Later undo j j'' := by
  refine ⟨h'.depth_eq.trans h.depth_eq, ?_, ?_⟩
  · intro hdepth
    rw [h'.log_eq (h.depth_eq.trans hdepth), h.log_eq hdepth]
  · intro hdepth
    obtain ⟨n, hsize, hrewind⟩ := h.rewinds hdepth
    obtain ⟨n', hsize', hrewind'⟩ := h'.rewinds (h.depth_eq ▸ hdepth)
    refine ⟨n' + n, by omega, ?_⟩
    rw [rewind_add, hrewind', hrewind]

theorem write (hundo : undo entry (change j.current) = j.current) :
    Later undo j (j.write entry change) := by
  refine ⟨rfl, ?_, ?_⟩
  · intro hdepth
    simp only [Journal.write, if_pos hdepth]
  · intro hdepth
    refine ⟨1, ?_, rewind_write hdepth hundo⟩
    simp only [Journal.write, if_neg hdepth, Array.size_push]

theorem kept (h : Later undo j j') (hkept : j.Kept) : j'.Kept := by
  intro hdepth
  rw [h.depth_eq] at hdepth
  rw [h.log_eq hdepth, hkept hdepth]

/-- Rolling back gives the journal on which the snapshot was opened. -/
theorem rollback_eq (h : Later undo j.opened j') : j'.rollback undo j.mark = j := by
  obtain ⟨n, hsize, hrewind⟩ := h.rewinds (Nat.succ_ne_zero _)
  -- What is to be undone is what was logged since the mark.
  have hn : j'.log.size - j.mark = n := by
    have hopened : j.opened.log.size = j.mark := rfl
    omega
  simp only [rollback, hn, hrewind, opened, Nat.add_sub_cancel]

/-- What was done inside a snapshot can be undone outside. -/
theorem commit (hkept : j.Kept) (h : Later undo j.opened j') : Later undo j j'.commit := by
  have hdepth' : j'.depth - 1 = j.depth := by
    rw [h.depth_eq]
    exact Nat.add_sub_cancel ..
  refine ⟨hdepth', ?_, ?_⟩
  · -- the outermost snapshot is closed, and the log is emptied
    intro hdepth
    simp only [Journal.commit, hdepth', if_pos hdepth, hkept hdepth]
  · intro hdepth
    obtain ⟨n, hsize, hrewind⟩ := h.rewinds (Nat.succ_ne_zero _)
    have hcommit : j'.commit = { j' with depth := j.depth } := by
      simp only [Journal.commit, hdepth', if_neg hdepth]
    refine ⟨n, ?_, ?_⟩
    · rw [hcommit]
      exact hsize
    · rw [hcommit, rewind_with_depth, hrewind]
      rfl

end Later

/-! ## Shadows -/

/-- Journal `j'` is `j` inside one more snapshot. Only what `j` logs itself has to be in both logs. -/
structure Shadow (j j' : Journal α δ) : Prop where
  current_eq : j'.current = j.current
  depth_eq : j'.depth = j.depth + 1
  log_eq : j.depth ≠ 0 → j'.log = j.log

namespace Shadow

variable {j j' : Journal α δ}

theorem of_opened (j : Journal α δ) : Shadow j j.opened := ⟨rfl, rfl, fun _ => rfl⟩

theorem write (h : Shadow j j') : Shadow (j.write entry change) (j'.write entry change) := by
  refine ⟨congrArg change h.current_eq, h.depth_eq, ?_⟩
  intro hdepth
  have hj : j.depth ≠ 0 := hdepth
  have hj' : j'.depth ≠ 0 := by
    rw [h.depth_eq]
    exact Nat.succ_ne_zero _
  simp only [Journal.write, if_neg hj, if_neg hj', h.log_eq hj]

theorem kept (h : Shadow j j') : j'.Kept := by
  intro hdepth
  rw [h.depth_eq] at hdepth
  exact absurd hdepth (Nat.succ_ne_zero _)

/-- Keeping what was done in a shadow gives the journal. -/
theorem commit_eq (hkept : j.Kept) (h : Shadow j j') : j'.commit = j := by
  have hlog : (if j.depth = 0 then #[] else j'.log) = j.log := by
    split
    · next hzero => exact (hkept hzero).symm
    · next hzero => exact h.log_eq hzero
  simp only [Journal.commit, h.depth_eq, Nat.add_sub_cancel, hlog, h.current_eq]

end Shadow

end TypeInference.Journal
