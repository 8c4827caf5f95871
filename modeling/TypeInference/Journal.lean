/-!
# Journals

A journal is a value whose changes can be taken back. While snapshots are open, every change leaves
an entry in the log that says how to undo it, and rolling back undoes the newest changes one after
the other until the log is as long as it was when the snapshot was opened. Without an open snapshot
nothing is logged.

Closing a snapshot keeps its entries: a snapshot around it may still be rolled back past them. Only
when the outermost snapshot is closed the log is emptied.
-/

namespace TypeInference

/-- A value of type `α` with a log of undo entries of type `δ`. -/
structure Journal (α δ : Type) where
  current : α
  /-- How to undo what was done since the outermost open snapshot, the newest change last. -/
  log : Array δ := #[]
  /-- The number of open snapshots. -/
  depth : Nat := 0

namespace Journal

variable {α δ : Type}

/-- Changes the value; `entry` says how to undo the change. -/
def write (j : Journal α δ) (entry : δ) (change : α → α) : Journal α δ :=
  match j with
  | ⟨current, log, depth⟩ => ⟨change current, if depth = 0 then log else log.push entry, depth⟩

/-- The place in the log up to which a snapshot opened now would be rolled back. -/
def mark (j : Journal α δ) : Nat := j.log.size

/-- Opens a snapshot. -/
def opened (j : Journal α δ) : Journal α δ :=
  { j with depth := j.depth + 1 }

/-- Undoes the newest `n` changes of the log. -/
def rewind (undo : δ → α → α) : Nat → Journal α δ → Journal α δ
  | 0, j => j
  | n + 1, ⟨current, log, depth⟩ =>
    match log.back? with
    | some entry => rewind undo n ⟨undo entry current, log.pop, depth⟩
    | none => ⟨current, log, depth⟩

/-- Closes a snapshot and takes back what was done since its mark. -/
def rollback (undo : δ → α → α) (mark : Nat) (j : Journal α δ) : Journal α δ :=
  let rewound := rewind undo (j.log.size - mark) j
  { rewound with depth := rewound.depth - 1 }

/-- Closes a snapshot and keeps what was done since. -/
def commit (j : Journal α δ) : Journal α δ :=
  { j with depth := j.depth - 1, log := if j.depth - 1 = 0 then #[] else j.log }

end Journal

end TypeInference
