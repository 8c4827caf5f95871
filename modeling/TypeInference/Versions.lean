/-!
# Versions

Work that may have to be undone happens between opening a snapshot and closing it again, either by
keeping what was done or by rolling it back. Snapshots nest, and the innermost is closed first.

A snapshot of type `β` need not be a copy of the current value of type `α`: it is whatever rolling
back needs. Rolling back an inference, for example, does not take back what it reported, and the
marks it is rolled back to are places in logs.
-/

namespace TypeInference

/-- A current value and the snapshots that are open on it, the innermost first. -/
structure Versions (α β : Type) where
  current : α
  saved : List β := []

namespace Versions

variable {α β : Type}

/-- Opens a snapshot; `enter` tells the current value so. -/
def save (take : α → β) (v : Versions α β) (enter : α → α := id) : Versions α β :=
  ⟨enter v.current, take v.current :: v.saved⟩

/-- Closes the innermost snapshot and keeps what was done since; `leave` tells the current value
so. -/
def commit? (v : Versions α β) (leave : α → α := id) : Option (Versions α β) :=
  match v.saved with
  | _ :: rest => some ⟨leave v.current, rest⟩
  | [] => none

/-- Closes the innermost snapshot and takes back what was done since. -/
def rollback? (restore : β → α → α) (v : Versions α β) : Option (Versions α β) :=
  match v.saved with
  | s :: rest => some ⟨restore s v.current, rest⟩
  | [] => none

end Versions

end TypeInference
