import TypeInference.Journal
import TypeInference.Obligation

/-!
# The cache of normalized projections

Each projection starts absent, is in progress while it is being normalized, and ends as ambiguous,
as an error or with a type. Meeting a projection in progress means that it depends on itself.
Projections are looked up without regard to the names of regions.

The cache is a journal: while a snapshot is open, every entry that is made or replaced can be
undone.
-/

namespace TypeInference

inductive CacheEntry where
  | inProgress
  | ambiguous
  | error
  | normalized (result : Normalized Ty)

/-- How to undo a change to the entries of the cache. -/
inductive CacheUndo where
  /-- The entry of `key` goes. -/
  | remove (key : Projection)
  /-- Projection `key` gets back the entry it had. -/
  | restore (key : Projection) (entry : CacheEntry)

structure ProjectionCache where
  /-- The entries, the newest first. -/
  entries : Journal (List (Projection × CacheEntry)) CacheUndo

namespace ProjectionCache

def empty : ProjectionCache := ⟨{ current := [] }⟩

instance : EmptyCollection ProjectionCache := ⟨empty⟩

instance : Inhabited ProjectionCache := ⟨empty⟩

def lookup (key : Projection) (entries : List (Projection × CacheEntry)) : Option CacheEntry :=
  (entries.find? (·.1 == key)).map (·.2)

def get? (cache : ProjectionCache) (key : Projection) : Option CacheEntry :=
  lookup key cache.entries.current

def replace (key : Projection) (value : CacheEntry) :
    List (Projection × CacheEntry) → List (Projection × CacheEntry)
  | [] => []
  | (k, v) :: rest => if k == key then (k, value) :: rest else (k, v) :: replace key value rest

def insert (cache : ProjectionCache) (key : Projection) (entry : CacheEntry) : ProjectionCache :=
  match cache.get? key with
  | some old => ⟨cache.entries.write (.restore key old) (replace key entry)⟩
  | none => ⟨cache.entries.write (.remove key) ((key, entry) :: ·)⟩

/-- Marks an absent projection as in progress. Otherwise the answer is the entry that is there. -/
def start (cache : ProjectionCache) (key : Projection) : Option CacheEntry × ProjectionCache :=
  match cache.get? key with
  | some entry => (some entry, cache)
  | none => (none, cache.insert key .inProgress)

/-! ## Snapshots -/

def undo : CacheUndo → List (Projection × CacheEntry) → List (Projection × CacheEntry)
  | .remove key, entries => entries.eraseP (·.1 == key)
  | .restore key entry, entries => replace key entry entries

def mark (cache : ProjectionCache) : Nat := cache.entries.mark

def opened (cache : ProjectionCache) : ProjectionCache := ⟨cache.entries.opened⟩

def rollback (mark : Nat) (cache : ProjectionCache) : ProjectionCache :=
  ⟨cache.entries.rollback undo mark⟩

def commit (cache : ProjectionCache) : ProjectionCache := ⟨cache.entries.commit⟩

end ProjectionCache

end TypeInference
