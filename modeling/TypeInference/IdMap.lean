/-!
# Finite maps on identifiers

A map from numbers to values, kept as a list with strictly increasing keys. Equal maps are equal
lists, and the entries come out in the order of their keys.
-/

namespace TypeInference

structure IdMap (α : Type) where
  entries : List (Nat × α)

namespace IdMap

variable {α β : Type}

def empty : IdMap α := ⟨[]⟩

instance : EmptyCollection (IdMap α) := ⟨empty⟩

instance : Inhabited (IdMap α) := ⟨empty⟩

def lookup (key : Nat) : List (Nat × α) → Option α
  | [] => none
  | (k, v) :: rest => if k = key then some v else lookup key rest

def get? (m : IdMap α) (key : Nat) : Option α :=
  lookup key m.entries

def contains (m : IdMap α) (key : Nat) : Bool :=
  (m.get? key).isSome

/-- Puts a value at `key` in a list of entries with increasing keys. -/
def put (key : Nat) (value : α) : List (Nat × α) → List (Nat × α)
  | [] => [(key, value)]
  | (k, v) :: rest =>
    if key < k then (key, value) :: (k, v) :: rest
    else if k = key then (key, value) :: rest
    else (k, v) :: put key value rest

def insert (m : IdMap α) (key : Nat) (value : α) : IdMap α :=
  ⟨put key value m.entries⟩

def values (m : IdMap α) : List α :=
  m.entries.map (·.2)

def mapM {m : Type → Type} [Monad m] (f : α → m β) (map : IdMap α) : m (IdMap β) := do
  return ⟨← map.entries.mapM fun (k, v) => do return (k, ← f v)⟩

end IdMap

end TypeInference
