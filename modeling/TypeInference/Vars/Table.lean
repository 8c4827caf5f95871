import TypeInference.Fault
import TypeInference.Journal

/-!
# Variable tables

A table partitions its variables, numbered from zero, into classes. Every class has a
representative, its *root*, and may have a value. Each variable has a parent in its class, and
following parents leads to the root, which is its own parent; the value of a class is stored at its
root. What a variable stores that is no longer a root has no meaning.

When two classes merge, the root of the first stays the root. Which variable represents a class is
visible in answers, so this rule is part of the contract of `Table.union`.

Changing a table looks roots up with `Table.find`, which makes the variables it passes children of
the root. This is not visible in roots or values, so `Table.root`, which only reads, leaves it out.

Tables are journals: while a snapshot is open, every new variable and every write to a variable
(also those of `find`) can be undone.
-/

namespace TypeInference

/-- What a table stores for one variable. -/
structure Cell (α : Type) where
  /-- Another variable of the class, or the variable itself if it is the root. -/
  parent : Nat
  /-- The value of the class, at its root. -/
  value : Option α

/-- How to undo a change to the cells of a table. -/
inductive CellUndo (α : Type) where
  /-- The newest variable goes. -/
  | remove
  /-- Variable `v` gets back the cell it had. -/
  | restore (v : Nat) (cell : Cell α)

def CellUndo.apply {α : Type} : CellUndo α → Array (Cell α) → Array (Cell α)
  | .remove, cells => cells.pop
  | .restore v cell, cells => cells.setIfInBounds v cell

structure Table (α : Type) where
  cells : Journal (Array (Cell α)) (CellUndo α)

namespace Table

variable {α : Type}

def empty : Table α := ⟨{ current := #[] }⟩

instance : EmptyCollection (Table α) := ⟨empty⟩

instance : Inhabited (Table α) := ⟨empty⟩

def size (t : Table α) : Nat := t.cells.current.size

def cell? (t : Table α) (v : Nat) : Option (Cell α) := t.cells.current[v]?

def stored? (t : Table α) (v : Nat) : Option α :=
  (t.cell? v).bind (·.value)

/-- Adds a variable in a class of its own. Its number is the size the table had. -/
def fresh (t : Table α) : Table α :=
  ⟨t.cells.write .remove fun cells => cells.push ⟨cells.size, none⟩⟩

def update (t : Table α) (v : Nat) (f : Cell α → Cell α) : Table α :=
  match t.cell? v with
  | some old => ⟨t.cells.write (.restore v old) (·.modify v f)⟩
  | none => t

/-! ## Roots -/

/-- The root of `v`, which is at most `n` variables away, itself included. -/
def rootWithin (t : Table α) : Nat → Nat → Except Fault Nat
  | 0, _ => .error .exhausted
  | n + 1, v =>
    match t.cell? v with
    | none => .error (.dangling .variable v)
    | some c => if c.parent = v then .ok v else t.rootWithin n c.parent

/-- The representative of `v`. No way to a root is longer than the table is large. -/
def root (t : Table α) (v : Nat) : Except Fault Nat :=
  t.rootWithin (t.size + 1) v

/-- The value of the class of `v`. -/
def value (t : Table α) (v : Nat) : Except Fault (Option α) := do
  return t.stored? (← t.root v)

/-- The root of `v`, likewise; the variables on the way become its children. -/
def findWithin : Nat → Nat → Table α → Except Fault (Nat × Table α)
  | 0, _, _ => .error .exhausted
  | n + 1, v, t =>
    match t.cell? v with
    | none => .error (.dangling .variable v)
    | some c =>
      if c.parent = v then
        .ok (v, t)
      else do
        let (r, t) ← findWithin n c.parent t
        return (r, if r = c.parent then t else t.update v ({ · with parent := r }))

/-- The representative of `v`, found with path compression. -/
def find (t : Table α) (v : Nat) : Except Fault (Nat × Table α) :=
  t.findWithin (t.size + 1) v

/-! ## Merging and binding -/

/-- Makes the root `loser` a child of the root `winner`, which inherits its value if it has
none. -/
def link (t : Table α) (winner loser : Nat) : Table α :=
  let inherited := t.stored? loser
  let t := t.update loser ({ · with parent := winner })
  if (t.stored? winner).isNone && inherited.isSome then
    t.update winner ({ · with value := inherited })
  else
    t

/-- Merges the class of `b` into the class of `a`. -/
def union (t : Table α) (a b : Nat) : Except Fault (Table α) := do
  let (ra, t) ← t.find a
  let (rb, t) ← t.find b
  return if ra = rb then t else t.link ra rb

/-- Gives the class of `v` the value `x`. A value that counts as equal stays as it is. -/
def bind [BEq α] (t : Table α) (v : Nat) (x : α) : Except Fault (Table α) := do
  let (r, t) ← t.find v
  return if t.stored? r == some x then t else t.update r ({ · with value := some x })

/-! ## Snapshots -/

def mark (t : Table α) : Nat := t.cells.mark

def opened (t : Table α) : Table α := ⟨t.cells.opened⟩

def rollback (mark : Nat) (t : Table α) : Table α := ⟨t.cells.rollback CellUndo.apply mark⟩

def commit (t : Table α) : Table α := ⟨t.cells.commit⟩

end Table

end TypeInference
