/-!
# TOML tables

A table is opened by a header, implied by the header of a table inside it, or grown by dotted keys.
What way it came about decides what may still be added to it: a header opens a table once, dotted
keys do not reach into a table with a header, and an inline table is closed.
-/

namespace TypeInference.Toml

/-- How a table came about. -/
inductive Origin where
  | header
  | implied
  | dotted
deriving DecidableEq

inductive Node where
  | string (value : String)
  | integer (value : Int)
  | float
  | boolean (value : Bool)
  | dateTime
  | array (elems : List Node)
  | inlineTable (entries : List (String × Node))
  | table (origin : Origin) (entries : List (String × Node))
  /-- Tables under one header with double brackets, the last one first. -/
  | tables (blocks : List (List (String × Node)))

abbrev Entries := List (String × Node)

namespace Entries

def get? (es : Entries) (k : String) : Option Node :=
  (es.find? (·.1 = k)).map (·.2)

def set (es : Entries) (k : String) (node : Node) : Entries :=
  if es.any (·.1 = k) then
    es.map fun (k', n) => if k' = k then (k, node) else (k', n)
  else
    es ++ [(k, node)]

/-- Gives a value to a key that has none, under the dotted keys of `path`. The table at the end of
`path` must be one that dotted keys grew. -/
def assign (k : String) (node : Node) : List String → Entries → Option Entries
  | [], es => if (get? es k).isSome then none else some (es ++ [(k, node)])
  | p :: path, es =>
    match get? es p with
    | none => do return set es p (.table .dotted (← assign k node path []))
    | some (.table origin inner) =>
      if origin = .header ∨ (path = [] ∧ origin ≠ .dotted) then none
      else do return set es p (.table origin (← assign k node path inner))
    | some (.tables (last :: earlier)) =>
      if path = [] then none
      else do return set es p (.tables ((← assign k node path last) :: earlier))
    | some _ => none

/-- Changes the table at `path`, implying the tables on the way. -/
def alter (f : Entries → Option Entries) : List String → Entries → Option Entries
  | [], es => f es
  | p :: path, es =>
    match get? es p with
    | none => do return set es p (.table .implied (← alter f path []))
    | some (.table origin inner) => do return set es p (.table origin (← alter f path inner))
    | some (.tables (last :: earlier)) => do
      return set es p (.tables ((← alter f path last) :: earlier))
    | some _ => none

def openTable (k : String) (es : Entries) : Option Entries :=
  match get? es k with
  | none => some (set es k (.table .header []))
  | some (.table .implied inner) => some (set es k (.table .header inner))
  | some _ => none

/-- Opens one more of the tables `k` by its header with double brackets. -/
def openBlock (k : String) (es : Entries) : Option Entries :=
  match get? es k with
  | none => some (set es k (.tables [[]]))
  | some (.tables blocks) => some (set es k (.tables ([] :: blocks)))
  | some _ => none

end Entries

end TypeInference.Toml
