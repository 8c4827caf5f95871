/-!
# Settings

The limits under which bodies are inferred and whether mismatches are reported.
-/

namespace TypeInference

structure Config where
  /-- The length at which a sequence of dereferences is cut off. -/
  autoderefLimit : Nat := 64
  /-- Obligations deeper than this are dropped. -/
  recursionLimit : Nat := 64
  /-- Whether mismatches are recorded. -/
  reportMismatches : Bool := true
deriving DecidableEq, Repr

namespace Config

def default : Config := {}

instance : Inhabited Config := ⟨default⟩

end Config

end TypeInference
