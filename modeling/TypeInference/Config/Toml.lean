import TypeInference.Config
import TypeInference.Toml.Document

/-!
# Settings from text

Settings are read from the top-level keys of a TOML text. A key that is absent has its default, and
other keys are ignored.
-/

namespace TypeInference.Config

open Toml

/-- Why settings were refused. -/
inductive Error where
  /-- The text is not TOML. -/
  | malformed
  /-- A setting has a value of another kind, or one out of range. -/
  | invalid (key : String)

/-- How a refusal is shown, whatever the cause. -/
def Error.message : Error → String
  | _ => "invalid inference config"

def setting {α : Type} (entries : Entries) (key : String) (default : α) (read : Node → Option α) :
    Except Error α :=
  match entries.get? key with
  | none => .ok default
  | some node =>
    match read node with
    | some a => .ok a
    | none => .error (.invalid key)

def natural (bound : Nat) : Node → Option Nat
  | .integer (.ofNat n) => if n < bound then some n else none
  | _ => none

def truth : Node → Option Bool
  | .boolean b => some b
  | _ => none

/-- The settings that a text gives. -/
def ofToml (text : String) : Except Error Config :=
  match Document.parse? text with
  | none => .error .malformed
  | some entries => do
    let autoderefLimit ←
      setting entries "autoderef_limit" default.autoderefLimit (natural UInt64.size)
    let recursionLimit ←
      setting entries "recursion_limit" default.recursionLimit (natural UInt32.size)
    let reportMismatches ← setting entries "report_mismatches" default.reportMismatches truth
    return { autoderefLimit, recursionLimit, reportMismatches }

end TypeInference.Config
