import TypeInference.Body.Basic
import TypeInference.Outcome

/-!
# Reports

A diagnostic is reported with the place of its node in the source text, cut to the text and at least
one byte wide where the text has one. The machine-readable form is one object on one line; the
readable form has a headline and a label at the place. Labels are put under the characters of the
text, so that a place, which counts bytes, may end where there are none; it then has no label.
-/

namespace TypeInference

/-! ## Quoted text -/

def hexDigit (n : Nat) : Char :=
  "0123456789abcdef".toList.getD n '0'

/-- A character inside quotes. Control characters are escaped, by a letter where they have one. -/
def quotedChar (c : Char) : List Char :=
  match c with
  | '"' => ['\\', '"']
  | '\\' => ['\\', '\\']
  | '\x08' => ['\\', 'b']
  | '\x0c' => ['\\', 'f']
  | '\n' => ['\\', 'n']
  | '\r' => ['\\', 'r']
  | '\t' => ['\\', 't']
  | c =>
    if c.toNat < 32 then
      ['\\', 'u', '0', '0', hexDigit (c.toNat / 16), hexDigit (c.toNat % 16)]
    else
      [c]

def quoted (s : String) : String :=
  String.ofList ('"' :: s.toList.flatMap quotedChar ++ ['"'])

/-! ## Places -/

/-- Cuts a range to a text of `len` bytes. An empty range takes one more byte if there is one. -/
def TextRange.clamp (r : TextRange) (len : Nat) : TextRange :=
  let start := min r.start len
  let stop := max (min r.stop len) start
  if start = stop then
    ⟨start, min (stop + 1) len, by omega⟩
  else
    ⟨start, stop, by omega⟩

namespace Diagnostic

/-- Where a diagnostic is shown in `source`. -/
def place (d : Diagnostic) (body : Body) (source : String) : Except Fault TextRange := do
  return (← body.range d.site).clamp source.utf8ByteSize

/-! ## Machine-readable -/

/-- The types a diagnostic is about: the expected one, if any, and the one that was found. -/
def types : Diagnostic → Option Ty × Ty
  | .mismatch _ expected actual => (some expected, actual)
  | .cannotDeref _ ty => (none, ty)

def object (fields : List (String × String)) : String :=
  "\x7b" ++ ",".intercalate (fields.map fun (name, value) => quoted name ++ ":" ++ value) ++ "\x7d"

/-- The diagnostic as one object on one line. -/
def toJson (d : Diagnostic) (items : Items) (body : Body) (source : String) :
    Except Fault String := do
  let place ← d.place body source
  let expected ← d.types.1.mapM fun ty => ty.textIn items
  let actual ← d.types.2.textIn items
  let message ← d.message items
  return object (
    [("code", quoted d.code), ("message", quoted message),
      ("start", toString place.start), ("end", toString place.stop)]
    ++ (expected.map fun text => ("expected", quoted text)).toList
    ++ [("actual", quoted actual)])

/-! ## Readable -/

def firstLine (s : String) : String :=
  let line := s.toList.takeWhile (· ≠ '\n')
  String.ofList (if line.getLast? = some '\r' then line.dropLast else line)

def headline (d : Diagnostic) (items : Items) : Except Fault String := do
  return firstLine ("[" ++ d.code ++ "] Error: " ++ (← d.message items))

/-- What is said at the place of a diagnostic. -/
def explanation (d : Diagnostic) (items : Items) : Except Fault String := do
  match d with
  | .mismatch _ expected _ =>
    let expected ← expected.textIn items
    return s!"expected `{expected}` because of this slot"
  | .cannotDeref _ ty =>
    let ty ← ty.textIn items
    return s!"`{ty}` is not a pointer"

/-- The label at a place, on the line where it starts. A place that ends past the last character of
the source has none. -/
def label (d : Diagnostic) (items : Items) (place : TextRange) (source : String) :
    Except Fault (Option String) := do
  let text ← d.explanation items
  return if place.stop ≤ source.length then some (firstLine text) else none

end Diagnostic

/-- What is shown of a readable report. -/
structure Report where
  headline : String
  label : Option String
  place : TextRange
  color : Bool

def Diagnostic.report (d : Diagnostic) (items : Items) (body : Body) (source : String)
    (color : Bool) : Except Fault Report := do
  let place ← d.place body source
  let label ← d.label items place source
  let headline ← d.headline items
  return { headline, label, place, color }

end TypeInference
