import TypeInference.Toml.Node
import TypeInference.Toml.Scalar

/-!
# TOML documents

A document is read line by line into statements, which then fill the tables one after the other.
-/

namespace TypeInference.Toml

open Reader

/-! ## Values -/

/-- A key and its value, under the dotted keys before it. -/
structure Assignment where
  path : List String
  key : String
  value : Node

/-- `key = value`, where the last part of a key is what the value belongs to. -/
def assignment (value : Reader Node) : Reader Assignment := do
  let parts ← key
  char '='
  blanks
  let node ← value
  match parts.getLast? with
  | some last => return ⟨parts.dropLast, last, node⟩
  | none => failure

/-- `[a, b]` over any number of lines; a comma may follow the last element. -/
def array (value : Reader Node) : Reader Node := do
  let element : Reader Node := do
    whitespace
    let node ← value
    whitespace
    return node
  char '['
  let elems ← sepBy element (char ',')
  unless elems.isEmpty do discard (option (char ','))
  whitespace
  char ']'
  return .array elems

/-- `{ a = 1, b = 2 }` on one line. -/
def inlineTable (value : Reader Node) : Reader Node := do
  let entry : Reader Assignment := do
    let a ← assignment value
    blanks
    return a
  char '\x7b'
  let assignments ← sepBy entry (char ',')
  blanks
  char '\x7d'
  match assignments.foldlM (fun es a => Entries.assign a.key a.value a.path es) [] with
  | some entries => return .inlineTable entries
  | none => failure

def scalar : Reader Node :=
  (.string <$> string) <|> (.boolean <$> boolean) <|> (do dateTime; return .dateTime)
    <|> (do float; return .float) <|> (.integer <$> integer)

/-- A value with arrays and tables at most `n` deep. -/
def value : Nat → Reader Node
  | 0 => scalar
  | n + 1 => scalar <|> array (value n) <|> inlineTable (value n)

/-! ## Statements -/

inductive Statement where
  /-- A line without content. -/
  | blank
  | header (path : List String)
  /-- A header with double brackets. -/
  | blockHeader (path : List String)
  | assign (assignment : Assignment)

def blockHeader : Reader Statement := do
  text "[["
  let path ← key
  text "]]"
  lineEnd
  return .blockHeader path

def header : Reader Statement := do
  char '['
  let path ← key
  char ']'
  lineEnd
  return .header path

def commentLine : Reader Statement := do
  comment
  newline <|> eof
  return .blank

def assignLine : Reader Statement := do
  let a ← assignment (value (depthLimit - 1))
  lineEnd
  return .assign a

/-- One line, or several if a value takes them. -/
def statement : Reader Statement := do
  blanks
  (do newline; return .blank) <|> commentLine <|> blockHeader <|> header <|> assignLine

/-- The statements of a text. A byte order mark before them is skipped. -/
def statements : Reader (List Statement) := do
  discard (option (char '\ufeff'))
  let lines ← many statement
  blanks
  eof
  return lines

/-! ## Documents -/

/-- A document as far as it is read, and the header it is under. -/
structure Document where
  entries : Entries := []
  current : List String := []

namespace Document

/-- Opens the table under a header. -/
def openAt (d : Document) (path : List String) (f : String → Entries → Option Entries) :
    Option Document := do
  let last ← path.getLast?
  let entries ← Entries.alter (f last) path.dropLast d.entries
  return ⟨entries, path⟩

def step (d : Document) : Statement → Option Document
  | .blank => some d
  | .header path => d.openAt path Entries.openTable
  | .blockHeader path => d.openAt path Entries.openBlock
  | .assign a => do
    let entries ← Entries.alter (Entries.assign a.key a.value a.path) d.current d.entries
    return { d with entries }

def parse? (s : String) : Option Entries := do
  let (lines, _) ← statements.run s.toList
  let d ← lines.foldlM step {}
  return d.entries

end Document

end TypeInference.Toml
