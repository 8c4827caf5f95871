import TypeInference.Toml.Reader

/-!
# TOML strings and keys

Strings are basic, with escapes, or literal; each kind also has a form of several lines, which a
run of three quotes ends. One or two quotes more before its end belong to the string.
-/

namespace TypeInference.Toml

open Reader

/-! ## Escapes -/

def hexValue? (c : Char) : Option Nat :=
  if '0' ≤ c ∧ c ≤ '9' then some (c.toNat - '0'.toNat)
  else if 'a' ≤ c ∧ c ≤ 'f' then some (c.toNat - 'a'.toNat + 10)
  else if 'A' ≤ c ∧ c ≤ 'F' then some (c.toNat - 'A'.toNat + 10)
  else none

/-- A character given by exactly `n` hexadecimal digits. -/
def codePoint (n : Nat) : Reader Char := do
  let digits ← (List.range n).mapM fun _ => satisfy fun c => (hexValue? c).isSome
  let code := digits.foldl (fun acc c => acc * 16 + (hexValue? c).getD 0) 0
  if code.isValidChar then return Char.ofNat code else failure

def escape : Reader Char := do
  char '\\'
  match ← satisfy fun _ => true with
  | 'b' => return '\x08'
  | 't' => return '\t'
  | 'n' => return '\n'
  | 'f' => return '\x0c'
  | 'r' => return '\r'
  | '"' => return '"'
  | '\\' => return '\\'
  | 'u' => codePoint 4
  | 'U' => codePoint 8
  | _ => failure

/-! ## One line -/

def basicChar : Reader Char :=
  satisfy (fun c => isPlain c && c != '"' && c != '\\') <|> escape

def basicString : Reader String := do
  char '"'
  let cs ← many basicChar
  char '"'
  return String.ofList cs

def isLiteral (c : Char) : Bool := isPlain c && c != '\''

def literalString : Reader String := do
  char '\''
  let cs ← takeWhile isLiteral
  char '\''
  return String.ofList cs

/-! ## Several lines -/

/-- One or two quotes inside a string. -/
def innerQuotes (quote : Char) : Reader (List Char) := do
  let run ← takeWhile1 (· == quote)
  if run.length < 3 then return run else failure

/-- The quotes that end a string, with those that belong to it. -/
def closingQuotes (quote : Char) : Reader (List Char) := do
  let run ← takeWhile (· == quote)
  if 3 ≤ run.length ∧ run.length ≤ 5 then return run.drop 3 else failure

def lineBreak : Reader (List Char) := do
  newline
  return ['\n']

/-- A backslash at the end of a line, which swallows the blanks up to the next text. -/
def continuation : Reader (List Char) := do
  char '\\'
  blanks
  newline
  discard (many (discard (satisfy isBlank) <|> newline))
  return []

def multilineString (quote : Char) (piece : Reader (List Char)) : Reader String := do
  text (String.ofList [quote, quote, quote])
  discard (option newline)
  let pieces ← many (piece <|> lineBreak <|> innerQuotes quote)
  let tail ← closingQuotes quote
  return String.ofList (pieces.flatten ++ tail)

def multilineBasic : Reader String :=
  multilineString '"' (continuation <|> (do return [← basicChar]))

def multilineLiteral : Reader String :=
  multilineString '\'' (do return [← satisfy isLiteral])

def string : Reader String :=
  multilineBasic <|> basicString <|> multilineLiteral <|> literalString

/-! ## Keys -/

def isBareKey (c : Char) : Bool := c.isAlphanum || c == '-' || c == '_'

def simpleKey : Reader String :=
  basicString <|> literalString <|> (do return String.ofList (← takeWhile1 isBareKey))

/-- Nesting of this depth is refused. -/
def depthLimit : Nat := 80

/-- A key of one or more parts with dots between them. -/
def key : Reader (List String) := do
  let part : Reader String := do
    blanks
    let k ← simpleKey
    blanks
    return k
  let parts ← sepBy1 part (char '.')
  if parts.length < depthLimit then return parts else failure

end TypeInference.Toml
