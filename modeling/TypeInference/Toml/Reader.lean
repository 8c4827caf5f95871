/-!
# Readers of TOML text

A reader takes a part off the front of a text, or fails. An alternative starts again where the one
before it started.
-/

namespace TypeInference.Toml

abbrev Reader := StateT (List Char) Option

namespace Reader

def satisfy (p : Char → Bool) : Reader Char := do
  match ← get with
  | c :: rest =>
    if p c then
      set rest
      return c
    else
      failure
  | [] => failure

def char (c : Char) : Reader Unit := discard (satisfy (· == c))

def text (s : String) : Reader Unit := s.toList.forM char

def takeWhile (p : Char → Bool) : Reader (List Char) := do
  let (taken, rest) := (← get).span p
  set rest
  return taken

def takeWhile1 (p : Char → Bool) : Reader (List Char) := do
  let c ← satisfy p
  return c :: (← takeWhile p)

def option {α : Type} (r : Reader α) : Reader (Option α) :=
  (some <$> r) <|> pure none

/-- Repeats a reader until it fails, at most `n` times. -/
def manyWithin {α : Type} (r : Reader α) : Nat → Reader (List α)
  | 0 => return []
  | n + 1 => do
    match ← option r with
    | some a => return a :: (← manyWithin r n)
    | none => return []

/-- Repeats a reader that takes at least one character until it fails. -/
def many {α : Type} (r : Reader α) : Reader (List α) := do
  manyWithin r (← get).length

/-- One or more, with a comma or the like between two. -/
def sepBy1 {α : Type} (r : Reader α) (separator : Reader Unit) : Reader (List α) := do
  let a ← r
  return a :: (← many (do separator; r))

/-- None or more, with a comma or the like between two. -/
def sepBy {α : Type} (r : Reader α) (separator : Reader Unit) : Reader (List α) :=
  sepBy1 r separator <|> pure []

def eof : Reader Unit := do
  match ← get with
  | [] => return ()
  | _ :: _ => failure

end Reader

/-! ## Blanks, line ends and comments -/

open Reader

def isBlank (c : Char) : Bool := c == ' ' || c == '\t'

def isNonAscii (c : Char) : Bool := 0x80 ≤ c.toNat

/-- Anything but a control character; a tab is none. -/
def isPlain (c : Char) : Bool :=
  c == '\t' || (0x20 ≤ c.toNat && c.toNat ≤ 0x7e) || isNonAscii c

def blanks : Reader Unit := discard (takeWhile isBlank)

/-- A line feed, with or without a carriage return before it. -/
def newline : Reader Unit := char '\n' <|> text "\r\n"

def comment : Reader Unit := do
  char '#'
  discard (takeWhile isPlain)

/-- The rest of a line that holds nothing more. -/
def lineEnd : Reader Unit := do
  blanks
  discard (option comment)
  newline <|> eof

/-- Blanks, line ends and comments in any number. -/
def whitespace : Reader Unit :=
  discard (many (discard (satisfy isBlank) <|> newline <|> (do comment; newline)))

end TypeInference.Toml
