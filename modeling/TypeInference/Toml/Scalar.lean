import TypeInference.Toml.Quoted

/-!
# TOML numbers, truth values and times

Integers have 64 bits and a sign. A float that is too large for a double is refused; of floats and
times nothing but that they are well formed is kept.
-/

namespace TypeInference.Toml

open Reader

/-! ## Digits -/

/-- Digits of a class, with an underscore between two of them at most. -/
def digitsOf (p : Char → Bool) : Reader (List Char) := do
  let first ← satisfy p
  let rest ← many (satisfy p <|> (do char '_'; satisfy p))
  return first :: rest

def digits : Reader (List Char) := digitsOf (·.isDigit)

/-- Decimal digits without a leading zero. -/
def wholeDigits : Reader (List Char) := do
  let ds ← (do char '0'; return ['0']) <|> digits
  return ds

def numberOf (base : Nat) (ds : List Char) : Nat :=
  ds.foldl (fun acc c => acc * base + (hexValue? c).getD 0) 0

def sign : Reader Bool := do
  match ← option (satisfy fun c => c == '+' || c == '-') with
  | some c => return c == '-'
  | none => return false

/-! ## Integers -/

def int64 (n : Int) : Reader Int :=
  if Int64.minValue.toInt ≤ n ∧ n ≤ Int64.maxValue.toInt then return n else failure

/-- An integer in a base with a mark before it. -/
def basedInteger (mark : String) (base : Nat) : Reader Int := do
  text mark
  let ds ← digitsOf fun c => (hexValue? c).any (· < base)
  int64 (numberOf base ds)

def decimalInteger : Reader Int := do
  let negative ← sign
  let n := (numberOf 10 (← wholeDigits) : Int)
  int64 (if negative then -n else n)

def integer : Reader Int :=
  basedInteger "0x" 16 <|> basedInteger "0o" 8 <|> basedInteger "0b" 2 <|> decimalInteger

/-! ## Floats -/

/-- The least number that rounds to infinity. -/
def infinityBound : Nat := Nat.pow 2 1024 - Nat.pow 2 970

/-- Whether `m * 10 ^ e` is too large for a double. -/
def isTooLarge (m : Nat) (e : Int) : Bool :=
  match e with
  | .ofNat e => m ≠ 0 && (400 < e || infinityBound ≤ m * Nat.pow 10 e)
  | .negSucc e =>
    let places := e + 1
    -- a number with fewer digits than places is below one
    places ≤ (Nat.toDigits 10 m).length && infinityBound * Nat.pow 10 places ≤ m

def fraction : Reader (List Char) := do
  char '.'
  digits

def exponent : Reader Int := do
  discard (satisfy fun c => c == 'e' || c == 'E')
  let negative ← sign
  let n := (numberOf 10 (← digits) : Int)
  return if negative then -n else n

def decimalFloat : Reader Unit := do
  let negative ← sign
  let whole ← wholeDigits
  let frac ← option fraction
  let exp ← match frac with
    | some _ => option exponent
    | none => some <$> exponent
  let frac := frac.getD []
  let tooLarge := isTooLarge (numberOf 10 (whole ++ frac)) (exp.getD 0 - frac.length)
  if tooLarge && !negative then failure

def specialFloat : Reader Unit := do
  discard sign
  text "inf" <|> text "nan"

def float : Reader Unit := decimalFloat <|> specialFloat

/-! ## Truth values -/

def boolean : Reader Bool :=
  (do text "true"; return true) <|> (do text "false"; return false)

/-! ## Dates and times -/

def field (n low high : Nat) : Reader Nat := do
  let ds ← (List.range n).mapM fun _ => satisfy (·.isDigit)
  let value := numberOf 10 ds
  if low ≤ value ∧ value ≤ high then return value else failure

def isLeapYear (year : Nat) : Bool :=
  year % 4 = 0 && (year % 100 ≠ 0 || year % 400 = 0)

def daysIn (year month : Nat) : Nat :=
  if month = 2 then (if isLeapYear year then 29 else 28)
  else if month ∈ [4, 6, 9, 11] then 30
  else 31

def date : Reader Unit := do
  let year ← field 4 0 9999
  char '-'
  let month ← field 2 1 12
  char '-'
  discard (field 2 1 (daysIn year month))

def time : Reader Unit := do
  discard (field 2 0 23)
  char ':'
  discard (field 2 0 59)
  char ':'
  discard (field 2 0 60)
  discard (option (do char '.'; takeWhile1 (·.isDigit)))

def offset : Reader Unit := do
  let zulu := discard (satisfy fun c => c == 'Z' || c == 'z')
  let numeric := do
    discard (satisfy fun c => c == '+' || c == '-')
    discard (field 2 0 23)
    char ':'
    discard (field 2 0 59)
  zulu <|> numeric

def dateTime : Reader Unit := do
  let timeOfDay := do
    discard (satisfy fun c => c == 'T' || c == 't' || c == ' ')
    time
    discard (option offset)
  (do date; discard (option timeOfDay)) <|> time

end TypeInference.Toml
