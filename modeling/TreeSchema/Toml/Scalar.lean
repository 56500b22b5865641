import TreeSchema.Text.Digits
import TreeSchema.Toml.Value

/-! The values that are written as a single word: numbers, booleans, dates and
times. Each function here decides about a whole word. -/
namespace TreeSchema.Toml

open Text (isDigitOf ofDigits)

/-- The digits of a number. Between two digits a single underscore may stand. -/
def digits? (isDigit : Char → Bool) : List Char → Option (List Char)
  | [] => none
  | [c] => if isDigit c then some [c] else none
  | c :: '_' :: rest => if isDigit c then (digits? isDigit rest).map (c :: ·) else none
  | c :: rest => if isDigit c then (digits? isDigit rest).map (c :: ·) else none

/-- The digits of a decimal number, which does not start with a zero in vain. -/
def decimal? (cs : List Char) : Option (List Char) := do
  let digits ← digits? Char.isDigit cs
  if digits.head? = some '0' ∧ 1 < digits.length then none else some digits

/-- Whether a sign makes a number negative, and what follows the sign. -/
def sign : List Char → Bool × List Char
  | '-' :: cs => (true, cs)
  | '+' :: cs => (false, cs)
  | cs => (false, cs)

/-- Integers are at least minus this number, which is `2 ^ 63`, and less than it. -/
def integerLimit : Nat := 0x8000000000000000

/-- The integer that a word writes. Other bases than ten have a prefix and no sign. -/
def integer? (cs : List Char) : Option Int :=
  let inBase (base : Nat) (digits : List Char) : Option Int := do
    let n := ofDigits base (← digits? (isDigitOf base) digits)
    if n < integerLimit then some (Int.ofNat n) else none
  match cs with
  | '0' :: 'x' :: digits => inBase 16 digits
  | '0' :: 'o' :: digits => inBase 8 digits
  | '0' :: 'b' :: digits => inBase 2 digits
  | _ => do
      let (negative, digits) := sign cs
      let size := ofDigits 10 (← decimal? digits)
      if negative then
        if size ≤ integerLimit then some (Int.negOfNat size) else none
      else if size < integerLimit then some (Int.ofNat size) else none

/-- Whether `n` times a power of ten is so large that the nearest double is
infinite, which it is from half a unit above the greatest double on. -/
def overflows (n : Nat) (exponent : Int) : Bool :=
  let limit := (Nat.pow 2 54 - 1) * Nat.pow 2 970
  let magnitude := Int.ofNat (Nat.toDigits 10 n).length + exponent
  if n = 0 || magnitude < 300 then false
  else if 320 < magnitude then true
  else if exponent < 0 then limit * Nat.pow 10 (-exponent).toNat ≤ n
  else limit ≤ n * Nat.pow 10 exponent.toNat

/-- Whether a word is a decimal number with a fraction, an exponent or both. A
positive one must not overflow. -/
def isDecimalFloat (cs : List Char) : Bool :=
  let (negative, unsigned) := sign cs
  let mantissa := unsigned.takeWhile fun c => c ≠ 'e' && c ≠ 'E'
  let whole := mantissa.takeWhile (· ≠ '.')
  let fraction : Option (List Char) :=
    match mantissa.dropWhile (· ≠ '.') with
    | [] => some []
    | _ :: digits => digits? Char.isDigit digits
  let exponent : Option Int :=
    match unsigned.drop mantissa.length with
    | [] => some 0
    | _ :: power =>
        let (below, digits) := sign power
        (digits? Char.isDigit digits).map fun digits =>
          if below then -(ofDigits 10 digits : Int) else ofDigits 10 digits
  match decimal? whole, fraction, exponent with
  | some digits, some fraction, some exponent =>
      whole.length < unsigned.length &&
        (negative || !overflows (ofDigits 10 (digits ++ fraction)) (exponent - fraction.length))
  | _, _, _ => false

/-- Whether a word is a number that is not an integer. -/
def isFloat (cs : List Char) : Bool :=
  let (_, unsigned) := sign cs
  unsigned = ['i', 'n', 'f'] || unsigned = ['n', 'a', 'n'] || isDecimalFloat cs

/-- The number between two limits that some digits write. -/
def between (low high : Nat) (cs : List Char) : Option Nat :=
  let n := ofDigits 10 cs
  if cs.all Char.isDigit && low ≤ n && n ≤ high then some n else none

def daysIn (year month : Nat) : Nat :=
  if month = 2 then
    if year % 4 = 0 && (year % 100 ≠ 0 || year % 400 = 0) then 29 else 28
  else if month = 4 || month = 6 || month = 9 || month = 11 then 30
  else 31

/-- What follows the date at the start of a word. -/
def afterDate? : List Char → Option (List Char)
  | y :: y' :: y'' :: y''' :: '-' :: m :: m' :: '-' :: d :: d' :: rest => do
      let year ← between 0 9999 [y, y', y'', y''']
      let month ← between 1 12 [m, m']
      let _ ← between 1 (daysIn year month) [d, d']
      return rest
  | _ => none

/-- What follows the time of day at the start of a word. A minute may have a
second more than usual. -/
def afterTime? : List Char → Option (List Char)
  | h :: h' :: ':' :: m :: m' :: ':' :: s :: s' :: rest => do
      let _ ← between 0 23 [h, h']
      let _ ← between 0 59 [m, m']
      let _ ← between 0 60 [s, s']
      match rest with
      | '.' :: d :: rest => if d.isDigit then return rest.dropWhile Char.isDigit else none
      | rest => return rest
  | _ => none

/-- Whether a word is empty or tells a distance from universal time. -/
def isOffset : List Char → Bool
  | [] => true
  | [z] => z = 'Z' || z = 'z'
  | [s, h, h', ':', m, m'] =>
      (s = '+' || s = '-') && (between 0 23 [h, h']).isSome && (between 0 59 [m, m']).isSome
  | _ => false

/-- Whether a word is a date, a time of day, or a date with a time of day, which
alone may have an offset. -/
def isMoment (cs : List Char) : Bool :=
  match afterDate? cs with
  | some [] => true
  | some (separator :: time) =>
      (separator = 'T' || separator = 't' || separator = ' ') &&
        (afterTime? time).any isOffset
  | none => afterTime? cs = some []

def Value.ofWord (cs : List Char) : Option Value :=
  let written := String.ofList cs
  if written = "true" then some (.boolean true)
  else if written = "false" then some (.boolean false)
  else if isMoment cs then some (.moment written)
  else if isFloat cs then some (.float written)
  else (integer? cs).map .integer

end TreeSchema.Toml
