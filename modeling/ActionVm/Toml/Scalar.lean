import ActionVm.Number.Reading
import ActionVm.Toml.Basic

namespace ActionVm.Toml

/-- Removes the underscores between digits; one at an end or beside another is refused. -/
def plainDigits? (radix : Nat) : List Char → Option (List Char)
  | [] => none
  | [c] => if (digit? radix c).isSome then some [c] else none
  | c :: '_' :: rest =>
    if (digit? radix c).isSome then (plainDigits? radix rest).map (c :: ·) else none
  | c :: rest => if (digit? radix c).isSome then (plainDigits? radix rest).map (c :: ·) else none

/-- A decimal number without a sign; only zero starts with a zero. -/
def decimalDigits? (chars : List Char) : Option (List Char) :=
  match plainDigits? 10 chars with
  | some ('0' :: _ :: _) => none
  | digits => digits

def splitSign : List Char → Bool × List Char
  | '-' :: rest => (true, rest)
  | '+' :: rest => (false, rest)
  | rest => (false, rest)

def inRange? (n : Int) : Option Int :=
  if -0x8000000000000000 ≤ n ∧ n < 0x8000000000000000 then some n else none

def integer? (chars : List Char) : Option Int :=
  let read (radix : Nat) (digits : Option (List Char)) : Option Int :=
    digits.map fun ds => (digitsBelow radix UInt64.size ds : Int)
  match chars with
  | '0' :: 'x' :: rest => (read 16 (plainDigits? 16 rest)).bind inRange?
  | '0' :: 'o' :: rest => (read 8 (plainDigits? 8 rest)).bind inRange?
  | '0' :: 'b' :: rest => (read 2 (plainDigits? 2 rest)).bind inRange?
  | _ =>
    let (negative, rest) := splitSign chars
    (read 10 (decimalDigits? rest)).bind fun n => inRange? (if negative then -n else n)

def exponent? (chars : List Char) : Option (List Char) :=
  let (negative, rest) := splitSign chars
  (plainDigits? 10 rest).map fun ds => if negative then '-' :: ds else ds

/-- Digits, then a point and digits, an exponent, or both. Nothing may round to infinity. -/
def float? (chars : List Char) : Option Double := do
  let (negative, unsigned) := splitSign chars
  let sign := if negative then ['-'] else []
  if unsigned = ['i', 'n', 'f'] then return .infinity negative
  if unsigned = ['n', 'a', 'n'] then return .nan
  let isMark (c : Char) : Bool := c = 'e' || c = 'E'
  let mantissa := unsigned.takeWhile (!isMark ·)
  let scale := unsigned.dropWhile (!isMark ·)
  let whole ← decimalDigits? (mantissa.takeWhile (· ≠ '.'))
  let point := mantissa.dropWhile (· ≠ '.')
  guard (!(point.isEmpty && scale.isEmpty))
  let places ← match point with
    | [] => some []
    | _ :: places => (plainDigits? 10 places).map ('.' :: ·)
  let power ← match scale with
    | [] => some []
    | _ :: power => (exponent? power).map ('e' :: ·)
  let d := Double.ofText (String.ofList (sign ++ whole ++ places ++ power))
  guard (d ≠ .infinity false)
  return d

def twoDigits? (low high : Nat) (a b : Char) : Option Nat :=
  if isDigit a && isDigit b then some (digitsValue 10 [a, b]) |>.filter fun n => low ≤ n && n ≤ high
  else none

def daysIn (year month : Nat) : Nat :=
  let leap := year % 4 = 0 ∧ (year % 100 ≠ 0 ∨ year % 400 = 0)
  if month = 2 then (if leap then 29 else 28)
  else if month = 4 ∨ month = 6 ∨ month = 9 ∨ month = 11 then 30
  else 31

def afterDate? : List Char → Option (List Char)
  | y1 :: y2 :: y3 :: y4 :: '-' :: m1 :: m2 :: '-' :: d1 :: d2 :: rest => do
    guard ([y1, y2, y3, y4].all isDigit)
    let month ← twoDigits? 1 12 m1 m2
    let _ ← twoDigits? 1 (daysIn (digitsValue 10 [y1, y2, y3, y4]) month) d1 d2
    return rest
  | _ => none

def afterTime? : List Char → Option (List Char)
  | h1 :: h2 :: ':' :: m1 :: m2 :: ':' :: s1 :: s2 :: rest => do
    let _ ← twoDigits? 0 23 h1 h2
    let _ ← twoDigits? 0 59 m1 m2
    let _ ← twoDigits? 0 60 s1 s2
    match rest with
    | '.' :: places =>
      guard ((places.head?.map isDigit).getD false)
      return places.dropWhile isDigit
    | _ => return rest
  | _ => none

def isOffset : List Char → Bool
  | ['Z'] | ['z'] => true
  | [sign, h1, h2, ':', m1, m2] =>
    (sign = '+' || sign = '-') && (twoDigits? 0 23 h1 h2).isSome && (twoDigits? 0 59 m1 m2).isSome
  | _ => false

def isDatetime (chars : List Char) : Bool :=
  match afterDate? chars with
  | some [] => true
  | some (delimiter :: time) =>
    (delimiter = 'T' || delimiter = 't' || delimiter = ' ')
      && (match afterTime? time with
        | some rest => rest.isEmpty || isOffset rest
        | none => false)
  | none => afterTime? chars = some []

def scalar? (word : List Char) : Option Toml :=
  if word = "true".toList then some (boolean true)
  else if word = "false".toList then some (boolean false)
  else if isDatetime word then some (datetime (String.ofList word))
  else
    match integer? word with
    | some n => some (integer n)
    | none => (float? word).map float

end ActionVm.Toml
