import ActionVm.Number.Double
import ActionVm.Text.Blank

namespace ActionVm

def isDigit (c : Char) : Bool :=
  '0' ≤ c && c ≤ '9'

def digit? (radix : Nat) (c : Char) : Option Nat :=
  let value? :=
    if isDigit c then some (c.toNat - '0'.toNat)
    else if 'a' ≤ c ∧ c ≤ 'z' then some (c.toNat - 'a'.toNat + 10)
    else if 'A' ≤ c ∧ c ≤ 'Z' then some (c.toNat - 'A'.toNat + 10)
    else none
  value?.filter (· < radix)

def digitsValue (radix : Nat) (chars : List Char) : Nat :=
  chars.foldl (fun n c => radix * n + (digit? radix c).getD 0) 0

/-- The number that digits denote as long as it is below `bound`; from there on it stops growing. -/
def digitsBelow (radix bound : Nat) (chars : List Char) : Nat :=
  chars.foldl (fun n c => if n < bound then radix * n + (digit? radix c).getD 0 else n) 0

namespace Double

def ofScaled (negative : Bool) (m : Nat) (e : Int) : Double :=
  if 0 ≤ e then ofRatio negative (m * Nat.pow 10 e.toNat) 1
  else ofRatio negative m (Nat.pow 10 (-e).toNat)

/-- A number half-way between two doubles has fewer digits. -/
def maxDigits : Nat := 800

/-- The leading digits, and a last one that is 1 if anything but zeros was left out. -/
def leadingDigits (digits : List Char) : List Char :=
  digits.take maxDigits ++ [if (digits.drop maxDigits).all (· = '0') then '0' else '1']

/-- The number that digits times `10 ^ e` denote, rounded to the nearest double. Far outside the range
the result is known without computing the power, and of many digits only the leading ones matter. -/
def ofDigits (negative : Bool) (digits : List Char) (e : Int) : Double :=
  let significant := digits.dropWhile (· = '0')
  let magnitude := significant.length + e
  if significant.isEmpty ∨ magnitude < -400 then ofRatio negative 0 1
  else if 400 < magnitude then infinity negative
  else if significant.length ≤ maxDigits then ofScaled negative (digitsValue 10 significant) e
  else ofScaled negative (digitsValue 10 (leadingDigits significant)) (magnitude - (maxDigits + 1))

def maxExponent : Nat := 0x10000

def exponent? : List Char → Option Int
  | [] => some 0
  | mark :: rest =>
    if mark = 'e' ∨ mark = 'E' then
      let (negative, digits) := match rest with
        | '-' :: digits => (true, digits)
        | '+' :: digits => (false, digits)
        | digits => (false, digits)
      if digits.isEmpty ∨ ¬ digits.all isDigit then none
      else
        let value : Int := digitsBelow 10 maxExponent digits
        some (if negative then -value else value)
    else none

def unsigned? (negative : Bool) (chars : List Char) : Option Double :=
  let whole := chars.takeWhile isDigit
  let rest := chars.dropWhile isDigit
  let (places, tail) := match rest with
    | '.' :: more => (more.takeWhile isDigit, more.dropWhile isDigit)
    | _ => ([], rest)
  if whole.isEmpty ∧ places.isEmpty then none
  else do
    let e ← exponent? tail
    pure (ofDigits negative (whole ++ places) (e - places.length))

def named? (negative : Bool) (chars : List Char) : Option Double :=
  let name := String.ofList (chars.map Char.toLower)
  if name = "inf" ∨ name = "infinity" then some (infinity negative)
  else if name = "nan" then some nan
  else none

def ofChars? (chars : List Char) : Option Double :=
  let (negative, rest) := match chars with
    | '-' :: rest => (true, rest)
    | '+' :: rest => (false, rest)
    | rest => (false, rest)
  (named? negative rest).or (unsigned? negative rest)

/-- The number that a text denotes between blanks: nothing is 0, and what is no number is NaN. -/
def ofText (text : String) : Double :=
  let chars := trimBlanks text.toList
  if chars.isEmpty then ofInt 0 else (ofChars? chars).getD nan

end Double

/-- A text that denotes an index: digits after an optional plus sign, below `2 ^ 64`. -/
def arrayIndex? (name : String) : Option Nat :=
  let digits := match name.toList with
    | '+' :: rest => rest
    | rest => rest
  if digits.isEmpty ∨ ¬ digits.all isDigit then none
  else some (digitsBelow 10 UInt64.size digits) |>.filter (· < UInt64.size)

end ActionVm
