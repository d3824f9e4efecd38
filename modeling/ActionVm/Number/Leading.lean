import ActionVm.Number.Reading

namespace ActionVm.Leading

def sign : List Char → Bool × List Char
  | '-' :: rest => (true, rest)
  | '+' :: rest => (false, rest)
  | rest => (false, rest)

def hexDigits? : List Char → Option (List Char)
  | '0' :: 'x' :: rest => some rest
  | '0' :: 'X' :: rest => some rest
  | _ => none

/-- The radix to read in, and where the digits start. -/
def radix? (radix : Option Int) (chars : List Char) : Option (Nat × List Char) :=
  match radix, hexDigits? chars with
  | none, some rest => some (16, rest)
  | none, none => some (10, chars)
  | some r, hex =>
    match if r = 16 then hex else none with
    | some rest => some (16, rest)
    | none => if 2 ≤ r ∧ r ≤ 36 then some (r.toNat, chars) else none

/-- The word behind one more digit. A product or sum that leaves the words stops at the last of them. -/
def append (radix : Nat) (value : Int64) (digit : Nat) : Int64 :=
  let product := Int64.ofIntClamp (value.toInt * radix)
  Int64.ofIntClamp (product.toInt + digit)

def word (radix : Nat) (digits : List Char) : Int64 :=
  digits.foldl (fun value c => append radix value ((digit? radix c).getD 0)) 0

def integer? (text : String) (radix : Option Int) : Option Int64 :=
  let (negative, rest) := sign (text.toList.dropWhile isBlank)
  (radix? radix rest).bind fun (radix, rest) =>
    let digits := rest.takeWhile fun c => (digit? radix c).isSome
    if digits.isEmpty then none
    else
      let magnitude := word radix digits
      some (if negative then -magnitude else magnitude)

end ActionVm.Leading
