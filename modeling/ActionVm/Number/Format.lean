import ActionVm.Number.Shortest

namespace ActionVm.Double

def zeros (n : Nat) : List Char :=
  List.replicate n '0'

def positional (digits : List Char) (place : Int) : List Char :=
  if place ≤ 0 then '0' :: '.' :: zeros (-place).toNat ++ digits
  else if digits.length ≤ place.toNat then digits ++ zeros (place.toNat - digits.length)
  else digits.take place.toNat ++ '.' :: digits.drop place.toNat

def signed (d : Double) (magnitude : List Char) : String :=
  String.ofList (if d.isNegative then '-' :: magnitude else magnitude)

/-- The shortest digits that read back, without an exponent. A half goes up; zero keeps its sign. -/
def toText (d : Double) : String :=
  if d.isNaN then "NaN"
  else if d.isInfinite then (if d.isNegative then "-Infinity" else "Infinity")
  else if d.significand = 0 then d.signed ['0']
  else
    let (digits, place) := Shortest.digits .up d
    d.signed (positional digits place)

def exponential (digits : List Char) (place : Int) : List Char :=
  let rest := digits.drop 1
  digits.take 1 ++ (if rest.isEmpty then [] else '.' :: rest) ++ 'e' :: (toString (place - 1)).toList

/-- The JSON form: positional from `1e-5` up to `1e16`, always with a point or an exponent. -/
def toJsonText (d : Double) : String :=
  if d.isFinite then
    if d.significand = 0 then d.signed ['0', '.', '0']
    else
      let (digits, place) := Shortest.digits .even d
      if (-5 : Int) < place ∧ place ≤ 16 then
        let whole := decide ((digits.length : Int) ≤ place)
        d.signed (positional digits place ++ if whole then ['.', '0'] else [])
      else d.signed (exponential digits place)
  else "null"

end ActionVm.Double
