import ActionVm.Object.Coercion

namespace ActionVm.Value

def isOrdered : Value → Bool
  | function .. | deferred _ => false
  | _ => true

/-- Whether the first is less: texts by code points, all else by number. -/
def less? (a b : Value) : Option Bool :=
  match a, b with
  | text a, text b => some (a < b)
  | integer a, integer b => some (a < b)
  | a, b => if a.isOrdered && b.isOrdered then a.toNumber.less? b.toNumber else none

def isNothing : Value → Bool
  | undefined | null => true
  | _ => false

def isPrimitive : Value → Bool
  | boolean _ | integer _ | number _ | text _ => true
  | _ => false

def isNumeric : Value → Bool
  | integer _ | number _ => true
  | _ => false

def looseEqual (identical : Bool) (a b : Value) : Bool :=
  if a.isNothing || b.isNothing then a.isNothing && b.isNothing
  else
    match a, b with
    | text a, text b => a == b
    | boolean a, boolean b => a == b
    | a, b =>
      if a.isPrimitive && b.isPrimitive then a.toNumber.same b.toNumber else identical

def strictEqual (identical : Bool) (a b : Value) : Bool :=
  match a, b with
  | undefined, undefined => true
  | null, null => true
  | text a, text b => a == b
  | boolean a, boolean b => a == b
  | a, b => if a.isNumeric && b.isNumeric then a.toNumber.same b.toNumber else identical

end ActionVm.Value
