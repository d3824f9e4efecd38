import ActionVm.Number.Format
import ActionVm.Object.Store
import ActionVm.Text.Quoted

namespace ActionVm.Store

/-- The text of an object whose arrays nest less than `depth` deep. They join the texts of their items. -/
def display (s : Store) : Nat → Ref → Option String
  | 0, _ => none
  | depth + 1, r =>
    match s.value r with
    | .undefined => some "undefined"
    | .null => some "null"
    | .boolean b => some (if b then "true" else "false")
    | .integer i => some (toString i.toInt)
    | .number d => some d.toText
    | .text t => some t
    | .array items => (items.toList.mapM (s.display depth)).map (",".intercalate ·)
    | .object =>
      let name := (s.get r).className
      let shown := if name.isEmpty then "Object" else name
      some s!"[object {shown}]"
    | .function .. => some "function Function() \x7b\x7d"
    | .deferred _ => some "[deferred]"

/-- The text of an object. An array that contains itself has none, since it would never end; any other nests less
deep than there are objects. -/
def text? (s : Store) (r : Ref) : Option String :=
  s.display (s.objects.size + 1) r

/-- The text of an object for diagnosis: its type, and its class or its text. -/
def describe (s : Store) (r : Ref) : String :=
  let o := s.get r
  match o.value with
  | .text t => "String(" ++ Quoted.quote t ++ ")"
  | .object | .function .. | .array _ | .deferred _ =>
    o.value.typeName ++ "<" ++ o.className ++ ">"
  | v => v.typeName ++ "(" ++ (s.text? r).getD "" ++ ")"

end ActionVm.Store
