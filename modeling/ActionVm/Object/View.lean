import ActionVm.Document.Json
import ActionVm.Object.Store

namespace ActionVm

namespace Value

def viewFields (leaves : JsonLeaves) : Value → List (String × Json)
  | boolean b => [("v", .bool b)]
  | integer i => [("v", .int i.toInt)]
  | text s => [("v", .string s)]
  | number d => [("bits", leaves.double d), ("v", .string d.toText)]
  | function callable receiver =>
    let target := match callable with
      | .method m => ("method", Json.u32 m)
      | _ => ("native", .bool true)
    target :: (if receiver.isSome then [("bound", .bool true)] else [])
  | deferred init => [("init", Json.u32 init)]
  | _ => []

def view (leaves : JsonLeaves) (v : Value) : Json :=
  .object (("t", .string v.typeName) :: v.viewFields leaves)

end Value

namespace Store

def view (s : Store) (leaves : JsonLeaves) (global : Ref) : Nat → Ref → Json
  | depth, r =>
    if r = global then .object [("t", .string "Global")]
    else
      let o := s.get r
      let named := if o.className.isEmpty then [] else [("class", .string o.className)]
      let parts := match depth with
        | 0 => []
        | depth + 1 =>
          let items := match o.value with
            | .array items => [("items", Json.list (s.view leaves global depth) items.toList)]
            | _ => []
          let stored := o.properties.toList.map fun (name, v) => (name, s.view leaves global depth v)
          items ++ (if stored.isEmpty then [] else [("props", .object stored)])
      .object (("t", .string o.value.typeName) :: o.value.viewFields leaves ++ named ++ parts)

end Store

end ActionVm
