import ActionVm.Code.Instruction
import ActionVm.Document.Names
import ActionVm.Text.Quoted

namespace ActionVm

namespace Pool

/-- The text of any name; parts that only a running program knows are written `<rt>`. -/
def displayName (p : Pool) (index : UInt32) : String :=
  match p.staticName? index with
  | some name => if name = "" then "*" else name
  | none =>
    match p.multiname? index with
    | some (.rtqname name _) => "<rt>::" ++ p.string name
    | some (.rtqnameL _) => "<rt>::<rt>"
    | some (.multiname name nsSet _) =>
      let spaces := ((p.nsSet? nsSet).getD []).map p.namespaceName
      "[" ++ ",".intercalate spaces ++ "]::" ++ p.string name
    | some (.multinameL _ _) => "[..]::<rt>"
    | _ => s!"<invalid multiname {index.toNat}>"

end Pool

namespace Listing

def slot (p : Pool) (keyword name : String) (s : SlotTrait) : String :=
  s!"{keyword} {name}: {p.displayName s.typeName} (slot {s.slotId.toNat}, "
    ++ s!"value {s.vindex.toNat}/0x{Hex.ofByte s.vkind})"

def trait (p : Pool) (t : Trait) : String :=
  let name := p.displayName t.name
  match t.kind with
  | .slot s => slot p "var" name s
  | .constant s => slot p "const" name s
  | .method m => s!"method {name} -> #{m.method.toNat}"
  | .getter m => s!"get {name} -> #{m.method.toNat}"
  | .setter m => s!"set {name} -> #{m.method.toNat}"
  | .classDef slotId cls => s!"class {name} -> class {cls.toNat} (slot {slotId.toNat})"
  | .function slotId method => s!"function {name} -> #{method.toNat} (slot {slotId.toNat})"

def field (n : Nat) : String :=
  let text := toString n
  String.ofList (List.replicate (5 - text.length) ' ') ++ text

def takesName : List Opcode :=
  [.getProperty, .setProperty, .initProperty, .getLex, .findPropStrict, .findProperty,
   .deleteProperty, .coerce, .asType, .isType, .getSuper, .setSuper]

def operands (p : Pool) (i : Instruction) : String :=
  match i.args with
  | .none => ""
  | .branch _ => " -> " ++ toString (i.branchTarget?.getD 0)
  | .switch _ _ => " [" ++ ", ".intercalate (i.switchTargets.map toString) ++ "]"
  | .one a =>
    if i.opcode.any takesName.contains then " " ++ p.displayName a
    else if i.opcode = some .pushString ∨ i.opcode = some .debugFile then
      " " ++ Quoted.quote (p.string a)
    else s!" {a.toNat}"
  | .two a b =>
    if i.opcode = some .hasNext2 ∨ i.opcode = some .debug then s!" {a.toNat} {b.toNat}"
    else s!" {p.displayName a} ({b.toNat} args)"

def instruction (p : Pool) (i : Instruction) : String :=
  let name := i.opcode.elim "<unknown>" Opcode.name
  s!"  {field i.offset}: {name}{operands p i}\n"

def code (p : Pool) (bytes : Bytes) : String :=
  String.join ((Instruction.sweep bytes).map (instruction p))

def traits (p : Pool) (indent : String) (ts : List Trait) : String :=
  String.join (ts.map fun t => indent ++ trait p t ++ "\n")

def classes (d : Document) : String :=
  String.join ((d.instances.zip d.classes).zipIdx.map fun ((inst, cls), i) =>
    s!"\nclass {i} {d.pool.displayName inst.name} extends {d.pool.displayName inst.superName} "
      ++ s!"(iinit #{inst.init.toNat}, cinit #{cls.init.toNat})\n"
      ++ traits d.pool "  " inst.traits
      ++ traits d.pool "  static " cls.traits)

def scripts (d : Document) : String :=
  String.join (d.scripts.zipIdx.map fun (script, i) =>
    s!"\nscript {i} (init #{script.init.toNat})\n" ++ traits d.pool "  " script.traits)

def method (d : Document) (m : Method) (index : Nat) : String :=
  match m.body with
  | none => ""
  | some body =>
    s!"\nmethod #{index} {Quoted.quote (d.pool.string m.name)} ({m.paramTypes.length} params, "
      ++ s!"max_stack {body.maxStack.toNat}, locals {body.localCount.toNat})\n"
      ++ code d.pool body.code

end Listing

namespace Document

def listing (d : Document) : String :=
  s!"abc {d.majorVersion.toNat}.{d.minorVersion.toNat}: {d.methods.length} methods, "
    ++ s!"{d.instances.length} classes, {d.scripts.length} scripts\n"
    ++ String.join (d.anomalies.map fun a => "anomaly: " ++ a.message ++ "\n")
    ++ Listing.classes d
    ++ Listing.scripts d
    ++ String.join (d.methods.zipIdx.map fun (m, i) => Listing.method d m i)

end Document

end ActionVm
