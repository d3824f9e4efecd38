import ActionVm.Config.Basic
import ActionVm.Toml.Parser

namespace ActionVm

namespace Mode

def ofName? : String → Option Mode
  | "off" => some off
  | "on" => some on
  | "auto" => some auto
  | _ => none

def isEmptyContainer : Toml → Bool
  | .table _ [] | .array [] | .tables [] => true
  | _ => false

/-- A mode by its name, or as the only key of a table, with nothing in it. -/
def ofToml? : Toml → Option Mode
  | .text name => ofName? name
  | .table _ [(name, inner)] => if isEmptyContainer inner then ofName? name else none
  | _ => none

end Mode

namespace Config

def flag? : Toml → Option Bool
  | .boolean b => some b
  | _ => none

def count? : Toml → Option Nat
  | .integer n => if 0 ≤ n then some n.toNat else none
  | _ => none

def field (fields : Toml.Fields) (name : String) (read : Toml → Option α) (default : α) :
    Option α :=
  match Toml.find? fields name with
  | some v => read v
  | none => some default

def ofFields? (fields : Toml.Fields) : Option Config := do
  let default : Config := {}
  return {
    mode := ← field fields "jit_mode" Mode.ofToml? default.mode
    traceCompiling := ← field fields "trace_jit" flag? default.traceCompiling
    stackSlack := ← field fields "stack_slack" count? default.stackSlack
    hostClasses := ← field fields "host_classes" flag? default.hostClasses }

def ofText? (text : String) : Option Config :=
  (Toml.parse? text).bind ofFields?

end Config

end ActionVm
