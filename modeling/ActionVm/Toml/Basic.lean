import ActionVm.Number.Double

namespace ActionVm

/-- What made a table, which decides what may still be added to it. -/
inductive Origin where
  | header
  | path
  | dotted
  /-- Braces; such a table is complete. -/
  | braces
  deriving DecidableEq, Repr

inductive Toml where
  | text (s : String)
  | integer (n : Int)
  | float (d : Double)
  | boolean (b : Bool)
  | datetime (s : String)
  | array (items : List Toml)
  | table (origin : Origin) (fields : List (String × Toml))
  | tables (elements : List (List (String × Toml)))
  deriving Inhabited

namespace Toml

abbrev Fields := List (String × Toml)

def find? (fields : Fields) (key : String) : Option Toml :=
  fields.lookup key

/-- Replaces a field, or adds it at the end. -/
def put (key : String) (value : Toml) : Fields → Fields
  | [] => [(key, value)]
  | (k, v) :: rest => if k = key then (key, value) :: rest else (k, v) :: put key value rest

/-- Sets a key that is not there yet, below the tables that the dots in front of it name. The table that
takes it must have been made by a dotted key too, unless there are no dots. -/
def assign (value : Toml) (key : String) : List String → Fields → Option Fields
  | [], fields => if (find? fields key).isNone then some (put key value fields) else none
  | name :: dots, fields =>
    let below (origin : Origin) (inner : Fields) : Option Fields :=
      if dots.isEmpty ∧ origin ≠ .dotted then none else assign value key dots inner
    match find? fields name with
    | none => (below .dotted []).map fun inner => put name (table .dotted inner) fields
    | some (table origin inner) =>
      if origin = .path ∨ origin = .dotted then
        (below origin inner).map fun inner => put name (table origin inner) fields
      else none
    | some (tables (last :: earlier)) =>
      (below .header last).map fun last => put name (tables (last :: earlier)) fields
    | some _ => none

/-- Changes the table at the end of a path. Tables that are missing on the way are made, and of tables
in double brackets the last one is meant. -/
def within (change : Fields → Option Fields) : List String → Fields → Option Fields
  | [], fields => change fields
  | name :: path, fields =>
    match find? fields name with
    | none => (within change path []).map fun inner => put name (table .path inner) fields
    | some (table origin inner) =>
      if origin = .braces then none
      else (within change path inner).map fun inner => put name (table origin inner) fields
    | some (tables (last :: earlier)) =>
      (within change path last).map fun last => put name (tables (last :: earlier)) fields
    | some _ => none

/-- A header opens a table that has had none. -/
def openTable (name : String) (fields : Fields) : Option Fields :=
  match find? fields name with
  | none => some (put name (table .header []) fields)
  | some (table .path inner) => some (put name (table .header inner) fields)
  | some _ => none

/-- A header in double brackets adds a table. -/
def addTable (name : String) (fields : Fields) : Option Fields :=
  match find? fields name with
  | none => some (put name (tables [[]]) fields)
  | some (tables elements) => some (put name (tables ([] :: elements)) fields)
  | some _ => none

end Toml

end ActionVm
