import ActionVm.Bytes.Basic

namespace ActionVm.Cli

inductive FileError where
  | notFound
  | permissionDenied
  | notDirectory
  | isDirectory
  | nameTooLong
  | notText
  | other (reason : String)
  deriving DecidableEq, Repr

namespace FileError

def message : FileError → String
  | notFound => "No such file or directory (os error 2)"
  | permissionDenied => "Permission denied (os error 13)"
  | notDirectory => "Not a directory (os error 20)"
  | isDirectory => "Is a directory (os error 21)"
  | nameTooLong => "File name too long (os error 36)"
  | notText => "stream did not contain valid UTF-8"
  | other reason => reason

def ofNumber? : Nat → Option FileError
  | 2 => some notFound
  | 13 => some permissionDenied
  | 20 => some notDirectory
  | 21 => some isDirectory
  | 36 => some nameTooLong
  | _ => none

end FileError

abbrev Files := String → Except FileError Bytes

inductive FileNode where
  | file (contents : Bytes)
  | directory
  deriving DecidableEq, Repr

/-- Nodes by their names from the last one up to the root. -/
structure FileTree where
  nodes : List (List String × FileNode)
  current : List String := []

namespace FileTree

def maxName : Nat := 255

def maxPath : Nat := 4096

/-- The root is always there. -/
def node? (t : FileTree) : List String → Option FileNode
  | [] => some .directory
  | place => t.nodes.lookup place

/-- Follows names from a place on. An empty name stays where it is, and so does the parent of the root. -/
def walk (t : FileTree) (place : List String) : List String → Except FileError FileNode
  | [] =>
    match t.node? place with
    | some node => .ok node
    | none => .error .notFound
  | name :: rest =>
    match t.node? place with
    | none => .error .notFound
    | some (.file _) => .error .notDirectory
    | some .directory =>
      if name = "" ∨ name = "." then t.walk place rest
      else if name = ".." then t.walk place.tail rest
      else if maxName < name.utf8ByteSize then .error .nameTooLong
      else t.walk (name :: place) rest

def read (t : FileTree) : Files := fun path =>
  if path = "" then .error .notFound
  else if maxPath ≤ path.utf8ByteSize then .error .nameTooLong
  else
    match t.walk (if path.startsWith "/" then [] else t.current) (path.splitOn "/") with
    | .error e => .error e
    | .ok .directory => .error .isDirectory
    | .ok (.file contents) => .ok contents

end FileTree

end ActionVm.Cli
