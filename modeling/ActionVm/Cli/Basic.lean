import ActionVm.Cli.FileTree
import ActionVm.Config.Reading
import ActionVm.Document.Json
import ActionVm.Document.Listing
import ActionVm.Document.Reader
import ActionVm.Event.Worker

namespace ActionVm.Cli

structure RunOptions where
  file : String
  mode : Option Mode := none
  traceCompiling : Bool := false
  config : Option String := none
  deriving DecidableEq, Repr

inductive Invocation where
  | run (options : RunOptions)
  | dump (file : String) (json : Bool)
  deriving DecidableEq, Repr

structure Arguments where
  file : Option String := none
  mode : Option Mode := none
  traceCompiling : Bool := false
  config : Option String := none
  json : Bool := false

def assigned? (option argument : String) : Option String :=
  let lead := (option ++ "=").toList
  if lead.isPrefixOf argument.toList then some (String.ofList (argument.toList.drop lead.length))
  else none

namespace Arguments

def setFile (a : Arguments) (file : String) : Option Arguments :=
  if a.file.isNone then some { a with file := some file } else none

def setMode (a : Arguments) (name : String) : Option Arguments :=
  if a.mode.isSome then none
  else (Mode.ofName? name).map fun mode => { a with mode := some mode }

def setConfig (a : Arguments) (path : String) : Option Arguments :=
  if a.config.isNone then some { a with config := some path } else none

/-- Reads the arguments of `run`. Every option is given at most once. -/
def readRun (a : Arguments) : List String → Option Arguments
  | [] => some a
  | "--" :: files => files.foldlM setFile a
  | "--jit" :: name :: rest => (a.setMode name).bind fun a => readRun a rest
  | "--config" :: path :: rest => (a.setConfig path).bind fun a => readRun a rest
  | "--trace-jit" :: rest =>
    if a.traceCompiling then none else readRun { a with traceCompiling := true } rest
  | argument :: rest =>
    match assigned? "--jit" argument, assigned? "--config" argument with
    | some name, _ => (a.setMode name).bind fun a => readRun a rest
    | none, some path => (a.setConfig path).bind fun a => readRun a rest
    | none, none =>
      if argument.startsWith "-" ∧ argument ≠ "-" then none
      else (a.setFile argument).bind fun a => readRun a rest

def readDump (a : Arguments) : List String → Option Arguments
  | [] => some a
  | "--" :: files => files.foldlM setFile a
  | "--json" :: rest => if a.json then none else readDump { a with json := true } rest
  | argument :: rest =>
    if argument.startsWith "-" ∧ argument ≠ "-" then none
    else (a.setFile argument).bind fun a => readDump a rest

end Arguments

def parse? : List String → Option Invocation
  | "run" :: rest => do
    let a ← Arguments.readRun {} rest
    let file ← a.file
    return .run { file, mode := a.mode, traceCompiling := a.traceCompiling, config := a.config }
  | "dump" :: rest => do
    let a ← Arguments.readDump {} rest
    return .dump (← a.file) a.json
  | _ => none

inductive Failure where
  | unreadable (path : String) (reason : FileError)
  | badConfig
  | badDocument (e : ReadError)
  | worker (e : WorkerError)

namespace Failure

def message : Failure → String
  | unreadable path reason => s!"failed to read {path}: {reason.message}"
  | badConfig => "failed to parse configuration"
  | badDocument e => e.message
  | worker e => e.message

end Failure

structure Report where
  output : String := ""
  failure : Option Failure := none

def load (files : Files) (path : String) : Except Failure Document := do
  match files path with
  | .error reason => throw (.unreadable path reason)
  | .ok bytes =>
    match Document.ofBytes bytes with
    | .error e => throw (.badDocument e)
    | .ok d => return d

/-- The configuration is text, so a file that is not well-formed UTF-8 cannot be read as one. -/
def loadConfig (files : Files) (path : String) : Except Failure Config := do
  match files path with
  | .error reason => throw (.unreadable path reason)
  | .ok bytes =>
    match String.fromUTF8? ⟨bytes.toArray⟩ with
    | none => throw (.unreadable path .notText)
    | some text =>
      match Config.ofText? text with
      | none => throw .badConfig
      | some config => return config

/-- The worker that the options ask for. The configuration is read before the document. -/
def prepare (files : Files) (o : RunOptions) : Except Failure (Worker Unit) := do
  let config ← match o.config with
    | some path => loadConfig files path
    | none => pure {}
  let config := { config with
    mode := o.mode.getD config.mode
    traceCompiling := config.traceCompiling || o.traceCompiling }
  let document ← load files o.file
  match Worker.spawn document config (Host.silent ()) with
  | .error e => throw (.worker e)
  | .ok w => return w

def run (files : Files) (o : RunOptions) : Report :=
  match prepare files o with
  | .error e => { failure := some e }
  | .ok w =>
    let (w, reached) := w.sync
    let (w, ended) := w.shutdown
    let failure := match reached, ended with
      | .error e, _ => some (Failure.worker e)
      | .ok _, .error e => some (Failure.worker e)
      | .ok _, .ok _ => none
    { output := w.machine.output, failure }

def dump (files : Files) (path : String) (json : Bool) : Report :=
  match load files path with
  | .error e => { failure := some e }
  | .ok d => { output := if json then (d.toJson .plain).pretty ++ "\n" else d.listing }

def Invocation.perform (files : Files) : Invocation → Report
  | .run o => Cli.run files o
  | .dump path json => Cli.dump files path json

def Invocation.paths : Invocation → List String
  | .run o => o.config.toList ++ [o.file]
  | .dump path _ => [path]

end ActionVm.Cli
