import ActionVm.Cli.Basic

namespace ActionVm.Cli

def usage : String :=
  "usage: run FILE [--jit off|on|auto] [--trace-jit] [--config FILE]\n       dump FILE [--json]"

def reason (e : IO.Error) : FileError :=
  let number : UInt32 := match e with
    | .noFileOrDirectory _ n _ => n
    | .permissionDenied _ n _ => n
    | .inappropriateType _ n _ => n
    | .invalidArgument _ n _ => n
    | _ => 0
  (FileError.ofNumber? number.toInt32.toInt.natAbs).getD (.other (toString e))

def readFile (path : String) : IO (Except FileError Bytes) := do
  try
    return .ok (← IO.FS.readBinFile path).toList
  catch e => return .error (reason e)

end ActionVm.Cli

open ActionVm Cli in
def main (args : List String) : IO UInt32 := do
  match parse? args with
  | none =>
    IO.eprintln usage
    return 2
  | some invocation =>
    let contents ← invocation.paths.mapM fun path => return (path, ← readFile path)
    let files : Files := fun path => (contents.lookup path).getD (.error .notFound)
    let report := invocation.perform files
    IO.print report.output
    match report.failure with
    | none => return 0
    | some failure =>
      let text := failure.message
      IO.eprintln s!"error: {text}"
      return 1
