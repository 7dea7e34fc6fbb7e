import DispatchLisp.CommandLine

/-! # The command

Reads the arguments, the environment and the file, and prints the report. -/

open DispatchLisp

/-- The reason why a file could not be read. -/
def faultOf : IO.Error → FileFault
  | .permissionDenied .. => .denied
  | .inappropriateType _ 20 _ => .notFolder
  | .inappropriateType .. => .isFolder
  | .invalidArgument .. => .nameTooLong
  | .userError .. => .notText
  | _ => .missing

/-- The contents of a file. -/
def contentsOf (path : String) : IO (Except FileFault String) := do
  try
    return .ok (← IO.FS.readFile path)
  catch e => return .error (faultOf e)

def main (args : List String) : IO UInt32 := do
  match CommandLine.parse args (← IO.getEnv "SABLE_MAX_DEPTH") with
  | none =>
    IO.eprintln "usage: [-e <expr>] [--max-depth <n>] [--no-stdlib] [file]"
    return 2
  | some options =>
    let contents ← contentsOf (options.file.getD "")
    match CommandLine.run World.patience options fun _ => contents with
    | none => return 1
    | some report =>
      IO.print report.output
      IO.eprint report.errors
      return report.code.toUInt32
