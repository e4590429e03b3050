import YangConstraint.Cli.Run

/-! The command line. -/
namespace YangConstraint.Cli

def usage : String :=
  "usage: yangcond parse EXPR\n" ++
  "       yangcond eval EXPR --path PATH [--set PATH=VALUE]... [--store PATH=VALUE]...\n" ++
  "                     [--schema FILE] [--config FILE]\n" ++
  "       yangcond check --schema FILE [--set PATH=VALUE]... [--config FILE]\n" ++
  "       yangcond --version"

/-- Reads a file that a command names. -/
def readFile (name : String) : IO (Except FileError String) := do
  try
    let bytes ← IO.FS.readBinFile name
    return match String.fromUTF8? bytes with
      | some text => .ok text
      | none => .error .notText
  catch problem =>
    return match problem with
      | .inappropriateType .. => .error .directory
      | _ => .error .missing

/-- The texts of the files that a command names. -/
def readFiles (command : Command) : IO Files := do
  let names := match command with
    | .eval _ _ _ _ schema settings => schema.toList ++ settings.toList
    | .check schema _ settings => schema :: settings.toList
    | _ => []
  let texts ← names.mapM fun name => return (name, ← readFile name)
  return fun name => ((texts.find? (·.1 = name)).map (·.2)).getD (.error .missing)

/-- Answers a command, or shows how commands are written. -/
def program (args : List String) : IO UInt32 := do
  match Command.read? args with
  | none =>
    IO.eprintln usage
    return 2
  | some command =>
    let report := run (← readFiles command) command
    report.output.forM fun line => IO.println line
    report.errors.forM fun line => IO.eprintln line
    return report.exit.toUInt32

end YangConstraint.Cli

def main (args : List String) : IO UInt32 := YangConstraint.Cli.program args
