import EntityQuery.Command.Run

/-!
The program: queries from the command line, PartiQL to standard output.
-/
namespace EntityQuery

open Command

/-- What an error of the operating system says about a file. -/
def faultOf : IO.Error → FileFault
  | .noFileOrDirectory _ _ _ => .missing
  | .permissionDenied _ _ _ => .ofSystem 13 "Permission denied"
  | .inappropriateType _ code _ =>
    if code = 21 then .directory else .ofSystem 20 "Not a directory"
  | .userError _ => .notText
  | other => { text := toString other }

/-- The content of a file, or what is wrong with it. -/
def readModelFile (path : String) : IO (Except FileFault String) := do
  try
    return .ok (← IO.FS.readFile path)
  catch e =>
    return .error (faultOf e)

/-- The model file in the configuration directory, if it exists. -/
def configuredModel : IO (Option String) := do
  let home := (← IO.getEnv "HOME").map (· ++ "/.config")
  let directory := match ← IO.getEnv "XDG_CONFIG_HOME" with
    | some d => if d.startsWith "/" then some d else home
    | none => home
  match directory with
  | none => return none
  | some d =>
    let path := d ++ "/dynamo-linq/model.toml"
    match ← readModelFile path with
    | .ok _ => return some path
    | .error fault => return if fault = .missing then none else some path

/-- Runs the command line, prints what it gives and returns the exit code. -/
def program (arguments : List String) : IO UInt32 := do
  let named ← IO.getEnv "DYNAMO_LINQ_MODEL"
  let configured ← configuredModel
  let exit ← Command.run readModelFile arguments named configured
  IO.print exit.output
  if let some message := exit.error then IO.eprintln message
  return exit.code.toUInt32

end EntityQuery

/-- The program on the command line. -/
def main (arguments : List String) : IO UInt32 := EntityQuery.program arguments
