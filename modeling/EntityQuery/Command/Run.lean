import EntityQuery.Command.Arguments
import EntityQuery.Command.Report
import EntityQuery.Model.Toml

/-!
Running the command line.

* `Exit` -- how a run ends: an exit code, what is printed, and an error message;
* `Task.report` -- the output of a task on a model;
* `run` -- a whole run. It asks for the content of at most one file, so it is written over any way
  of reading files.
-/
namespace EntityQuery.Command

/-- How a run ends. -/
structure Exit where
  code : Nat
  output : String := ""
  error : Option String := none
  deriving DecidableEq

/-- The version of the program. -/
def versionText : String := "dynamo-linq 0.3.0\n"

/-- How the program is used. -/
def helpText : String :=
  unlines ["Translate object queries into PartiQL", "",
    "Usage: dynamo-linq [OPTIONS] <COMMAND>", "",
    "Commands:",
    "  translate  Translate a query and print the PartiQL statement",
    "  explain    Show the parsed chain, the query shape and the statement",
    "  entities   List the entities of the model",
    "  help       Print this message or the help of the given subcommand(s)", "",
    "Options:",
    "  -m, --model <MODEL>    Entity model file (TOML) [env: DYNAMO_LINQ_MODEL=]",
    "  -f, --format <FORMAT>  Output format [default: text] [possible values: text, json]",
    "  -v, --verbose          Verbose output (debug logging)",
    "  -h, --help             Print help",
    "  -V, --version          Print version"]

/-- The output of a task on a model. -/
def Task.report (t : Task) (format : Format) (m : Model) : Except Failure String :=
  match t with
  | .statement query => do
    let chain ← Chain.parse query
    let s ← Context.statement { model := m } chain
    return match format with
      | .json => documentReport s.document
      | .text => statementReport s
  | .explanation query => do
    let chain ← Chain.parse query
    let q ← Context.run { model := m } chain
    let s ← q.shape.rendered
    return match format with
      | .json => documentReport (explanationDocument chain q.shape s)
      | .text => explanationReport query chain q.shape s
  | .entities =>
    return match format with
      | .json => documentReport m.document
      | .text => entitiesReport m

/-- The model in the content of a file. A fault of the file is named with its cause. -/
def loadModel (path : String) (content : Except FileFault String) : Except String Model :=
  match content with
  | .error fault =>
    .error s!"Failed to load model from {path}: {(Failure.file fault).message}: {fault.text}"
  | .ok text =>
    match Model.parse text with
    | .ok m => .ok m
    | .error fault =>
      .error s!"Failed to load model from {path}: {(Failure.invalidModel fault).message}"

/-- A run that ends with an error message. -/
def Exit.failed (message : String) : Exit := { code := 1, error := some ("Error: " ++ message) }

/-- The run of an invocation on the content of its model file. -/
def Invocation.exit (i : Invocation) (path : String) (content : Except FileFault String) : Exit :=
  match loadModel path content with
  | .error message => .failed message
  | .ok m =>
    match i.task.report i.format m with
    | .ok output => { code := 0, output := output }
    | .error failure => .failed failure.message

/-- A whole run, given the arguments, the model that the environment names, and the model file in
    the configuration directory if it exists. -/
def run {m : Type → Type} [Monad m] (read : String → m (Except FileFault String))
    (arguments : List String) (named configured : Option String) : m Exit :=
  match Request.ofArguments? arguments named with
  | none => return { code := 2, error := some helpText }
  | some .version => return { code := 0, output := versionText }
  | some .help => return { code := 0, output := helpText }
  | some (.run i) =>
    match i.model <|> configured with
    | none => return .failed "No model file. Use --model or set DYNAMO_LINQ_MODEL"
    | some path => do
      let content ← read path
      return i.exit path content

end EntityQuery.Command
