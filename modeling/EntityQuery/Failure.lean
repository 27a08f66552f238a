import EntityQuery.Lowering
import EntityQuery.Reader.Chain
import EntityQuery.Statement

/-!
What can go wrong between the text of a query and its statement.

* `ChainFault` -- what is wrong with the order of operators;
* `FileFault` -- why a file cannot be read;
* `Failure` -- every failure with its cause; `Failure.message` is its text.
-/
namespace EntityQuery

/-- What is wrong with the order of the operators of a chain. -/
inductive ChainFault where
  | empty
  | noSource (found : String)
  | secondSource
  deriving DecidableEq

/-- The fault in words. -/
def ChainFault.message : ChainFault → String
  | .empty => "empty query chain"
  | .noSource found => s!"expected FromEntity at the start of the chain, found {found}"
  | .secondSource => "FromEntity may only appear at the start of a chain"

/-- Why a file cannot be read, in the words of the operating system. -/
structure FileFault where
  text : String
  deriving DecidableEq

namespace FileFault

/-- The words of the operating system with the number of the error. -/
def ofSystem (code : Nat) (details : String) : FileFault :=
  { text := details ++ " (os error " ++ toString code ++ ")" }

/-- There is no such file. -/
def missing : FileFault := .ofSystem 2 "No such file or directory"

/-- The path is that of a directory. -/
def directory : FileFault := .ofSystem 21 "Is a directory"

/-- The content is no text. -/
def notText : FileFault := { text := "stream did not contain valid UTF-8" }

end FileFault

/-- Why there is no statement. -/
inductive Failure where
  | unreadable (fault : ReadFault)
  | blocked (lambda : Lambda) (obstacle : Obstacle)
  | unsupported (operator : String)
  | invalidChain (fault : ChainFault)
  | unknownEntity (entity : String)
  | unknownProperty (entity property : String)
  | invalidModel (fault : ModelFault)
  | lostRow (entity : String) (path : Path)
  | unrenderable (fault : RenderFault)
  | file (fault : FileFault)

/-- The failure in words. -/
def Failure.message : Failure → String
  | .unreadable fault => fault.message
  | .blocked l obstacle =>
    s!"The expression '{l.text}' could not be translated: {obstacle.message}"
  | .unsupported operator => s!"Query operator '{operator}' is not supported"
  | .invalidChain fault => s!"Invalid query chain: {fault.message}"
  | .unknownEntity e => s!"Unknown entity type: '{e}'"
  | .unknownProperty e p => s!"Entity type '{e}' has no property '{p}'"
  | .invalidModel fault => s!"Model error: {fault.message}"
  | .lostRow e path =>
    s!"Internal error: entity '{e}' has no projection recorded at '{path.text}'"
  | .unrenderable fault => s!"Render error: {fault.message}"
  | .file fault => s!"IO error: {fault.text}"

/-- The entity of that name. -/
def Model.get (m : Model) (name : String) : Except Failure Entity :=
  match m.find? name with
  | some e => .ok e
  | none => .error (.unknownEntity name)

/-- The property of that name. -/
def Entity.get (e : Entity) (name : String) : Except Failure Property :=
  match e.find? name with
  | some p => .ok p
  | none => .error (.unknownProperty e.name name)

/-- The model, if it is well formed. -/
def Model.checked (m : Model) : Except Failure Model :=
  match m.check with
  | .ok () => .ok m
  | .error fault => .error (.invalidModel fault)

end EntityQuery
