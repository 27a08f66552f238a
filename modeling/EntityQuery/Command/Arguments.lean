/-!
The arguments of the command line.

* `Task` -- what is asked for: the statement of a query, an explanation of it, or the entities of
  the model;
* `Invocation` -- a task with its options;
* `Request` -- an invocation, or a question about the program itself;
* `Request.ofArguments?` -- the request that arguments make, from left to right; nothing if they
  are used wrongly. Options stand before the task, each at most once.
-/
namespace EntityQuery.Command

/-! ## 1. Requests -/

/-- The form of the output. -/
inductive Format where
  | text
  | json
  deriving DecidableEq

/-- The format of a name. -/
def Format.ofName? : String → Option Format
  | "text" => some .text
  | "json" => some .json
  | _ => none

/-- What is asked for. -/
inductive Task where
  | statement (query : String)
  | explanation (query : String)
  | entities
  deriving DecidableEq

/-- A task with its options. -/
structure Invocation where
  model : Option String
  format : Format
  verbose : Bool
  task : Task
  deriving DecidableEq

/-- A task to do, or a question about the program. -/
inductive Request where
  | run (invocation : Invocation)
  | version
  | help
  deriving DecidableEq

/-! ## 2. Options -/

/-- Options with a value. -/
inductive Slot where
  | model
  | format
  deriving DecidableEq

/-- The options met so far. -/
structure Options where
  model : Option String := none
  format : Option Format := none
  verbose : Bool := false

/-- An option with its value; it must not have one yet, and a path is not empty. -/
def Options.set? (o : Options) : Slot → String → Option Options
  | .model, value =>
    if o.model.isSome || value.isEmpty then none else some { o with model := some value }
  | .format, value =>
    if o.format.isSome then none
    else (Format.ofName? value).map fun format => { o with format := some format }

/-- What an argument leads to: an answer, or further arguments, the next of which may be the value
    of an option. -/
inductive Step where
  | wrong
  | answer (request : Request)
  | next (options : Options) (waiting : Option Slot)

/-- An option with its value, or wrong use. -/
def Step.set (o : Options) (slot : Slot) (value : String) : Step :=
  match o.set? slot value with
  | some o => .next o none
  | none => .wrong

/-- The switch for more messages. -/
def Step.verbose (o : Options) : Step :=
  if o.verbose then .wrong else .next { o with verbose := true } none

/-- An option by its long name, with a value after an equals sign if there is one. -/
def longOption (o : Options) (name : String) (value : Option String) : Step :=
  match name, value with
  | "model", some v => .set o .model v
  | "model", none => .next o (some .model)
  | "format", some v => .set o .format v
  | "format", none => .next o (some .format)
  | "verbose", none => .verbose o
  | "version", none => .answer .version
  | "help", none => .answer .help
  | _, _ => .wrong

/-- The value right after the letter of an option, or else the next argument. -/
def attached (o : Options) (slot : Slot) : List Char → Step
  | [] => .next o (some slot)
  | '=' :: value => .set o slot (.ofList value)
  | value => .set o slot (.ofList value)

/-- Options by their letters, several in one argument. -/
def shortOptions (o : Options) : List Char → Step
  | [] => .next o none
  | 'v' :: rest =>
    match Step.verbose o with
    | .next o _ => shortOptions o rest
    | other => other
  | 'V' :: _ => .answer .version
  | 'h' :: _ => .answer .help
  | 'm' :: rest => attached o .model rest
  | 'f' :: rest => attached o .format rest
  | _ => .wrong

/-- One argument before the task, or nothing if it is no option. Nothing but a task can follow two
    dashes alone, and none can. -/
def optionStep? (o : Options) : List Char → Option Step
  | ['-', '-'] => some .wrong
  | '-' :: '-' :: body =>
    let name := String.ofList (body.takeWhile (· ≠ '='))
    match body.dropWhile (· ≠ '=') with
    | [] => some (longOption o name none)
    | _ :: value => some (longOption o name (some (.ofList value)))
  | ['-'] => none
  | '-' :: letters => some (shortOptions o letters)
  | _ => none

/-! ## 3. Tasks -/

/-- Arguments that start with a dash and are more than one. -/
def isOption (argument : String) : Bool :=
  match argument.toList with
  | '-' :: _ :: _ => true
  | _ => false

/-- The option that asks for help. -/
def asksHelp (argument : String) : Bool :=
  argument = "--help" || "-h".isPrefixOf argument

/-- The arguments after the name of a task. -/
inductive Operands where
  | wrong
  | help
  | values (values : List String)

/-- At most so many arguments; after two dashes they may look like options. -/
def operands : Nat → List String → Operands
  | _, [] => .values []
  | room, argument :: rest =>
    if argument = "--" then (if rest.length ≤ room then .values rest else .wrong)
    else if asksHelp argument then .help
    else if isOption argument then .wrong
    else
      match room with
      | 0 => .wrong
      | room + 1 =>
        match operands room rest with
        | .values more => .values (argument :: more)
        | other => other

/-- The names of the tasks. -/
def taskNames : List String := ["translate", "explain", "entities"]

/-- A task by its name and the arguments after it. -/
def task (name : String) (arguments : List String) : Option (Except Request Task) :=
  match name with
  | "translate" => query .statement
  | "explain" => query .explanation
  | "entities" =>
    match operands 0 arguments with
    | .values _ => some (.ok .entities)
    | .help => some (.error .help)
    | .wrong => none
  | "help" =>
    match arguments with
    | [] => some (.error .help)
    | [n] => if n ∈ "help" :: taskNames then some (.error .help) else none
    | _ => none
  | _ => none
where
  /-- A task with one query. -/
  query (of : String → Task) : Option (Except Request Task) :=
    match operands 1 arguments with
    | .values [q] => some (.ok (of q))
    | .values _ => none
    | .help => some (.error .help)
    | .wrong => none

/-- The invocation of a task. Without an option the model is the one that the environment names. -/
def invocation (o : Options) (named : Option String) (t : Task) : Option Invocation :=
  let model := o.model <|> named
  if model = some "" then none
  else some { model := model, format := o.format.getD .text, verbose := o.verbose, task := t }

/-- The request of the arguments from some place on, given the options before it and the one that
    waits for its value. -/
def requestFrom (named : Option String) (o : Options) (waiting : Option Slot) :
    List String → Option Request
  | [] => none
  | argument :: rest =>
    match waiting with
    | some slot =>
      if isOption argument then none
      else
        match o.set? slot argument with
        | some o => requestFrom named o none rest
        | none => none
    | none =>
      match optionStep? o argument.toList with
      | some .wrong => none
      | some (.answer request) => some request
      | some (.next o waiting) => requestFrom named o waiting rest
      | none =>
        match task argument rest with
        | some (.ok t) => (invocation o named t).map .run
        | some (.error request) => some request
        | none => none

/-- The request that arguments make, given the model that the environment names. -/
def Request.ofArguments? (arguments : List String) (named : Option String) : Option Request :=
  requestFrom named {} none arguments

end EntityQuery.Command
