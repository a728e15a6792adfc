import SqlRiver.Command.Arguments
import SqlRiver.Command.Files
import SqlRiver.Layout.Render
import SqlRiver.Query.Json

/-!
# The command

The command reads one query, from a file or from its standard input, and writes
its layout or its data. This module says what it writes and which code it ends
with. A caller may read the input between the plan of the command and its
outcome, or run the command on a tree of files.

Main definitions:

* `produce`: the output for a text.
* `CommandError`: what can go wrong, and the wording.
* `plan`, `outcome`: what the command does, before and after its input is read.
* `run`: what the command leaves behind in a given surrounding.
-/

namespace SqlRiver.Command

/-- The output for a text: its layout, or the data of its query. -/
def produce (json : Bool) (o : Options) (t : Text) : Except ParseError Text :=
  (parse t).map fun query => if json then
    query.toJson.pretty else render o query

/-! ## Errors -/

/-- Why the command fails. -/
inductive CommandError where
  | parse (cause : ParseError)
  | read (cause : ReadError)
deriving DecidableEq, Repr

/-- The message of a failure. -/
def CommandError.message : CommandError → Text
  | .parse cause => cause.message
  | .read cause => "IO error: ".toList ++ cause.reason

/-- What the command reports about a failure: the message, and what caused
it. -/
def CommandError.report (e : CommandError) : Text :=
  "Error: ".toList ++ e.message ++ ['\n'] ++
    match e with
    | .parse _ => []
    | .read cause => "\nCaused by:\n    ".toList ++ cause.reason ++ ['\n']

/-! ## What the command does -/

/-- What the command leaves behind. -/
structure Outcome where
  /-- The exit code. -/
  code : Nat
  /-- What it writes to its standard output. -/
  out : Text := []
  /-- What it writes to its standard error. -/
  err : Text := []
deriving DecidableEq, Repr

/-- What the command does before it reads its input. -/
inductive Plan where
  /-- It ends. -/
  | done (outcome : Outcome)
  /-- It reads the input of a request. -/
  | read (request : Request)

/-- The line that names the program and its version. -/
def versionLine : Text := "oxide-sqlfmt 0.1.0\n".toList

/-- What the command does with its words and variables. -/
def plan (vars : Variables) (words : List Text) : Plan :=
  match requestOf vars words with
  | .ok request => .read request
  | .error .usage => .done { code := 2 }
  | .error .version => .done { code := 0, out := versionLine }
  | .error .help => .done { code := 0 }

/-- The output for a request, when its input has been read. -/
def answer (request : Request) (input : Except ReadError Text) :
    Except CommandError Text :=
  match input with
  | .error cause => .error (.read cause)
  | .ok t =>
    match produce request.json request.options t with
    | .error cause => .error (.parse cause)
    | .ok out => .ok out

/-- What the command leaves behind, when its input has been read. -/
def outcome (request : Request) (input : Except ReadError Text) : Outcome :=
  match answer request input with
  | .ok out => { code := 0, out := out ++ ['\n'] }
  | .error e => { code := 1, err := e.report }

/-! ## The command in its surroundings -/

/-- All that the command sees. -/
structure Surroundings where
  /-- The environment variables. -/
  vars : Variables := {}
  /-- The working directory. -/
  directory : Spot
  /-- What its standard input holds. -/
  stdin : ByteArray

/-- What the input of a request holds. -/
def Surroundings.input (s : Surroundings) (request : Request) :
    Except ReadError Text :=
  match request.path with
  | some path => s.directory.read path
  | none => decode s.stdin

/-- What the command leaves behind. -/
def run (s : Surroundings) (words : List Text) : Outcome :=
  match plan s.vars words with
  | .done left => left
  | .read request => outcome request (s.input request)

end SqlRiver.Command
