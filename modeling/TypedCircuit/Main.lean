import TypedCircuit.Command.Compile
import TypedCircuit.Command.Flatten
import TypedCircuit.Command.Inspect
import TypedCircuit.Json.Parser

/-!
# Command line

    inspect SHAPE [--json]
    flatten SHAPE VALUE [--hash-input] [--verify]
    compile SHAPE [--value VALUE] [--gates]

`SHAPE` and `VALUE` are paths of files that hold a document. Options may stand anywhere
after the name of the command. What a command prints goes to standard output, its error
to standard error, and an error ends the program with exit code one.
-/

namespace TypedCircuit.CommandLine

/-- The words after the name of a command, by their role. -/
structure Words where
  /-- The words that are no options, in order. -/
  paths : List String
  /-- The options that take nothing. -/
  flags : List String
  /-- The path after `--value`. -/
  value? : Option String

/-- Sorts words by their role; an option that takes a path has to be followed by one. -/
def Words.ofList : List String → Option Words
  | [] => some ⟨[], [], none⟩
  | ["--value"] => none
  | "--value" :: path :: rest => (ofList rest).map fun w => { w with value? := some path }
  | word :: rest =>
    if word.startsWith "--" then
      (ofList rest).map fun w => { w with flags := word :: w.flags }
    else (ofList rest).map fun w => { w with paths := word :: w.paths }

/-- Whether only the given options occur. -/
def Words.onlyFlags (w : Words) (allowed : List String) : Bool :=
  w.value?.isNone && w.flags.all allowed.contains

/-- What a command line asks for. -/
inductive Invocation where
  | inspect (shape : String) (json : Bool)
  | flatten (shape value : String) (hashInput verify : Bool)
  | compile (shape : String) (value? : Option String) (gates : Bool)

/-- What the words of a command line ask for. -/
def Invocation.ofWords? (command : String) (w : Words) : Option Invocation :=
  match command, w.paths with
  | "inspect", [shape] =>
    if w.onlyFlags ["--json"] then some (.inspect shape (w.flags.contains "--json")) else none
  | "flatten", [shape, value] =>
    if w.onlyFlags ["--hash-input", "--verify"] then
      some (.flatten shape value (w.flags.contains "--hash-input")
        (w.flags.contains "--verify"))
    else none
  | "compile", [shape] =>
    if w.flags.all ["--gates"].contains then
      some (.compile shape w.value? (w.flags.contains "--gates"))
    else none
  | _, _ => none

/-- How the program is used. -/
def usage : String :=
  "usage: inspect SHAPE [--json]\n" ++
    "       flatten SHAPE VALUE [--hash-input] [--verify]\n" ++
    "       compile SHAPE [--value VALUE] [--gates]"

/-- What is found at a path; a file that cannot be read counts as absent. -/
def readSource (path : String) : IO File := do
  match ← (IO.FS.readFile path).toBaseIO with
  | .error _ => return ⟨path, .absent⟩
  | .ok text =>
    match Json.parse text with
    | some json => return ⟨path, .document json⟩
    | none => return ⟨path, .malformed⟩

/-- The command that is asked for, with its files read. -/
def Invocation.command : Invocation → IO (Command Nat)
  | .inspect shape json => return Command.inspect (← readSource shape) json
  | .flatten shape value hashInput verify =>
    return Command.flatten (← readSource shape) (← readSource value) hashInput verify
  | .compile shape value? gates =>
    return Command.compile (← readSource shape) (← value?.mapM readSource) gates

/-- Performs a command and returns the exit code of the program. -/
def perform (command : Command Nat) : IO UInt32 := do
  let (printed, result) := Command.outcome command
  IO.print printed
  match result with
  | .ok code => return code.toUInt32
  | .error e =>
    IO.eprintln e.message
    return 1

/-- Performs what the words of a command line ask for. -/
def run (args : List String) : IO UInt32 := do
  let invocation? := match args with
    | command :: rest => (Words.ofList rest).bind (Invocation.ofWords? command)
    | [] => none
  match invocation? with
  | some invocation => perform (← invocation.command)
  | none =>
    IO.eprintln usage
    return 2

end TypedCircuit.CommandLine

/-- The program. -/
def main (args : List String) : IO UInt32 := TypedCircuit.CommandLine.run args
