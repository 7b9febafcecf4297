import TypedCircuit.ShapeDocument

/-!
# Commands

A command reads documents, prints lines and ends with an exit code: zero if all is well,
one if its input is valid but the check it was asked for failed. Whatever keeps it from
its work is an error, and what it printed before stays printed.
-/

namespace TypedCircuit

/-- What is found at a path. -/
inductive Source where
  /-- No file. -/
  | absent
  /-- A file that holds no document. -/
  | malformed
  | document (json : Json)

/-- A path with what is found there. -/
structure File where
  path : String
  source : Source

/-- What keeps a command from its work. -/
inductive CommandError where
  | unreadable (path : String)
  | unparsable (path : String)
  | notAShape (path : String) (cause : ShapeError)
  /-- A shape that describes no type. -/
  | unusable (cause : Error)
  /-- A failure, with what was being done if that is said. -/
  | failed (doing? : Option String) (cause : Error)

/-- The words for an error, the outermost circumstance first. -/
def CommandError.message : CommandError → String
  | .unreadable path => "failed to read " ++ path ++ ": No such file or directory (os error 2)"
  | .unparsable path => "failed to parse " ++ path
  | .notAShape path cause => "invalid shape file " ++ path ++ ": " ++ cause.message
  | .unusable cause => "shape is not usable: " ++ cause.message
  | .failed (some doing) cause => doing ++ ": " ++ cause.message
  | .failed none cause => cause.message

/-- A command: it prints, and it may fail. -/
abbrev Command := ExceptT CommandError (StateM String)

namespace Command

variable {α : Type}

/-- Prints a line. -/
def printLine (line : String) : Command Unit :=
  modifyThe String fun out => out ++ line ++ "\n"

/-- Prints a document. -/
def printJson (json : Json) : Command Unit := printLine json.pretty

/-- A result whose failure is told with what was being done. -/
def whileDoing (doing : String) (result : Except Error α) : Command α :=
  (result.mapError (.failed (some doing)) : Except CommandError α)

/-- A result whose failure is told as it is. -/
def require (result : Except Error α) : Command α :=
  (result.mapError (.failed none) : Except CommandError α)

/-- The document of a file. -/
def document (file : File) : Command Json :=
  match file.source with
  | .absent => throw (.unreadable file.path)
  | .malformed => throw (.unparsable file.path)
  | .document json => return json

/-- The shape document of a file. -/
def shapeDocument (file : File) : Command ShapeDocument := do
  let json ← document file
  ((ShapeDocument.parse json).mapError (.notAShape file.path) :
    Except CommandError ShapeDocument)

/-- The type of a shape document. -/
def descriptor (d : ShapeDocument) : Command Descriptor :=
  (d.descriptor.mapError .unusable : Except CommandError Descriptor)

/-- What a command printed, and its exit code or its error. -/
def outcome (command : Command Nat) : String × Except CommandError Nat :=
  let (result, out) := command.run ""
  (out, result)

end Command

end TypedCircuit
