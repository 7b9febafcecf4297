import TypedCircuit.Command.Basic
import TypedCircuit.Witness

/-!
# Compiling a shape

Compiles the circuit that witnesses a value of a shape and prints a summary of its
constraints. For a concrete value the same circuit is proved, and both passes have to
leave the same constraint system.
-/

namespace TypedCircuit.Command

/-- A summary of a pass. -/
def summary (label : String) (cs : ConstraintSystem) (gates : Bool) : Json :=
  .ofMembers ([("pass", .string label), ("rows", .nat cs.rows),
    ("variables", .nat cs.variableCount), ("witnesses", .nat cs.witnessCount),
    ("digest", .string cs.digest)] ++ if gates then [("gates", cs.gatesJson)] else [])

/-- The result of a construction in a session of its own. -/
def constructed {α : Type} (body : Construction Unit α) : Except Error α :=
  (body.run (Session.start [] ())).1

/-- The circuit of a shape, compiled. -/
def compiledSystem (type : Descriptor) : Except Error ConstraintSystem :=
  constructed (Construction.compile (Construction.witness type
    (throw (.computationFailed "no value while compiling"))))

/-- The circuit of a shape, proved for a value. -/
def provedSystem (type : Descriptor) (v : Value) : Except Error ConstraintSystem := do
  return (← constructed (Construction.prove (Construction.witness type (return v)))).2

/-- Prints the constraints of a shape, and proves them for a value if one is given. -/
def compile (shape : File) (value? : Option File) (gates : Bool) : Command Nat := do
  let type ← descriptor (← shapeDocument shape)
  let compiled ← require (compiledSystem type)
  printJson (summary "compiled" compiled gates)
  match value? with
  | none => return 0
  | some value =>
    let json ← document value
    let c := Registry.empty.codec type
    match ← require (c.fromJson json) with
    | none =>
      printLine ("FAIL: value does not match shape " ++ c.typeName)
      return 1
    | some v =>
      match provedSystem type v with
      | .error e =>
        printLine ("FAIL: " ++ e.message)
        return 1
      | .ok proved =>
        printJson (summary "proved" proved gates)
        if proved.digest = compiled.digest then
          printLine "OK: prove pass matches compiled constraint system"
          return 0
        else
          printLine "FAIL: prove pass produced a different constraint system"
          return 1

end TypedCircuit.Command
