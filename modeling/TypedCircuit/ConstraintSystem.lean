import TypedCircuit.Gate
import TypedCircuit.Json.Printer
import TypedCircuit.Sha256

/-!
# Constraint systems

What a finished run leaves behind: how many variables it allocated, how many of them
were introduced as private inputs, and the gates in the order of their recording.

The digest identifies the gate list. It is the SHA-256 of the canonical text of the
list, so two passes that record the same gates can be compared by their digests. In the
canonical text every gate has its members in ascending order, no blank stands between
two tokens, and every index is written with all its digits.
-/

namespace TypedCircuit

/-- Summary of a finished run. -/
structure ConstraintSystem where
  /-- Variables allocated, private inputs and derived ones. -/
  variableCount : Nat
  /-- Variables introduced as private inputs. -/
  witnessCount : Nat
  /-- Gates, in the order of their recording. -/
  gates : List Gate
deriving DecidableEq

namespace ConstraintSystem

/-- The number of gates, one row each. -/
def rows (cs : ConstraintSystem) : Nat := cs.gates.length

/-- The document of the gate list. -/
def gatesJson (cs : ConstraintSystem) : Json := .array (cs.gates.map Gate.toJson)

/--
The text that the digest hashes. It stands for what the package `serde_jcs` writes.

Of that package is assumed that it writes the canonical JSON of RFC 8785. What a gate list needs of
it are objects with short keys, strings and integers. Integers below `2 ^ 53` have one text there;
greater ones are assumed to keep all their digits as well.
-/
def canonicalText (cs : ConstraintSystem) : String := cs.gatesJson.compact

/-- The SHA-256 of the canonical text, in lowercase hexadecimal. -/
def digest (cs : ConstraintSystem) : String := Sha256.ofText cs.canonicalText

/-- Whether every gate holds under an assignment. -/
def Satisfied (cs : ConstraintSystem) (values : Nat → Option Element) : Prop :=
  ∀ gate ∈ cs.gates, gate.holds? values = some true

/-! ## Documents -/

/-- The document of a constraint system. -/
def toJson (cs : ConstraintSystem) : Json :=
  .object [("gates", cs.gatesJson), ("variable_count", .nat cs.variableCount),
    ("witness_count", .nat cs.witnessCount)]

/-- The constraint system of the documents of its three parts. -/
def ofParts? (variableCount witnessCount gates : Json) : Option ConstraintSystem := do
  let variableCount ← variableCount.word? 64
  let witnessCount ← witnessCount.word? 64
  let gates ← (← gates.array?).mapM Gate.ofJson?
  return { variableCount, witnessCount, gates }

/-- The constraint system of a document: an object, or its three parts in order. -/
def ofJson? : Json → Option ConstraintSystem
  | .object members => do
    let variableCount ← Entries.find? members "variable_count"
    let witnessCount ← Entries.find? members "witness_count"
    ofParts? variableCount witnessCount (← Entries.find? members "gates")
  | .array [variableCount, witnessCount, gates] => ofParts? variableCount witnessCount gates
  | _ => none

end ConstraintSystem

end TypedCircuit
