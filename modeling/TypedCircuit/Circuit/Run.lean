import TypedCircuit.Circuit.Signal
import TypedCircuit.ConstraintSystem

/-!
# Runs

A run is the record of one pass over a circuit. A compile pass measures the circuit: its
variables have no values, and the computations of private inputs are skipped. A prove
pass produces an assignment: its variables have values, and every recorded gate is
checked when the pass ends.

Runs nest. The runs that are open form a list with the innermost one first; that one is
active, and it is the only one an operation touches. `Wiring` is the state of the open
runs, and `Circuit` adds failure on top of it, so that a failure leaves the runs as they
were when it arose.
-/

namespace TypedCircuit

/-- What a pass is for. -/
inductive Mode where
  /-- Measuring the circuit. -/
  | compile
  /-- Producing an assignment. -/
  | prove
deriving DecidableEq

/-- The record of a pass. -/
structure Run where
  mode : Mode
  /-- The value of each variable, by index. -/
  values : Array (Option Element)
  /-- How many variables are private inputs. -/
  witnessCount : Nat
  gates : Array Gate

namespace Run

/-- The record of a pass that has just begun. -/
def start (mode : Mode) : Run := ⟨mode, #[], 0, #[]⟩

/-- The value a variable keeps: only a prove pass keeps values. -/
def keptValue (mode : Mode) (value? : Option Element) : Option Element :=
  match mode with
  | .prove => value?
  | .compile => none

/-- Allocates the next variable. -/
def allocate (run : Run) (value? : Option Element) : Variable × Run :=
  let kept := keptValue run.mode value?
  (⟨run.values.size, kept⟩, { run with values := run.values.push kept })

/-- Records a gate. -/
def record (run : Run) (gate : Gate) : Run := { run with gates := run.gates.push gate }

/-- Allocates private inputs with the given values. -/
def introduce (run : Run) (values : List (Option Element)) : List Signal × Run :=
  let run := { run with witnessCount := run.witnessCount + values.length }
  let (signals, run) := values.foldl
    (fun (signals, run) value? =>
      let (v, run) := allocate run value?
      (Signal.variable v :: signals, run))
    ([], run)
  (signals.reverse, run)

/-- The value of a variable, if the run has one. -/
def valueOf? (run : Run) (index : Nat) : Option Element := (run.values[index]?).join

/-- The first gate that does not hold, with its index. -/
def violated? (run : Run) : Option (Nat × Gate) :=
  run.gates.toList.zipIdx.findSome? fun (gate, index) =>
    if gate.holds? run.valueOf? = some true then none else some (index, gate)

/-- Checks every gate against the values of the run. -/
def verify (run : Run) : Except Error Unit :=
  match run.violated? with
  | none => .ok ()
  | some (index, gate) => .error (.unsatisfied index gate)

/-- What the run leaves behind. -/
def constraintSystem (run : Run) : ConstraintSystem :=
  ⟨run.values.size, run.witnessCount, run.gates.toList⟩

end Run

/-- The mode of the active run, if a run is open. -/
def activeMode? (runs : List Run) : Option Mode := runs.head?.map Run.mode

/-- Whether variables have values: everywhere but in a compile pass. -/
def haveValues (runs : List Run) : Bool := activeMode? runs != some .compile

/-- Operations on the open runs, the innermost first. -/
abbrev Wiring := StateM (List Run)

/-- Operations on the open runs that may fail. -/
abbrev Circuit := ExceptT Error Wiring

end TypedCircuit
