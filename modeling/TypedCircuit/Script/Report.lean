import TypedCircuit.Arguments
import TypedCircuit.Session

/-!
# Reports of scripts

What a step reports when it succeeds, and what it can save under a name for later steps.
A script keeps what it saved by kind, so a value and a type may have one name.
-/

namespace TypedCircuit.Script

/-- A description of a type. -/
structure Description where
  typeName : String
  width : Width
  kindName : String
  hashInput : Bool
  json : Bool

/-- A description of the members of a composite type: each with its name, the name of
its type and its width. -/
structure SchemaReport where
  members : List (String × String × Width)
  width : Width

/-- What a step reports. -/
inductive Report where
  /-- It was done. -/
  | done
  | bool (value : Bool)
  | text (value : String)
  | value (v : Value)
  /-- There is no value. -/
  | nothing
  | values (vs : List Value)
  /-- The declared kind of a value and the name of its form. -/
  | kind (kind form : String)
  /-- Which scopes are open. -/
  | status (checked : Bool) (mode? : Option Mode) (hasValues memoized : Bool)
  /-- Private inputs, and whether their computation ran. -/
  | introduced (called : Bool) (signals : List Signal)
  | blinding (s : Signal)
  | system (cs : ConstraintSystem) (brief : Bool)
  | context (ctx : MemoContext)
  | description (d : Description)
  | input (h : HashInput)
  | json (document : Json)
  | schema (report : SchemaReport)
  /-- A look-up of a type and perhaps of a member, whose type name is reported. -/
  | lookedUp (report : SchemaReport) (contains : Bool) (member? : Option (Option String))
  /-- A composite type that was declared in one go. -/
  | declared (name : String) (size : Nat) (report : SchemaReport)
  /-- A value as an argument of an entry point. -/
  | entry (typeName : String) (size : Nat) (fields : Except Error (List Signal))
      (aux : List Value)
  /-- A value read from the end of elements, and the elements before it. -/
  | taken (v : Value) (rest : List Signal)
  | arguments (flat : FlatArguments)

/-- What a step can save. -/
inductive Saved where
  | value (v : Value)
  | type (d : Descriptor)
  | input (h : HashInput)
  | arguments (flat : FlatArguments)
  | schema (s : Schema)

/-- What a step reports and what it offers to save. -/
structure Outcome where
  report : Report
  saved? : Option Saved

namespace Outcome

/-- A report with nothing to save. -/
def ofReport (report : Report) : Outcome := ⟨report, none⟩

/-- The report that a step was done. -/
def done : Outcome := ofReport .done

/-- A truth value. -/
def bool (value : Bool) : Outcome := ofReport (.bool value)

/-- A text. -/
def text (value : String) : Outcome := ofReport (.text value)

/-- A value, which can be saved. -/
def value (v : Value) : Outcome := ⟨.value v, some (.value v)⟩

/-- A field element, which can be saved. -/
def signal (s : Signal) : Outcome := value (.signal s)

/-- A boolean, which can be saved. -/
def bit (b : Bit) : Outcome := value (.bit b)

/-- A sequence of values, which can be saved. -/
def values (vs : List Value) : Outcome := ⟨.values vs, some (.value (.array vs))⟩

/-- A sequence of field elements, which can be saved. -/
def signals (fields : List Signal) : Outcome := values (fields.map .signal)

/-- A hash input, which can be saved. -/
def input (h : HashInput) : Outcome := ⟨.input h, some (.input h)⟩

end Outcome

/-- What a script keeps: the saved things by kind, the memoization contexts by name, and
the log of its steps, latest first. -/
structure Workspace where
  values : Entries Value
  types : Entries Descriptor
  inputs : Entries HashInput
  arguments : Entries FlatArguments
  schemas : Entries Schema
  contexts : Entries MemoContext
  log : List (String × Except Error Report)

namespace Workspace

/-- A workspace with nothing in it. -/
def empty : Workspace := ⟨[], [], [], [], [], [], []⟩

/-- Saves something under a name. -/
def save (w : Workspace) (name : String) : Saved → Workspace
  | .value v => { w with values := w.values.insert name v }
  | .type d => { w with types := w.types.insert name d }
  | .input h => { w with inputs := w.inputs.insert name h }
  | .arguments flat => { w with arguments := w.arguments.insert name flat }
  | .schema s => { w with schemas := w.schemas.insert name s }

/-- The memoization context of a name, which is empty before its first use. -/
def context (w : Workspace) (name : String) : MemoContext :=
  (w.contexts.find? name).getD .empty

/-- Keeps a memoization context under a name. -/
def keepContext (w : Workspace) (name : String) (ctx : MemoContext) : Workspace :=
  { w with contexts := w.contexts.insert name ctx }

/-- Forgets a memoization context. -/
def dropContext (w : Workspace) (name : String) : Workspace :=
  { w with contexts := w.contexts.filter (·.1 != name) }

end Workspace

end TypedCircuit.Script
