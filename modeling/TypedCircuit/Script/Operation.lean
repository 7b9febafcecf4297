import TypedCircuit.Arguments
import TypedCircuit.Script.Expression

/-!
# Operations of scripts

The steps of a script that contain no further steps, by what they work on. Each operation
names its operands by expressions; what it means is `Operation.run`.
-/

namespace TypedCircuit.Script

/-- Looking at values. None of these touches a run. -/
inductive ValueOperation where
  /-- The value itself. -/
  | evaluate (v : ValueExpr)
  /-- Equality of assigned values. -/
  | sameValue (a b : ValueExpr)
  /-- Equality of wiring. -/
  | sameWiring (a b : ValueExpr)
  | kind (v : ValueExpr)
  /-- The value of a field element. -/
  | signalValue (a : ValueExpr)
  | signalIsConstant (a : ValueExpr)
  | signalToConstant (a : ValueExpr)
  | signalText (a : ValueExpr)
  /-- The truth value of a boolean. -/
  | bitValue (a : ValueExpr)
  | bitIsConstant (a : ValueExpr)
  | bitToConstant (a : ValueExpr)
  /-- The text of a host value in messages. -/
  | opaqueText

/-- Computing and asserting with field elements and booleans. -/
inductive CircuitOperation where
  | add (a b : ValueExpr)
  | sub (a b : ValueExpr)
  | mul (a b : ValueExpr)
  | neg (a : ValueExpr)
  | square (a : ValueExpr)
  | equals (a b : ValueExpr)
  | assertEqual (a b : ValueExpr)
  | assertBoolean (a : ValueExpr)
  | assertRange (a : ValueExpr) (bits : Nat)
  | and (a b : ValueExpr)
  | or (a b : ValueExpr)
  | not (a : ValueExpr)
  | bitEquals (a b : ValueExpr)
  | bitAssertEqual (a b : ValueExpr)
  | assertTrue (a : ValueExpr)

/-- Using a type on values. -/
inductive TypeOperation where
  | describe
  /-- The text of a type in messages. -/
  | text
  | toFields (v : ValueExpr)
  | ofFields (fields : ValueExpr)
  | ofFieldsWithAux (fields aux : ValueExpr)
  | check (v : ValueExpr)
  | auxiliary (v : ValueExpr)
  | toInput (v : ValueExpr)
  | toInputOrFields (v : ValueExpr)
  | toJson (v : ValueExpr)
  | fromJson (json : Json)
  | toConstant (v : ValueExpr)
  | isConstant (v : ValueExpr)
  | equal (a b : ValueExpr)
  | assertEqual (a b : ValueExpr)
  | select (condition yes no : ValueExpr)
  | switch (mask : List ValueExpr) (candidates : List ValueExpr)

/-- A hash input written in a script: a saved one, or its parts. -/
inductive InputExpr where
  | saved (name : String)
  | parts (fields : ValueExpr) (packed : List (ValueExpr × Nat))

/-- Arguments written in a script: saved ones, or their parts. -/
inductive ArgumentsExpr where
  | saved (name : String)
  | parts (fields : ValueExpr) (aux : List ValueExpr)

/-- Working with registered types. -/
inductive RegistryOperation where
  /-- Offers one member; `none` stands for a member without an encoding. -/
  | register (type field : String) (member? : Option TypeExpr)
  /-- Declares a type by offering members in order. -/
  | declare (type : String) (members : List (String × Option TypeExpr))
  /-- Looks up a type, and perhaps one of its members. -/
  | lookUp (type : String) (field? : Option String)
  /-- A saved look-up. -/
  | held (name : String)
  /-- The text of a composite type in messages. -/
  | compositeText (name : String)

/-- Laying out arguments of entry points. -/
inductive ArgumentOperation where
  | entry (type : EntryType TypeExpr) (v : ValueExpr)
  | take (type : EntryType TypeExpr) (fields aux : ValueExpr)
  | layOut (types : List (EntryType TypeExpr)) (args : List ValueExpr)
  | readBack (types : List (EntryType TypeExpr)) (flat : ArgumentsExpr)

/-- Looking at the scopes that are open, and at kept memoization contexts. -/
inductive ScopeOperation where
  | status
  /-- Private inputs whose computation yields values, or fails with a message. -/
  | introduce (size : Nat) (values : ValueExpr) (failure? : Option String)
  | blinding
  | context (name : String)
  | rewind (name : String)
  | cloneContext (name target : String)
  | sameContext (a b : String)
  | blindingIs (name : String) (a : ValueExpr)

/-- A step that contains no further steps. -/
inductive Operation where
  | value (op : ValueOperation)
  | circuit (op : CircuitOperation)
  | typed (type : TypeExpr) (op : TypeOperation)
  | append (a b : InputExpr)
  | pack (h : InputExpr)
  | registry (op : RegistryOperation)
  | arguments (op : ArgumentOperation)
  | scope (op : ScopeOperation)

instance : Inhabited Operation := ⟨.scope .status⟩

end TypedCircuit.Script
