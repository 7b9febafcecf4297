import TypedCircuit.Error

/-!
# Signals and bits

A signal is what circuit values are made of: a constant known when it is built, or a
variable of a run. A variable carries its index in the run that allocated it and, in a
pass that produces an assignment, its value.

A bit is a signal that stands for zero or one. Nothing in its form ensures that; it
holds by construction or by an assertion.

Equality of signals is equality of wiring: a variable equals only the same variable with
the same value.
-/

namespace TypedCircuit

/-- A variable of a run. -/
structure Variable where
  /-- The place in the order of allocation. -/
  index : Nat
  /-- The assigned value, if the pass has values. -/
  value? : Option Element
deriving DecidableEq

/-- The variable that stands for the result of an operation outside every run on a
variable without a value. No run allocates its index. -/
def Variable.detached : Variable := ⟨wordBound - 1, none⟩

/-- A constant or a variable. -/
inductive Signal where
  | constant (value : Element)
  | variable (v : Variable)
deriving DecidableEq

namespace Signal

/-- The constant zero. -/
def zero : Signal := .constant 0

/-- The constant one. -/
def one : Signal := .constant 1

/-- Whether the signal is a constant. -/
def isConstant : Signal → Bool
  | .constant _ => true
  | .variable _ => false

/-- The value, if it is known. -/
def known? : Signal → Option Element
  | .constant value => some value
  | .variable v => v.value?

/-- The value; a variable of a compile pass has none. -/
def value (s : Signal) : Except Error Element :=
  match s.known? with
  | some value => .ok value
  | none => .error .valueUnavailable

/-- The constant of the same value. -/
def toConstant (s : Signal) : Except Error Signal := s.value.map .constant

/-- The signal as the input of a gate. -/
def wire : Signal → Wire
  | .constant value => .constant value
  | .variable v => .variable v.index

/-- The text of a signal: its value, or its index and its value if that is known. -/
def text : Signal → String
  | .constant value => value.text
  | .variable ⟨index, some value⟩ => "v" ++ toString index ++ "=" ++ value.text
  | .variable ⟨index, none⟩ => "v" ++ toString index

end Signal

/-- A signal that stands for zero or one. -/
structure Bit where
  signal : Signal
deriving DecidableEq

namespace Bit

/-- A constant bit. -/
def ofBool (b : Bool) : Bit := ⟨.constant (Element.ofBool b)⟩

/-- Whether the bit is a constant. -/
def isConstant (b : Bit) : Bool := b.signal.isConstant

/-- The truth value. -/
def value (b : Bit) : Except Error Bool := do
  let x ← b.signal.value
  if x = 0 then return false
  else if x = 1 then return true
  else throw (.notBoolean x)

/-- The constant of the same truth value. -/
def toConstant (b : Bit) : Except Error Bit := b.value.map ofBool

end Bit

end TypedCircuit
