import TypedCircuit.Codec.Basic

/-!
# Comparing and stripping values of a type

Operations that any type has, expressed through its flattening. Auxiliary data takes no
part in arithmetic: two values are compared by their elements alone.
-/

namespace TypedCircuit.Codec

/-- The value with every element replaced by its constant. -/
def toConstant (c : Codec) (v : Value) : Except Error Value := do
  let fields ← c.toFields v
  let constants ← fields.mapM Signal.toConstant
  c.ofFieldsWithAux constants (c.auxiliary v)

/-- Whether every element of a value is a constant. -/
def isConstant (c : Codec) (v : Value) : Except Error Bool := do
  let fields ← c.toFields v
  return fields.all Signal.isConstant

/-- Conjoins to a bit that two sequences are equal, element by element. -/
def equalOnto (acc : Bit) : List (Signal × Signal) → Wiring Bit
  | [] => return acc
  | (x, y) :: rest => do
    let same ← x.equals y
    equalOnto (← acc.and same) rest

/-- The bit that tells whether two values of a type are equal. -/
def equal (c : Codec) (a b : Value) : Circuit Bit := do
  let xs ← c.toFields a
  let ys ← c.toFields b
  equalOnto (Bit.ofBool true) (xs.zip ys)

/-- Asserts that two values of a type are equal, element by element. -/
def assertEqual (c : Codec) (a b : Value) : Circuit Unit := do
  let xs ← c.toFields a
  let ys ← c.toFields b
  (xs.zip ys).forM fun (x, y) => x.assertEqual y

end TypedCircuit.Codec
