import TypedCircuit.Codec.Basic

/-!
# Selections

A selection picks one of several candidates of a type by bits that may be unknown until
the circuit is proved. It works on the elements; auxiliary data cannot be selected inside
a circuit, so all candidates have to carry the same.

`select` takes one bit and two candidates. A constant bit picks without recording
anything; otherwise every element is `otherwise + bit * (then - otherwise)`.

`switch` takes a bit for every candidate and forms the weighted sum of the candidates.
That at most one bit is set is not asserted inside the circuit. It is checked where the
values of the bits are known: at once for constant bits, otherwise in every pass that has
values. Whoever needs it enforced has to constrain the bits.
-/

namespace TypedCircuit

namespace Codec

/-- The auxiliary data that all candidates carry; nulls if there is no candidate. -/
def sharedAuxiliary (c : Codec) (candidates : List Value) : Except Error (List Value) :=
  match candidates.map c.auxiliary with
  | [] => (c.width ()).map fun width => List.replicate width.aux Value.null
  | first :: others =>
    if others.all (· == first) then .ok first else .error (.auxiliaryDiffers c.typeName)

/-! ## Two candidates -/

/-- One element of a selection between two. -/
def blend (bit x y : Signal) : Wiring Signal := do
  let difference ← x.sub y
  let scaled ← bit.mul difference
  y.add scaled

/-- The first value if the bit is one, the second if it is zero. -/
def select (c : Codec) (condition : Bit) (yes no : Value) : Circuit Value := do
  let xs ← c.toFields yes
  let ys ← c.toFields no
  if condition.isConstant then
    return if ← condition.value then yes else no
  else
    let fields ← (xs.zip ys).mapM fun (x, y) =>
      (blend condition.signal x y : Circuit Signal)
    let aux ← c.sharedAuxiliary [yes, no]
    c.ofFieldsWithAux fields aux

/-! ## Any number of candidates -/

/-- How many bits are set. -/
def countSet (mask : List Bit) : Except Error Nat := do
  return (← mask.mapM Bit.value).count true

/-- Checks that at most one bit is set. -/
def atMostOne (mask : List Bit) : Except Error Unit := do
  let count ← countSet mask
  if 1 < count then throw (.selectorBits count)

/-- Adds one element of a candidate, weighted with its bit, to a sum. -/
def addWeighted (bit : Bit) (sum element : Signal) : Wiring Signal := do
  let term ← if bit = Bit.ofBool true then pure element else element.mul bit.signal
  sum.add term

/-- Adds a candidate, weighted with its bit, to sums; the constant false adds nothing. -/
def addCandidate (c : Codec) (sums : List Signal) (bit : Bit) (candidate : Value) :
    Circuit (List Signal) := do
  let fields ← c.toFields candidate
  if bit = Bit.ofBool false then return sums
  else (sums.zip fields).mapM fun (sum, element) =>
    (addWeighted bit sum element : Circuit Signal)

/-- The candidate whose bit is set, or zeros if none is. -/
def switch (c : Codec) (mask : List Bit) (candidates : List Value) : Circuit Value := do
  if mask.length ≠ candidates.length then
    throw (.selectorLength mask.length candidates.length)
  if mask.all Bit.isConstant then atMostOne mask
  else if haveValues (← getThe (List Run)) then atMostOne mask
  let width ← c.width ()
  let sums ← (mask.zip candidates).foldlM
    (fun sums (bit, candidate) => c.addCandidate sums bit candidate)
    (List.replicate width.fields Signal.zero)
  let aux ← c.sharedAuxiliary candidates
  c.ofFieldsWithAux sums aux

end Codec

end TypedCircuit
