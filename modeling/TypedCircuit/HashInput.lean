import TypedCircuit.Circuit.Arithmetic

/-!
# Hash inputs

The encoding of a value for hashing is not its flattening: small values are listed apart
with their lengths in bits, so that several of them share one field element. `pack` turns
the encoding into the elements that are hashed: first the whole ones, then the small
values in groups of at most `packedCapacity` bits, earlier values in the higher bits.

A group is closed when the next value would take it past the capacity. An empty group
takes a value of any length.
-/

namespace TypedCircuit

/-- How many bits of small values share one field element. -/
def packedCapacity : Nat := 63

/-- Whole elements and small values with their lengths in bits. -/
structure HashInput where
  fields : List Signal
  packed : List (Signal × Nat)
deriving DecidableEq

namespace HashInput

/-- The input with nothing in it. -/
def empty : HashInput := ⟨[], []⟩

/-- An input of whole elements. -/
def ofFields (fields : List Signal) : HashInput := ⟨fields, []⟩

/-- An input of one small value. -/
def ofPacked (s : Signal) (bits : Nat) : HashInput := ⟨[], [(s, bits)]⟩

/-- Both inputs, the parts of each kind in order. -/
def append (a b : HashInput) : HashInput := ⟨a.fields ++ b.fields, a.packed ++ b.packed⟩

/-- The concatenation of inputs. -/
def concat (inputs : List HashInput) : HashInput :=
  ⟨inputs.flatMap HashInput.fields, inputs.flatMap HashInput.packed⟩

/-- A group that is being filled: its element and how many bits it holds. -/
structure Group where
  element : Signal
  bits : Nat

/-- The group that holds nothing. -/
def Group.empty : Group := ⟨.zero, 0⟩

/-- Shifts a value of the given length into a group from below. -/
def Group.shiftIn (group : Group) (s : Signal) (bits : Nat) : Wiring Group := do
  let shifted ← group.element.mul (.constant (Element.twoPow bits))
  return ⟨← shifted.add s, group.bits + bits⟩

/-- Adds one small value to the elements that are complete and the open group. -/
def packStep (done : List Signal) (group : Group) (s : Signal) (bits : Nat) :
    Wiring (List Signal × Group) := do
  if 0 < group.bits ∧ packedCapacity < group.bits + bits then
    return (done ++ [group.element], ← Group.empty.shiftIn s bits)
  else
    return (done, ← group.shiftIn s bits)

/-- Packs small values onto complete elements and an open group. -/
def packFrom (done : List Signal) (group : Group) :
    List (Signal × Nat) → Wiring (List Signal)
  | [] => return if 0 < group.bits then done ++ [group.element] else done
  | (s, bits) :: rest => do
    let (done, group) ← packStep done group s bits
    packFrom done group rest

/-- The elements that are hashed. -/
def pack (input : HashInput) : Wiring (List Signal) :=
  packFrom input.fields Group.empty input.packed

end HashInput

end TypedCircuit
