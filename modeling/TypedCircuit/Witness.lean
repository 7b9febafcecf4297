import TypedCircuit.Session

/-!
# Witnesses

A witness is a value computed by the caller that enters a circuit as private inputs: as
many variables as its type has elements, with the invariants of the type asserted on
them. The circuit holds nothing of the computation, so a compile pass does not run it and
puts nulls in place of the auxiliary data it would have returned. Outside every run a
witness is just its computation.

A memoized witness takes the next slot of the innermost memoization context. It runs its
computation only if the slot is empty, and yields the pinned value otherwise; the slot
belongs to the call from the moment it is reserved, so memoized witnesses inside the
computation take the slots after it.

The type is looked up anew whenever it is used, because a computation may register
members.
-/

namespace TypedCircuit.Construction

variable {host α : Type}

/-- The elements of a computation, once their number is as declared. -/
def counted (size : Nat) (compute : Construction host (List Element × α)) :
    Construction host (List Element × α) := do
  let (values, a) ← compute
  if values.length = size then return (values, a)
  else throw (.witnessCount size values.length)

/-- Allocates private inputs in the innermost run. -/
def allocateInputs (values : List (Option Element)) : Wiring (List Signal) :=
  modifyGet fun
    | [] => ([], [])
    | run :: outer =>
      let (signals, run) := run.introduce values
      (signals, run :: outer)

/--
Introduces private inputs. The computation runs where variables have values; what it
returns beside the elements is returned as well, if it ran. Outside every run its
elements become constants.
-/
def introduce (size : Nat) (compute : Construction host (List Element × α)) :
    Construction host (List Signal × Option α) := do
  match ← mode? with
  | none =>
    let (values, a) ← counted size compute
    return (values.map .constant, some a)
  | some .compile =>
    let signals ← (allocateInputs (List.replicate size none) : Circuit (List Signal))
    return (signals, none)
  | some .prove =>
    let (values, a) ← counted size compute
    let signals ← (allocateInputs (values.map some) : Circuit (List Signal))
    return (signals, some a)

/-- The elements of a value of a type and their values. -/
def elementsOf (d : Descriptor) (v : Value) : Construction host (List Element) := do
  let fields ← (← codecOf d).toFields v
  fields.mapM fun s => s.value

/-- Brings a computed value into the circuit. -/
def witness (d : Descriptor) (compute : Construction host Value) :
    Construction host Value := do
  if !(← isChecked) then compute
  else
    let width ← (← codecOf d).width ()
    let (fields, aux?) ← introduce width.fields do
      let v ← compute
      let aux := (← codecOf d).auxiliary v
      return (← elementsOf d v, aux)
    let c ← codecOf d
    let width ← c.width ()
    let v ← c.ofFieldsWithAux fields (aux?.getD (List.replicate width.aux Value.null))
    c.check v
    return v

/-- Runs a computation and pins its value to a slot. -/
def pin (d : Descriptor) (index : Nat) (compute : Construction host Value) :
    Construction host Slot := do
  let v ← compute
  let fields ← elementsOf d v
  let slot : Slot := ⟨fields, (← codecOf d).auxiliary v⟩
  let _ ← updateContext fun ctx => ((), ctx.fill index slot)
  return slot

/-- The value of a slot as constants, if its elements are as many as the type has. -/
def replay (d : Descriptor) (slot : Slot) : Construction host Value := do
  let c ← codecOf d
  let width ← c.width ()
  if slot.fields.length = width.fields then
    c.ofFieldsWithAux (slot.fields.map .constant) slot.aux
  else throw (.elements c.typeName width.fields slot.fields.length)

/-- The value of the next slot of the innermost context, computed if the slot is empty. -/
def pinned (d : Descriptor) (compute : Construction host Value) :
    Construction host Value := do
  match ← updateContext MemoContext.reserve with
  | none => compute
  | some (_, some slot) => replay d slot
  | some (index, none) => replay d (← pin d index compute)

/-- Brings a computed value into the circuit, pinned to the next slot of the innermost
context; without a context this is `witness`. -/
def memoizedWitness (d : Descriptor) (compute : Construction host Value) :
    Construction host Value := do
  if ← isMemoized then witness d (pinned d compute) else witness d compute

/-- The blinding value of the innermost context, drawn when it is first asked for;
without a context every call draws. -/
def blindingElement : Construction host Element := do
  match ← updateContext fun ctx => (ctx.blinding?, ctx) with
  | some (some x) => return x
  | some none =>
    let x ← drawElement
    let _ ← updateContext fun ctx => ((), { ctx with blinding? := some x })
    return x
  | none => drawElement

/-- The blinding value as a witness. -/
def blindingValue : Construction host Signal := do
  let v ← witness .field (return .ofElement (← blindingElement))
  Codec.expectSignal "Field" v

end TypedCircuit.Construction
