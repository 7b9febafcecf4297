import TypedCircuit.Command.Basic
import TypedCircuit.Registry

/-!
# Flattening a value

Decodes a value document against a shape and prints its elements, on request with the
elements that are hashed. On request the flattening is read back and compared with the
value it came from.
-/

namespace TypedCircuit.Command

/-- The values of signals as decimal strings. -/
def decimals (signals : List Signal) : Except Error Json := do
  return .array (← signals.mapM Codec.decimalJson)

/-- Whether a value comes back from its flattening, with the same flattening. -/
def roundTrips (c : Codec) (v : Value) (fields : List Signal) : Except Error Bool := do
  let rebuilt ← c.ofFieldsWithAux fields (c.auxiliary v)
  if ← rebuilt.sameValue v then return (← c.toFields rebuilt) == fields
  else return false

/-- The elements that are hashed, outside every run. -/
def hashedElements (h : HashInput) : List Signal := (h.pack.run []).1

/-- Prints the flattening of a value. -/
def flatten (shape value : File) (hashInput verify : Bool) : Command Nat := do
  let type ← descriptor (← shapeDocument shape)
  let c := Registry.empty.codec type
  let json ← document value
  match ← whileDoing "shape has no JSON encoding" (c.fromJson json) with
  | none =>
    printLine ("FAIL: value does not match shape " ++ c.typeName)
    return 1
  | some v =>
    let fields ← whileDoing "failed to flatten value" (c.toFields v)
    let shown ← require (decimals fields)
    let hashed ←
      if hashInput then
        let h ← whileDoing "failed to encode hash input" (c.toInput v)
        pure [("hash_input", ← require (decimals (hashedElements h)))]
      else pure []
    printJson (.ofMembers (("fields", shown) :: hashed))
    if !verify then return 0
    else if ← require (roundTrips c v fields) then return 0
    else
      printLine "FAIL: flattening does not round-trip"
      return 1

end TypedCircuit.Command
