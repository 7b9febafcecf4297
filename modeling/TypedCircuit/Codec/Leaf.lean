import TypedCircuit.Codec.Basic

/-!
# The built-in types

| Type | Value | Check | Hash input | Document |
|------|-------|-------|------------|----------|
| `Field` | signal | none | one whole element | decimal string |
| `Bool` | bit | zero or one | one bit | boolean |
| `UInt32` | signal | below `2 ^ 32` | 32 bits | decimal string |
| `Opaque` | opaque value or null | none | empty | none |

The first three take one element each. An opaque value takes none; it travels as one
auxiliary entry. Compile passes know no auxiliary data and put nulls in its place, so
the type accepts a null as well.

Where a decimal string is read, an integer of a document is read too.
-/

namespace TypedCircuit

namespace Codec

/-- A value has another form than the type expects. -/
def otherForm (typeName : String) (expected : Expected) (v : Value) : Error :=
  .shape typeName expected (.kind v.form)

/-- The signal of a value of a type of field elements. -/
def expectSignal (typeName : String) (v : Value) : Except Error Signal :=
  match v.signal? with
  | some s => .ok s
  | none => .error (otherForm typeName .fieldElement v)

/-- The bit of a value of the boolean type. -/
def expectBit (v : Value) : Except Error Bit :=
  match v.bit? with
  | some b => .ok b
  | none => .error (otherForm "Bool" .boolean v)

/-- The element of a sequence of one. -/
def single (typeName : String) : List Signal → Except Error Signal
  | [s] => .ok s
  | fields => .error (.elements typeName 1 fields.length)

/-- The element written in a document as a decimal string or an integer. -/
def decimal? : Json → Option Element
  | .string text => (Element.parse text).toOption
  | json => json.nat?.bind fun n => if h : n < modulus then some ⟨n, h⟩ else none

/-- The decimal string of a signal's value. -/
def decimalJson (s : Signal) : Except Error Json :=
  s.value.map fun x => .string x.text

/-- Every optional capability. -/
def allCapabilities : Capabilities := ⟨true, true⟩

/-- Single field elements. -/
def field : Codec where
  typeName := "Field"
  width _ := .ok ⟨1, 0⟩
  capabilities := allCapabilities
  flatten v := (expectSignal "Field" v).map ([·])
  auxiliary _ := []
  rebuild fields _ := (single "Field" fields).map .signal
  ofFields fields := (single "Field" fields).map .signal
  check _ := pure ()
  input v := (expectSignal "Field" v).map fun s => .ofFields [s]
  encode v := expectSignal "Field" v >>= decimalJson
  decode json := .ok ((decimal? json).map .ofElement)

/-- Booleans. -/
def boolean : Codec where
  typeName := "Bool"
  width _ := .ok ⟨1, 0⟩
  capabilities := allCapabilities
  flatten v := (expectBit v).map ([·.signal])
  auxiliary _ := []
  rebuild fields _ := (single "Bool" fields).map fun s => .bit ⟨s⟩
  ofFields fields := (single "Bool" fields).map fun s => .bit ⟨s⟩
  check v := do (← expectBit v).signal.assertBoolean
  input v := (expectBit v).map fun b => .ofPacked b.signal 1
  encode v := do return .bool (← (← expectBit v).value)
  decode json := .ok (json.bool?.map .ofBool)

/-- Unsigned integers of 32 bits. -/
def uint32 : Codec where
  typeName := "UInt32"
  width _ := .ok ⟨1, 0⟩
  capabilities := allCapabilities
  flatten v := (expectSignal "UInt32" v).map ([·])
  auxiliary _ := []
  rebuild fields _ := (single "UInt32" fields).map .signal
  ofFields fields := (single "UInt32" fields).map .signal
  check v := do (← expectSignal "UInt32" v).assertRange 32
  input v := (expectSignal "UInt32" v).map fun s => .ofPacked s 32
  encode v := expectSignal "UInt32" v >>= decimalJson
  decode json := .ok (((decimal? json).filter (·.fits 32)).map .ofElement)

/-- Whether a value may stand for host data. -/
def expectOpaque (v : Value) : Except Error Unit :=
  match v with
  | .opaqueValue _ | .primitive .null => .ok ()
  | v => .error (otherForm "Opaque" .opaqueValue v)

/-- The host value of no elements and one auxiliary entry. -/
def rebuildOpaque (fields : List Signal) (aux : List Value) : Except Error Value :=
  if fields.isEmpty then
    match aux with
    | [v] => .ok v
    | _ => .error (.auxiliary "Opaque" 1 aux.length)
  else .error (.elements "Opaque" 0 fields.length)

/-- Host data that never enters the circuit. -/
def opaqueHost : Codec where
  typeName := "Opaque"
  width _ := .ok ⟨0, 1⟩
  capabilities := ⟨true, false⟩
  flatten v := (expectOpaque v).map fun _ => []
  auxiliary v := [v]
  rebuild := rebuildOpaque
  ofFields fields := rebuildOpaque fields []
  check v := expectOpaque v
  input v := (expectOpaque v).map fun _ => .empty
  encode _ := .error (.missingCapability "Opaque" .json)
  decode _ := .error (.missingCapability "Opaque" .json)

end Codec

/-- The built-in types. -/
inductive Leaf where
  | field
  | boolean
  | uint32
  | opaqueHost
deriving DecidableEq

namespace Leaf

/-- The encoding of a built-in type. -/
def codec : Leaf → Codec
  | .field => Codec.field
  | .boolean => Codec.boolean
  | .uint32 => Codec.uint32
  | .opaqueHost => Codec.opaqueHost

/-- The width of a built-in type. -/
def width : Leaf → Width
  | .field | .boolean | .uint32 => ⟨1, 0⟩
  | .opaqueHost => ⟨0, 1⟩

theorem codec_width (leaf : Leaf) : leaf.codec.width () = .ok leaf.width := by
  cases leaf <;> rfl

/-- The name of a built-in type. -/
def typeName (leaf : Leaf) : String := leaf.codec.typeName

/-- Whether values of the type can be written as documents. -/
def supportsJson (leaf : Leaf) : Bool := leaf.codec.capabilities.json

end Leaf

end TypedCircuit
