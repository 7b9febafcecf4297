import TypedCircuit.Codec.Basic

/-!
# Types of the user

A type need not be built from the built-in ones. Two such types show what the counts and
the capabilities of a codec protect: `plain` offers nothing beyond elements and auxiliary
data, and `misdeclared` does not produce the number of elements it claims.
-/

namespace TypedCircuit.Codec

/-- A type with the values of another one and without its optional capabilities. -/
def plain (typeName : String) (inner : Codec) : Codec where
  typeName
  width := inner.width
  capabilities := ⟨false, false⟩
  flatten := inner.toFields
  auxiliary := inner.auxiliary
  rebuild := inner.ofFieldsWithAux
  ofFields := inner.ofFields
  check := inner.check
  input _ := .error (.missingCapability typeName .hashInput)
  encode _ := .error (.missingCapability typeName .json)
  decode _ := .error (.missingCapability typeName .json)

/-- A type that claims a number of elements and produces another number of zeros. -/
def misdeclared (typeName : String) (claims produces : Nat) : Codec where
  typeName
  width _ := .ok ⟨claims, 0⟩
  capabilities := ⟨false, false⟩
  flatten _ := .ok (List.replicate produces .zero)
  auxiliary _ := []
  rebuild _ _ := .ok (.array [])
  ofFields _ := .ok (.array [])
  check _ := pure ()
  input _ := .error (.missingCapability typeName .hashInput)
  encode _ := .error (.missingCapability typeName .json)
  decode _ := .error (.missingCapability typeName .json)

end TypedCircuit.Codec
