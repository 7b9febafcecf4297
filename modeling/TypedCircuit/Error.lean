import TypedCircuit.Gate
import TypedCircuit.Json.Printer

/-!
# Errors

An error names its cause with the data of the case; `message` is the only place that
gives it words. Every error ends the construction that raised it, and none is retried.
A document that does not match a type is no error: decoding answers with nothing.
-/

namespace TypedCircuit

/-- An optional ability of a type. -/
inductive Capability where
  /-- A canonical encoding for hashing. -/
  | hashInput
  /-- Encoding as a document and decoding. -/
  | json
deriving DecidableEq

/-- The words for a capability. -/
def Capability.text : Capability → String
  | .hashInput => "hash input"
  | .json => "json"

/-- What was counted when a count was wrong. -/
inductive Counted where
  /-- The elements of a type. -/
  | elements (typeName : String)
  /-- The auxiliary entries of a type. -/
  | auxiliary (typeName : String)
  /-- The arguments of an entry point or their elements. -/
  | arguments
deriving DecidableEq

/-- The words for what was counted. -/
def Counted.text : Counted → String
  | .elements typeName => typeName
  | .auxiliary typeName => typeName ++ " auxiliary data"
  | .arguments => "entry-point arguments"

/-- What a type expected of a value. -/
inductive Expected where
  | fieldElement
  | boolean
  | opaqueValue
  | array
  | record
  | recordOfType
  | everyMember
  | everyKey
  | declaredConstant
  | primitive
deriving DecidableEq

/-- The words for an expectation. -/
def Expected.text : Expected → String
  | .fieldElement => "a field element"
  | .boolean => "a boolean"
  | .opaqueValue => "an opaque value"
  | .array => "an array"
  | .record => "a record"
  | .recordOfType => "a record of this type"
  | .everyMember => "every registered member"
  | .everyKey => "every shape key"
  | .declaredConstant => "the declared constant"
  | .primitive => "a primitive"

/-- What a type found instead. -/
inductive Found where
  /-- A value of another kind. -/
  | kind (name : String)
  /-- A record of another type. -/
  | typeName (name : String)
  /-- A record without this member. -/
  | absent (name : String)
  /-- Another primitive. -/
  | json (value : Json)

/-- The longest description of a finding that is shown whole. -/
def Found.longest : Nat := 64

/-- The words for a finding; a long description is cut and ends in three dots. -/
def Found.text (found : Found) : String :=
  let whole := match found with
    | .kind name => Text.quoted name
    | .typeName name => Text.quoted name
    | .absent name => Text.quoted ("no " ++ name)
    | .json value => value.described
  if whole.length > Found.longest then Text.firstChars (Found.longest - 3) whole ++ "..."
  else whole

/-- The cause of a failure. -/
inductive Error where
  /-- A value was read that a compile pass does not have. -/
  | valueUnavailable
  /-- Two known values that were asserted equal differ. -/
  | unequal (x y : Element)
  /-- A known value that was asserted to fit does not. -/
  | outOfRange (x : Element) (bits : Nat)
  /-- A known value that has to be zero or one is neither. -/
  | notBoolean (x : Element)
  /-- A recorded gate does not hold for the values of its run. -/
  | unsatisfied (index : Nat) (gate : Gate)
  /-- A computation produced a number of elements that was not declared. -/
  | witnessCount (expected actual : Nat)
  /-- A literal is no decimal word. -/
  | malformedLiteral (text : String)
  /-- A literal is not below the modulus. -/
  | nonCanonicalLiteral (text : String)
  /-- A count differs from the count of a type. -/
  | arity (counted : Counted) (expected actual : Nat)
  /-- A type lacks a capability. -/
  | missingCapability (typeName : String) (capability : Capability)
  /-- More than one bit of a selector is set. -/
  | selectorBits (count : Nat)
  /-- The candidates of a selection differ in what a circuit cannot select. -/
  | auxiliaryDiffers (typeName : String)
  /-- A selector and its candidates differ in number. -/
  | selectorLength (mask candidates : Nat)
  /-- A value does not have the shape of its type. -/
  | shape (typeName : String) (expected : Expected) (found : Found)
  /-- A member is registered already. -/
  | duplicateMember (typeName field : String)
  /-- A key order is not an order of the keys of its object. -/
  | keyOrder (given present : List String)
  /-- A key order stands at a shape that is no object. -/
  | keyOrderWithoutObject
  /-- A computation of the caller failed. -/
  | computationFailed (message : String)
  /-- A type has itself as a part: it has no width, or an operation on it has no end. -/
  | recursiveType (name : String)
  /-- An operand is not what the operation takes. -/
  | operand (expected : String)

namespace Error

/-- A list of quoted texts between two brackets. -/
private def quotedList (opening closing : String) (texts : List String) : String :=
  opening ++ Text.commaSeparated (texts.map Text.quoted) ++ closing

/-- The words for a cause. -/
def message : Error → String
  | .valueUnavailable =>
    "variable value is not available while compiling a constraint system"
  | .unequal x y => "assertion failed: " ++ x.text ++ " != " ++ y.text
  | .outOfRange x bits =>
    "assertion failed: " ++ x.text ++ " does not fit in " ++ toString bits ++ " bits"
  | .notBoolean x => "expected a boolean field element, found " ++ x.text
  | .unsatisfied index gate =>
    "constraint " ++ toString index ++ " is not satisfied: " ++ gate.described
  | .witnessCount expected actual =>
    "witness produced " ++ toString actual ++ " field elements, expected " ++ toString expected
  | .malformedLiteral text => "invalid field literal: " ++ Text.quoted text
  | .nonCanonicalLiteral text => "field literal " ++ text ++ " is not a canonical element"
  | .arity counted expected actual =>
    counted.text ++ ": expected " ++ toString expected ++ " elements, got " ++ toString actual
  | .missingCapability typeName capability =>
    typeName ++ " does not support " ++ capability.text
  | .selectorBits count =>
    "invariant violated: switch selector has " ++ toString count ++
      " bits set, expected at most one"
  | .auxiliaryDiffers typeName =>
    "invariant violated: " ++ typeName ++ ": candidates carry different auxiliary data"
  | .selectorLength mask candidates =>
    "selector has " ++ toString mask ++ " entries but " ++ toString candidates ++
      " candidates were supplied"
  | .shape typeName expected found =>
    typeName ++ ": expected " ++ expected.text ++ ", found " ++ found.text
  | .duplicateMember typeName field =>
    "field " ++ Text.quoted field ++ " is already registered on " ++ typeName
  | .keyOrder given present =>
    "invalid shape: custom key order " ++ quotedList "[" "]" given ++
      " does not match object keys " ++ quotedList "\x7b" "\x7d" present
  | .keyOrderWithoutObject => "invalid shape: custom key order requires an object shape"
  | .computationFailed message => "witness computation failed: " ++ message
  | .recursiveType name => "type " ++ name ++ " contains itself"
  | .operand expected => "operand is not " ++ expected

/-- A count of elements differs from that of a type. -/
def elements (typeName : String) (expected actual : Nat) : Error :=
  .arity (.elements typeName) expected actual

/-- A count of auxiliary entries differs from that of a type. -/
def auxiliary (typeName : String) (expected actual : Nat) : Error :=
  .arity (.auxiliary typeName) expected actual

end Error

end TypedCircuit
