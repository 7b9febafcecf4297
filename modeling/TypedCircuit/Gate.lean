import TypedCircuit.Element
import TypedCircuit.Json.Basic

/-!
# Gates

A circuit is recorded as a list of gates over variables, which are numbered in the order
of their allocation. A gate either derives the value of a new variable from two wires or
constrains wires that exist already. Constants are folded into the gates that use them,
so a gate mentions nothing of the run that recorded it but indices: two runs that
perform the same operations record equal gates, whatever values they carry.

## Satisfaction

`Gate.holds?` evaluates a gate under a partial assignment. It answers `none` when a wire
the gate needs has no value, which is different from being violated; a run that has been
checked has `some true` for every gate.

## Documents

Gates and wires are written as objects: a gate carries its kind beside its fields, a
wire is one member named after what it is, and constants are decimal strings. Reading
ignores other members of a gate, and accepts a gate as a sequence of its kind and its
fields in order.
-/

namespace TypedCircuit

/-- An input of a gate. -/
inductive Wire where
  /-- A constant folded into the gate. -/
  | constant (value : Element)
  /-- The variable of an index. -/
  | variable (index : Nat)
deriving DecidableEq

/-- An operation that derives a value from two others. -/
inductive Gate.Operation where
  | add
  | sub
  | mul
  /-- One if the operands are equal, otherwise zero. -/
  | isEqual
deriving DecidableEq

/-- A recorded constraint. -/
inductive Gate where
  /-- The output variable is the result of an operation. -/
  | derived (operation : Gate.Operation) (left right : Wire) (output : Nat)
  /-- Two wires are equal. -/
  | assertEqual (left right : Wire)
  /-- A wire is zero or one. -/
  | boolean (wire : Wire)
  /-- A wire is below `2 ^ bits`. -/
  | range (wire : Wire) (bits : Nat)
deriving DecidableEq

/-! ## Satisfaction -/

/-- The result of an operation on two elements. -/
def Gate.Operation.apply : Gate.Operation → Element → Element → Element
  | .add, x, y => x + y
  | .sub, x, y => x - y
  | .mul, x, y => x * y
  | .isEqual, x, y => Element.ofBool (x = y)

/-- Whether an element is zero or one. -/
def Element.isBoolean (x : Element) : Bool := x == 0 || x == 1

/-- Whether an element is below `2 ^ bits`. Every element is below `2 ^ 64`. -/
def Element.fits (x : Element) (bits : Nat) : Bool := 64 ≤ bits || x.toNat < Nat.pow 2 bits

/-- The value of a wire under a partial assignment. -/
def Wire.value? (values : Nat → Option Element) : Wire → Option Element
  | .constant value => some value
  | .variable index => values index

/-- Whether a gate holds under a partial assignment that gives its wires values. -/
def Gate.holds? (values : Nat → Option Element) : Gate → Option Bool
  | .derived operation left right output => do
    let z ← values output
    let x ← left.value? values
    let y ← right.value? values
    return z == operation.apply x y
  | .assertEqual left right => do
    let x ← left.value? values
    let y ← right.value? values
    return x == y
  | .boolean wire => (wire.value? values).map Element.isBoolean
  | .range wire bits => (wire.value? values).map (·.fits bits)

/-! ## Messages -/

/-- The name of an operation in messages. -/
def Gate.Operation.described : Gate.Operation → String
  | .add => "Add"
  | .sub => "Sub"
  | .mul => "Mul"
  | .isEqual => "IsEqual"

/-- The text of a wire in messages. -/
def Wire.described : Wire → String
  | .constant value => "Constant(Fp(" ++ value.text ++ "))"
  | .variable index => "Variable(" ++ toString index ++ ")"

/-- The text of a gate in messages. -/
def Gate.described : Gate → String
  | .derived operation left right output =>
    operation.described ++ " \x7b left: " ++ left.described ++ ", right: " ++ right.described ++
      ", output: " ++ toString output ++ " \x7d"
  | .assertEqual left right =>
    "AssertEqual \x7b left: " ++ left.described ++ ", right: " ++ right.described ++ " \x7d"
  | .boolean wire => "Boolean \x7b wire: " ++ wire.described ++ " \x7d"
  | .range wire bits =>
    "Range \x7b wire: " ++ wire.described ++ ", bits: " ++ toString bits ++ " \x7d"

/-! ## Documents -/

/-- The kind of the gate that records an operation. -/
def Gate.Operation.kind : Gate.Operation → String
  | .add => "add"
  | .sub => "sub"
  | .mul => "mul"
  | .isEqual => "is_equal"

/-- The document of an element: its decimal text. -/
def Element.toJson (x : Element) : Json := .string x.text

/-- The element of a document: a literal in a string. -/
def Element.ofJson? : Json → Option Element
  | .string text => (Element.parse text).toOption
  | _ => none

/-- The document of a wire. -/
def Wire.toJson : Wire → Json
  | .constant value => .object [("constant", value.toJson)]
  | .variable index => .object [("variable", .nat index)]

/-- The document of a gate. -/
def Gate.toJson : Gate → Json
  | .derived operation left right output =>
    .object [("kind", .string operation.kind), ("left", left.toJson), ("output", .nat output),
      ("right", right.toJson)]
  | .assertEqual left right =>
    .object [("kind", .string "assert_equal"), ("left", left.toJson), ("right", right.toJson)]
  | .boolean wire => .object [("kind", .string "boolean"), ("wire", wire.toJson)]
  | .range wire bits =>
    .object [("bits", .nat bits), ("kind", .string "range"), ("wire", wire.toJson)]

/-- An integer of a document that is an unsigned word of the given length in bits. -/
def Json.word? (bits : Nat) (json : Json) : Option Nat :=
  json.nat?.filter (· < Nat.pow 2 bits)

/-- The index of a variable: a 64-bit word. -/
def Wire.index? (json : Json) : Option Nat := json.word? 64

/-- The wire of a document: exactly one member. -/
def Wire.ofJson? : Json → Option Wire
  | .object [("constant", value)] => (Element.ofJson? value).map .constant
  | .object [("variable", index)] => (Wire.index? index).map .variable
  | _ => none

/-- The operation recorded under a kind. -/
def Gate.Operation.ofKind? : String → Option Gate.Operation
  | "add" => some .add
  | "sub" => some .sub
  | "mul" => some .mul
  | "is_equal" => some .isEqual
  | _ => none

/-- The names of the fields of a gate, in the order of a sequence. -/
def Gate.fieldNames? (kind : String) : Option (List String) :=
  if (Gate.Operation.ofKind? kind).isSome then some ["left", "right", "output"]
  else if kind = "assert_equal" then some ["left", "right"]
  else if kind = "boolean" then some ["wire"]
  else if kind = "range" then some ["wire", "bits"]
  else none

/-- The gate of a kind whose fields are found by name. -/
def Gate.ofFields? (kind : String) (field? : String → Option Json) : Option Gate := do
  let wire? (name : String) : Option Wire := (field? name).bind Wire.ofJson?
  match Gate.Operation.ofKind? kind with
  | some operation =>
    let left ← wire? "left"
    let right ← wire? "right"
    let output ← (field? "output").bind Wire.index?
    return .derived operation left right output
  | none =>
    if kind = "assert_equal" then return .assertEqual (← wire? "left") (← wire? "right")
    else if kind = "boolean" then return .boolean (← wire? "wire")
    else if kind = "range" then
      let wire ← wire? "wire"
      let bits ← (field? "bits").bind (Json.word? 32)
      return .range wire bits
    else none

/-- The gate of a document: an object with a kind, or a sequence that starts with one. -/
def Gate.ofJson? : Json → Option Gate
  | .object members => do
    let kind ← (Entries.find? members "kind").bind Json.string?
    Gate.ofFields? kind (Entries.find? members)
  | .array (.string kind :: fields) => do
    let names ← Gate.fieldNames? kind
    if names.length = fields.length then
      Gate.ofFields? kind (Entries.find? (names.zip fields))
    else none
  | _ => none

end TypedCircuit
