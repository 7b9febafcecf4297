import TypedCircuit.Circuit.Signal

/-!
# Values

A value is structured data over signals. Every value has one of three kinds:

* atomic — a signal, a bit, a primitive of the host that occupies no field element, or
  an opaque host value that is only passed on and equals nothing but itself;
* composite — a record, whose members have names;
* container — an array.

Two equalities are used. `==` compares wiring, so a variable equals only itself.
`Value.sameValue` compares the assigned values, and fails where one is not available;
it looks at the parts in order and stops at the first difference, so a value that is
missing behind a difference is not noticed.
-/

namespace TypedCircuit

/-- Structured data over signals. -/
inductive Value where
  /-- A field element. -/
  | signal (s : Signal)
  /-- A boolean. -/
  | bit (b : Bit)
  /-- A sequence. -/
  | array (items : List Value)
  /-- A keyed structure: an instance of a registered type, or an ad hoc object. -/
  | record (typeName? : Option String) (members : List (String × Value))
  /-- A host primitive. -/
  | primitive (json : Json)
  /-- A host value, known by its identity. -/
  | opaqueValue (identity : String)
deriving Inhabited

namespace Value

/-- A constant field element. -/
def ofElement (x : Element) : Value := .signal (.constant x)

/-- A constant boolean. -/
def ofBool (b : Bool) : Value := .bit (Bit.ofBool b)

/-- The primitive that stands for auxiliary data nobody has. -/
def null : Value := .primitive .null

/-- The declared kind of a value. -/
def kind : Value → String
  | .signal _ | .bit _ | .primitive _ | .opaqueValue _ => "Atomic"
  | .record _ _ => "Composite"
  | .array _ => "Container"

/-- The name of the form of a value. -/
def form : Value → String
  | .signal _ => "field"
  | .bit _ => "bool"
  | .array _ => "array"
  | .record _ _ => "record"
  | .primitive _ => "primitive"
  | .opaqueValue _ => "opaque"

/-- The signal of a field element. -/
def signal? : Value → Option Signal
  | .signal s => some s
  | _ => none

/-- The bit of a boolean. -/
def bit? : Value → Option Bit
  | .bit b => some b
  | _ => none

/-- The items of an array. -/
def items? : Value → Option (List Value)
  | .array items => some items
  | _ => none

/-- The type and the members of a record. -/
def record? : Value → Option (Option String × Entries Value)
  | .record typeName? members => some (typeName?, members)
  | _ => none

/-! ## Nesting -/

mutual

/-- How many values are nested in each other, at most. -/
def height : Value → Nat
  | .array items => heightOfItems items + 1
  | .record _ members => heightOfMembers members + 1
  | .signal _ | .bit _ | .primitive _ | .opaqueValue _ => 1

/-- The greatest height of items. -/
def heightOfItems : List Value → Nat
  | [] => 0
  | v :: rest => max v.height (heightOfItems rest)

/-- The greatest height of members. -/
def heightOfMembers : List (String × Value) → Nat
  | [] => 0
  | (_, v) :: rest => max v.height (heightOfMembers rest)

end

/-! ## Wiring -/

mutual

/-- Equality of wiring. -/
def beq : Value → Value → Bool
  | .signal x, .signal y => x == y
  | .bit x, .bit y => x == y
  | .array xs, .array ys => beqItems xs ys
  | .record s xs, .record t ys => s == t && beqMembers xs ys
  | .primitive x, .primitive y => x == y
  | .opaqueValue x, .opaqueValue y => x == y
  | _, _ => false

/-- Equality of sequences, element by element. -/
def beqItems : List Value → List Value → Bool
  | [], [] => true
  | x :: xs, y :: ys => beq x y && beqItems xs ys
  | _, _ => false

/-- Equality of member lists, name by name. -/
def beqMembers : List (String × Value) → List (String × Value) → Bool
  | [], [] => true
  | (k, x) :: xs, (l, y) :: ys => k == l && beq x y && beqMembers xs ys
  | _, _ => false

end

instance : BEq Value := ⟨beq⟩

/-! ## Assigned values -/

mutual

/-- Equality of the assigned values. -/
def sameValue : Value → Value → Except Error Bool
  | .signal a, .signal b => do
    let x ← a.value
    let y ← b.value
    return x == y
  | .bit a, .bit b => do
    let x ← a.value
    let y ← b.value
    return x == y
  | .array xs, .array ys =>
    if xs.length ≠ ys.length then .ok false else sameItems xs ys
  | .record s xs, .record t ys =>
    if s ≠ t ∨ xs.length ≠ ys.length then .ok false else sameMembers xs ys
  | .primitive x, .primitive y => .ok (x == y)
  | .opaqueValue x, .opaqueValue y => .ok (x == y)
  | _, _ => .ok false

/-- Equality of the assigned values of two sequences of one length. -/
def sameItems : List Value → List Value → Except Error Bool
  | x :: xs, y :: ys =>
    match sameValue x y with
    | .ok true => sameItems xs ys
    | other => other
  | _, _ => .ok true

/-- Whether every member of one record has its value in another. -/
def sameMembers : List (String × Value) → Entries Value → Except Error Bool
  | [], _ => .ok true
  | (name, x) :: xs, ys =>
    match ys.find? name with
    | none => .ok false
    | some y =>
      match sameValue x y with
      | .ok true => sameMembers xs ys
      | other => other

end

end Value

end TypedCircuit
