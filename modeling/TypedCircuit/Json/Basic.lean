import TypedCircuit.Binary64.Basic
import TypedCircuit.Entries

/-!
# JSON values

Documents, constants of a shape and host primitives are JSON values. A value tells
integers from other numbers: a literal without fraction and exponent that fits 64 bits
is an integer, every other number is a binary64 number, and an integer never equals a
number of the other kind. The members of an object are entries in ascending order of
their keys, each key once.

Equality of values is `==`. It identifies the two zeros among the binary64 numbers and
is otherwise equality of forms.
-/

namespace TypedCircuit

/-- A number of a document. -/
inductive JsonNumber where
  /-- An integer of at most 64 bits, with or without a sign. -/
  | integer (value : Int)
  /-- Any other number. -/
  | float (value : Binary64)
deriving Inhabited

namespace JsonNumber

/-- Equality of numbers; the kinds are disjoint. -/
def beq : JsonNumber → JsonNumber → Bool
  | .integer x, .integer y => x == y
  | .float x, .float y => x.sameValue y
  | _, _ => false

instance : BEq JsonNumber := ⟨beq⟩

end JsonNumber

/-- A JSON value. -/
inductive Json where
  | null
  | bool (value : Bool)
  | number (value : JsonNumber)
  | string (value : String)
  | array (items : List Json)
  | object (members : List (String × Json))
deriving Inhabited

namespace Json

mutual

/-- Equality of values. -/
def beq : Json → Json → Bool
  | .null, .null => true
  | .bool x, .bool y => x == y
  | .number x, .number y => x == y
  | .string x, .string y => x == y
  | .array xs, .array ys => beqItems xs ys
  | .object xs, .object ys => beqMembers xs ys
  | _, _ => false

/-- Equality of sequences, element by element. -/
def beqItems : List Json → List Json → Bool
  | [], [] => true
  | x :: xs, y :: ys => beq x y && beqItems xs ys
  | _, _ => false

/-- Equality of member lists, key by key. -/
def beqMembers : List (String × Json) → List (String × Json) → Bool
  | [], [] => true
  | (k, x) :: xs, (l, y) :: ys => k == l && beq x y && beqMembers xs ys
  | _, _ => false

end

instance : BEq Json := ⟨beq⟩

mutual

/-- How many values are nested in each other, at most. -/
def height : Json → Nat
  | .array items => heightOfItems items + 1
  | .object members => heightOfMembers members + 1
  | .null | .bool _ | .number _ | .string _ => 1

/-- The greatest height of items. -/
def heightOfItems : List Json → Nat
  | [] => 0
  | json :: rest => max json.height (heightOfItems rest)

/-- The greatest height of members. -/
def heightOfMembers : List (String × Json) → Nat
  | [] => 0
  | (_, json) :: rest => max json.height (heightOfMembers rest)

end

/-- The integer `n`. -/
def nat (n : Nat) : Json := .number (.integer n)

/-- An object from members in any order; the last member of a key wins. -/
def ofMembers (members : List (String × Json)) : Json := .object (Entries.ofList members)

/-- The member of an object under a key. -/
def get? : Json → String → Option Json
  | .object members, key => Entries.find? members key
  | _, _ => none

/-- The integer, if it is one and not negative. -/
def nat? : Json → Option Nat
  | .number (.integer value) => if value < 0 then none else some value.toNat
  | _ => none

/-- The text of a string. -/
def string? : Json → Option String
  | .string value => some value
  | _ => none

/-- The truth value of a boolean. -/
def bool? : Json → Option Bool
  | .bool value => some value
  | _ => none

/-- The items of an array. -/
def array? : Json → Option (List Json)
  | .array items => some items
  | _ => none

/-- The members of an object. -/
def object? : Json → Option (Entries Json)
  | .object members => some members
  | _ => none

end Json

end TypedCircuit
