import TypedCircuit.Descriptor

/-!
# Shape documents

A shape can be written as a document:

| Document | Meaning |
|----------|---------|
| `"Field"`, `"Bool"`, `"UInt32"` | a leaf |
| a sequence | a shape for each position |
| a mapping | an object |
| `$array` with `$length` | copies of one shape |
| `$const` | a constant |

The whole document is a mapping with the shape under `shape` and, if wanted, an order of
the keys of the outermost object under `order`.

A document may expand to at most `maxNodes` nodes. Copies are counted before they are
made, so that a short text cannot ask for more than that, and the whole shape is counted
at the end.

Counts are machine words. A sum that no word holds stays at the greatest word, and a
product that no word holds is no count.
-/

namespace TypedCircuit

/-! ## Counting nodes -/

/-- The greatest count, `2 ^ 64 - 1`. -/
def greatestCount : Nat := wordBound - 1

/-- The sum of two counts, or the greatest count if it is less. -/
def sumOfCounts (a b : Nat) : Nat := min (a + b) greatestCount

/-- The product of two counts, if it is a count. -/
def productOfCounts? (a b : Nat) : Option Nat :=
  if a * b ≤ greatestCount then some (a * b) else none

mutual

/-- The nodes of a shape, containers and leaves alike. -/
def Shape.nodes : Shape → Nat
  | .leaf _ _ | .constant _ => 1
  | .array items => Shape.itemsNodes 1 items
  | .object members => Shape.membersNodes 1 members

/-- The nodes of items, added to a count. -/
def Shape.itemsNodes (total : Nat) : List Shape → Nat
  | [] => total
  | s :: rest => Shape.itemsNodes (sumOfCounts total s.nodes) rest

/-- The nodes of members, added to a count. -/
def Shape.membersNodes (total : Nat) : List (String × Shape) → Nat
  | [] => total
  | (_, s) :: rest => Shape.membersNodes (sumOfCounts total s.nodes) rest

end

/-- How many nodes a document may expand to, `2 ^ 20`. -/
def maxNodes : Nat := 0x100000

/-! ## Errors -/

/-- Why a document is no shape document. -/
inductive ShapeError where
  /-- There is no shape. -/
  | missingShape
  /-- An entry of the key order is no string. -/
  | orderEntry (found : Json)
  /-- The key order is no list. -/
  | orderNotList (found : Json)
  /-- The shape has too many nodes. -/
  | tooManyNodes (nodes : Nat)
  /-- A constant has other keys beside it. -/
  | constantWithOthers
  /-- An array has no length. -/
  | lengthMissing
  /-- An array has other keys than its length beside it. -/
  | arrayWithOthers
  /-- The copies of an array have too many nodes. -/
  | lengthTooLong (length : Nat)
  /-- A document of another form. -/
  | unsupported (found : Json)
  /-- A name of no leaf. -/
  | unknownLeaf (name : String)

/-- The words for a cause. -/
def ShapeError.message : ShapeError → String
  | .missingShape => "missing top-level `shape` key"
  | .orderEntry found => "`order` entries must be strings, found " ++ found.compact
  | .orderNotList found => "`order` must be a list of keys, found " ++ found.compact
  | .tooManyNodes nodes =>
    "shape expands to " ++ toString nodes ++ " nodes, more than the limit of " ++
      toString maxNodes
  | .constantWithOthers => "`$const` cannot be combined with other keys"
  | .lengthMissing => "`$array` requires a non-negative integer `$length`"
  | .arrayWithOthers => "`$array` accepts only `$length` alongside it"
  | .lengthTooLong length =>
    "`$length` " ++ toString length ++ " expands past the limit of " ++ toString maxNodes ++
      " shape nodes"
  | .unsupported found => "unsupported shape node " ++ found.compact
  | .unknownLeaf name =>
    "unknown leaf type " ++ Text.quoted name ++ " (expected Field, Bool or UInt32)"

/-! ## Reading -/

namespace Shape

/-- The leaf of a name. -/
def ofLeafName (name : String) : Except ShapeError Shape :=
  if name = "Field" then .ok (ofLeaf .field)
  else if name = "Bool" then .ok (ofLeaf .boolean)
  else if name = "UInt32" then .ok (ofLeaf .uint32)
  else .error (.unknownLeaf name)

/-- The key of a constant. -/
def constantKey : String := "$const"

/-- The key of the shape that an array copies. -/
def arrayKey : String := "$array"

/-- The key of the length of an array. -/
def lengthKey : String := "$length"

/-- Copies of a shape, if there are not too many. -/
def copies (length : Nat) (element : Shape) : Except ShapeError Shape :=
  match productOfCounts? length element.nodes with
  | some nodes =>
    if nodes ≤ maxNodes then .ok (replicate length element)
    else .error (.lengthTooLong length)
  | none => .error (.lengthTooLong length)

/-- The shape of a mapping, given how its members are read. -/
def ofMapping (members : Entries Json)
    (readers : List (String × (Unit → Except ShapeError Shape))) : Except ShapeError Shape :=
  match members.find? constantKey with
  | some json =>
    if members.length = 1 then .ok (.constant json) else .error .constantWithOthers
  | none =>
    match Entries.find? readers arrayKey with
    | some read =>
      match (members.find? lengthKey).bind Json.nat? with
      | none => .error .lengthMissing
      | some length =>
        if members.length = 2 then do copies length (← read ())
        else .error .arrayWithOthers
    | none => do
      return .object (← readers.mapM fun (key, read) => do return (key, ← read ()))

mutual

/-- The shape of a document. -/
def ofJson : Json → Except ShapeError Shape
  | .string name => ofLeafName name
  | .array items => do return .array (← ofItems [] items)
  | .object members => ofMapping members (memberReaders members)
  | json => .error (.unsupported json)

/-- The shapes of documents, in reverse before the ones that are done. -/
def ofItems (done : List Shape) : List Json → Except ShapeError (List Shape)
  | [] => .ok done.reverse
  | json :: rest =>
    match ofJson json with
    | .error e => .error e
    | .ok s => ofItems (s :: done) rest

/-- How the members of a mapping are read. -/
def memberReaders :
    List (String × Json) → List (String × (Unit → Except ShapeError Shape))
  | [] => []
  | (key, json) :: rest => (key, fun _ => ofJson json) :: memberReaders rest

end

end Shape

/-- A shape with an order of the keys of its outermost object. -/
structure ShapeDocument where
  shape : Shape
  order? : Option (List String)

namespace ShapeDocument

/-- The key order of a document. -/
def orderOf : Option Json → Except ShapeError (Option (List String))
  | none | some .null => .ok none
  | some (.array keys) => do
    let names ← keys.mapM fun json =>
      match json.string? with
      | some name => .ok name
      | none => .error (.orderEntry json)
    return some names
  | some found => .error (.orderNotList found)

/-- Reads a shape document. -/
def parse (document : Json) : Except ShapeError ShapeDocument :=
  match document.get? "shape" with
  | none => .error .missingShape
  | some json => do
    let order? ← orderOf (document.get? "order")
    let shape ← Shape.ofJson json
    if shape.nodes ≤ maxNodes then return { shape, order? }
    else throw (.tooManyNodes shape.nodes)

/-- The type of a shape document. -/
def descriptor (d : ShapeDocument) : Except Error Descriptor :=
  Descriptor.structural? d.shape d.order?

end ShapeDocument

end TypedCircuit
