import TypedCircuit.Codec.Basic

/-!
# Sequences

A sequence has a part for each of its positions, and its value is an array of exactly as
many items. Every operation visits the positions in order and stops at the first failure.

Three types are sequences, and each finds the shares of its items in its own way.

* A *tuple* has a type for each position. An item takes its share from the front of what
  the items before it have left.
* An *array* has one type for all positions. The share of an item is the block at its
  index, between two multiples of the width.
* A *list* of a shape has a shape for each position, of a width that it keeps. The share
  of an item begins at the offset that the widths before it add up to, and every result
  is appended to the results so far.
-/

namespace TypedCircuit

namespace Part

/-- The widths of parts, if each of them has one. -/
def widths (parts : List Part) : Except Error (List Width) := parts.mapM (·.width ())

/-- The items of an array of the given length. -/
def expectItems (typeName : String) (count : Nat) (v : Value) : Except Error (List Value) :=
  match v.items? with
  | some items =>
    if items.length = count then .ok items
    else .error (.elements typeName count items.length)
  | none => .error (.shape typeName .array (.kind v.form))

/-! ## Tuples -/

/-- The elements of items, one part an item. -/
def flattenAll (parts : List Part) (items : List Value) : Except Error (List Signal) := do
  let chunks ← (parts.zip items).mapM fun (p, v) => p.flatten v
  return chunks.flatten

/-- The auxiliary entries of items, one part an item. -/
def auxiliaryAll (parts : List Part) (items : List Value) : List Value :=
  (parts.zip items).flatMap fun (p, v) => p.auxiliary v

/-- The items of shares, one part a share. -/
def rebuildAll (parts : List Part) (shares : List (List Signal × List Value)) :
    Except Error (List Value) :=
  (parts.zip shares).mapM fun (p, share) => p.rebuild share.1 share.2

/-- Asserts the invariants of items, one part an item. -/
def checkAll (parts : List Part) (items : List Value) : Circuit Unit :=
  (parts.zip items).forM fun (p, v) => p.check v

/-- The hash input of items, one part an item. -/
def inputAll (parts : List Part) (items : List Value) : Except Error HashInput := do
  let inputs ← (parts.zip items).mapM fun (p, v) => p.input v
  return HashInput.concat inputs

/-- The documents of items, one part an item. -/
def encodeAll (parts : List Part) (items : List Value) : Except Error (List Json) :=
  (parts.zip items).mapM fun (p, v) => p.encode v

/-- The items of documents, one part a document. -/
def decodeAll (parts : List Part) (documents : List Json) :
    Except Error (Option (List Value)) :=
  OptionT.run do
    (parts.zip documents).mapM fun (p, json) => OptionT.mk (p.decode json)

/-- The items of an array of documents, as many as there are parts. -/
def decodeItems (parts : List Part) (json : Json) : Except Error (Option Value) :=
  match json.array? with
  | some documents =>
    if documents.length = parts.length then
      (decodeAll parts documents).map fun items? => items?.map .array
    else .ok none
  | none => .ok none

/-- A position that lists the parts of its items. -/
def sequence (typeName : String) (parts : List Part) : Part where
  typeName
  width _ := (widths parts).map Width.sum
  flatten v := do flattenAll parts (← expectItems typeName parts.length v)
  auxiliary v := (v.items?.map (auxiliaryAll parts)).getD []
  rebuild fields aux := do
    return .array (← rebuildAll parts (shares (← widths parts) fields aux))
  check v := do checkAll parts (← expectItems typeName parts.length v)
  input v := do inputAll parts (← expectItems typeName parts.length v)
  encode v := do return .array (← encodeAll parts (← expectItems typeName parts.length v))
  decode := decodeItems parts

/-! ## Arrays -/

/-- What stands from one position of a sequence up to another one. -/
def slice {α : Type} (xs : Array α) (start stop : Nat) : List α := (xs.extract start stop).toList

/-- The items of an array. The item at an index is made of the block of elements and the
block of auxiliary entries at that index. -/
def rebuildBlocks (p : Part) (width : Width) (count : Nat) (fields : List Signal)
    (aux : List Value) : Except Error (List Value) :=
  let fields := fields.toArray
  let aux := aux.toArray
  (List.range count).mapM fun i =>
    p.rebuild (slice fields (i * width.fields) ((i + 1) * width.fields))
      (slice aux (i * width.aux) ((i + 1) * width.aux))

/-- A position that holds `count` items of one part. -/
def replicated (typeName : String) (p : Part) (count : Nat) : Part where
  typeName
  width _ := (p.width ()).map (Width.times count)
  flatten v := do
    let chunks ← (← expectItems typeName count v).mapM p.flatten
    return chunks.flatten
  auxiliary v := (v.items?.map fun items => items.flatMap p.auxiliary).getD []
  rebuild fields aux := do
    return .array (← rebuildBlocks p (← p.width ()) count fields aux)
  check v := do (← expectItems typeName count v).forM p.check
  input v := do
    let inputs ← (← expectItems typeName count v).mapM p.input
    return HashInput.concat inputs
  encode v := do return .array (← (← expectItems typeName count v).mapM p.encode)
  decode json :=
    match json.array? with
    | some documents =>
      if documents.length = count then
        (OptionT.run (documents.mapM fun json => OptionT.mk (p.decode json))).map fun items? =>
          items?.map .array
      else .ok none
    | none => .ok none

/-! ## Lists of shapes -/

/-- Appends the elements of items. -/
def flattenOnto (out : Array Signal) : List (Part × Value) → Except Error (Array Signal)
  | [] => .ok out
  | (p, v) :: rest => do flattenOnto (out ++ (← p.flatten v)) rest

/-- Appends the auxiliary entries of items. -/
def auxiliaryOnto (out : Array Value) : List (Part × Value) → Array Value
  | [] => out
  | (p, v) :: rest => auxiliaryOnto (out ++ p.auxiliary v) rest

/-- Appends the items whose shares begin at an offset. -/
def rebuildOnto (fields : Array Signal) (aux : Array Value) (offset : Width)
    (out : Array Value) : List (Part × Width) → Except Error (Array Value)
  | [] => .ok out
  | (p, width) :: rest => do
    let next := offset + width
    let item ← p.rebuild (slice fields offset.fields next.fields)
      (slice aux offset.aux next.aux)
    rebuildOnto fields aux next (out.push item) rest

/-- Appends the hash inputs of items. -/
def inputOnto (out : HashInput) : List (Part × Value) → Except Error HashInput
  | [] => .ok out
  | (p, v) :: rest => do inputOnto (out.append (← p.input v)) rest

/-- Appends the documents of items. -/
def encodeOnto (out : Array Json) : List (Part × Value) → Except Error (Array Json)
  | [] => .ok out
  | (p, v) :: rest => do encodeOnto (out.push (← p.encode v)) rest

/-- Appends the items of documents, up to the first that has another form. -/
def decodeOnto (out : Array Value) : List (Part × Json) → Except Error (Option (Array Value))
  | [] => .ok (some out)
  | (p, json) :: rest => do
    match ← p.decode json with
    | some item => decodeOnto (out.push item) rest
    | none => return none

/-- A position of a shape that lists the shapes of its items. -/
def listed (typeName : String) (parts : List Part) : Part where
  typeName
  width _ := (widths parts).map Width.sum
  flatten v := do
    let items ← expectItems typeName parts.length v
    return (← flattenOnto #[] (parts.zip items)).toList
  auxiliary v :=
    match v.items? with
    | some items => (auxiliaryOnto #[] (parts.zip items)).toList
    | none => []
  rebuild fields aux := do
    let parts := parts.zip (← widths parts)
    return .array (← rebuildOnto fields.toArray aux.toArray Width.zero #[] parts).toList
  check v := do
    (parts.zip (← expectItems typeName parts.length v)).forM fun (p, item) => p.check item
  input v := do inputOnto .empty (parts.zip (← expectItems typeName parts.length v))
  encode v := do
    let items ← expectItems typeName parts.length v
    return .array (← encodeOnto #[] (parts.zip items)).toList
  decode json :=
    match json.array? with
    | some documents =>
      if documents.length = parts.length then
        (decodeOnto #[] (parts.zip documents)).map fun items? =>
          items?.map fun items => .array items.toList
      else .ok none
    | none => .ok none

end Part

namespace Codec

/-- Arrays of `length` values of one type. -/
def array (typeName : String) (element : Codec) (length : Nat) : Codec :=
  ofPart (Part.replicated typeName element.part length) element.capabilities

/-- Tuples with a type for each position. -/
def tuple (typeName : String) (elements : List Codec) : Codec :=
  ofPart (Part.sequence typeName (elements.map part))
    ⟨elements.all (·.capabilities.hashInput), elements.all (·.capabilities.json)⟩

end Codec

end TypedCircuit
