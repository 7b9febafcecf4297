import TypedCircuit.Codec.Custom
import TypedCircuit.Codec.Leaf
import TypedCircuit.Codec.Record
import TypedCircuit.Codec.Sequence

/-!
# Descriptors

A descriptor is the description of a type as data. Its meaning is a `Codec`, which
depends on the members that are registered for the composite types it mentions; the codec
looks them up when it is used, so one descriptor may have another codec later.

Two things are fixed when a descriptor is built, whatever is registered afterwards:

* a composite keeps whether its members could be written as documents;
* a leaf of a shape keeps the width its type had.

## Shapes

A shape is an ad hoc nesting of arrays, objects and constants around leaves, each a type
of its own. Members of objects are visited in their stored order, which is ascending
except where `Descriptor.structural?` was asked for another order of the outermost object.

## Recursion

`Descriptor.width` and `Descriptor.codec` follow the structure of the descriptor and take
the meaning of names as an argument. The registry supplies it.

A width needs the width of every type that is mentioned outside of a shape, so a type that
mentions itself there has none. Every type has a codec all the same: the codec of a name
needs its members only when it meets a value, a document or a share, and its width only
when something is counted.
-/

namespace TypedCircuit

mutual

/-- The description of a type. -/
inductive Descriptor where
  /-- A built-in type. -/
  | leaf (type : Leaf)
  /-- An array of equal elements. -/
  | array (element : Descriptor) (length : Nat)
  /-- A tuple with a type for each position. -/
  | tuple (elements : List Descriptor)
  /-- An ad hoc shape. -/
  | structural (root : Shape)
  /-- A registered type, and whether it had documents when it was mentioned. -/
  | composite (name : String) (json : Bool)
  /-- A named type for which nothing is ever registered. -/
  | unregistered (name : String)
  /-- A type of the user without optional capabilities. -/
  | plain (inner : Descriptor)
  /-- A type of the user that claims and produces different numbers of elements. -/
  | misdeclared (claims produces : Nat)

/-- An ad hoc nesting around types. -/
inductive Shape where
  /-- A type, with the width it had when the shape was made. -/
  | leaf (type : Descriptor) (width : Width)
  /-- A shape for each position. -/
  | array (items : List Shape)
  /-- A shape for each key. -/
  | object (members : List (String × Shape))
  /-- A fixed primitive. -/
  | constant (json : Json)

end

instance : Inhabited Descriptor := ⟨.leaf .field⟩

instance : Inhabited Shape := ⟨.constant .null⟩

/-! ## Names -/

mutual

/-- Appends the name of a type. -/
def Descriptor.writeName (out : String) : Descriptor → String
  | .leaf type => out ++ type.typeName
  | .array element length => element.writeName out ++ "[" ++ toString length ++ "]"
  | .tuple elements => Descriptor.writeNames (out ++ "(") "" elements ++ ")"
  | .structural root => root.writeName out
  | .composite name _ => out ++ name
  | .unregistered name => out ++ name
  | .plain inner => inner.writeName (out ++ "Plain(") ++ ")"
  | .misdeclared _ _ => out ++ "Lying"

/-- Appends the names of types, each after a separator. -/
def Descriptor.writeNames (out separator : String) : List Descriptor → String
  | [] => out
  | d :: rest => Descriptor.writeNames (d.writeName (out ++ separator)) ", " rest

/-- Appends the name of a shape, which shows its structure. -/
def Shape.writeName (out : String) : Shape → String
  | .leaf type _ => type.writeName out
  | .array items => Shape.writeItemNames (out ++ "[") "" items ++ "]"
  | .object members => Shape.writeMemberNames (out ++ "\x7b") "" members ++ "\x7d"
  | .constant json => out ++ json.compact

/-- Appends the names of the items of a shape, each after a separator. -/
def Shape.writeItemNames (out separator : String) : List Shape → String
  | [] => out
  | s :: rest => Shape.writeItemNames (s.writeName (out ++ separator)) ", " rest

/-- Appends the names of the members of a shape, each after a separator and its key. -/
def Shape.writeMemberNames (out separator : String) : List (String × Shape) → String
  | [] => out
  | (key, s) :: rest =>
    Shape.writeMemberNames (s.writeName (out ++ separator ++ key ++ ": ")) ", " rest

end

/-- The name of a type in messages. -/
def Descriptor.typeName (d : Descriptor) : String := d.writeName ""

/-- The name of a shape in messages. -/
def Shape.typeName (s : Shape) : String := s.writeName ""

/-! ## Capabilities -/

/-- Whether a type has a hash input. -/
def Descriptor.supportsHashInput : Descriptor → Bool
  | .leaf type => type.codec.capabilities.hashInput
  | .array element _ => element.supportsHashInput
  | .tuple elements => allSupport elements
  | .structural _ | .composite _ _ | .unregistered _ => true
  | .plain _ | .misdeclared _ _ => false
where
  /-- Whether all types have a hash input. -/
  allSupport : List Descriptor → Bool
    | [] => true
    | d :: rest => d.supportsHashInput && allSupport rest

mutual

/-- Whether a type had documents when it was built. -/
def Descriptor.supportsJson : Descriptor → Bool
  | .leaf type => type.supportsJson
  | .array element _ => element.supportsJson
  | .tuple elements => Descriptor.allSupportJson elements
  | .structural root => root.supportsJson
  | .composite _ json => json
  | .unregistered _ => true
  | .plain _ | .misdeclared _ _ => false

/-- Whether all types had documents when they were built. -/
def Descriptor.allSupportJson : List Descriptor → Bool
  | [] => true
  | d :: rest => d.supportsJson && Descriptor.allSupportJson rest

/-- Whether all leaves of a shape have documents. -/
def Shape.supportsJson : Shape → Bool
  | .leaf type _ => type.supportsJson
  | .array items => Shape.itemsSupportJson items
  | .object members => Shape.membersSupportJson members
  | .constant _ => true

/-- Whether all leaves of the items of a shape have documents. -/
def Shape.itemsSupportJson : List Shape → Bool
  | [] => true
  | s :: rest => s.supportsJson && Shape.itemsSupportJson rest

/-- Whether all leaves of the members of a shape have documents. -/
def Shape.membersSupportJson : List (String × Shape) → Bool
  | [] => true
  | (_, s) :: rest => s.supportsJson && Shape.membersSupportJson rest

end

/-- Whether a type has every optional capability. -/
def Descriptor.isFull (d : Descriptor) : Bool := d.supportsHashInput && d.supportsJson

/-- The name of the kind of a type: with every optional capability, or without some. -/
def Descriptor.kindName (d : Descriptor) : String :=
  if d.isFull then "Full" else "FieldsOnly"

/-! ## Widths -/

mutual

/-- The width of a shape, by the widths its leaves had. -/
def Shape.width : Shape → Width
  | .leaf _ width => width
  | .array items => Shape.itemsWidth Width.zero items
  | .object members => Shape.membersWidth Width.zero members
  | .constant _ => Width.zero

/-- The width of items, added to a width. -/
def Shape.itemsWidth (total : Width) : List Shape → Width
  | [] => total
  | s :: rest => Shape.itemsWidth (total + s.width) rest

/-- The width of members, added to a width. -/
def Shape.membersWidth (total : Width) : List (String × Shape) → Width
  | [] => total
  | (_, s) :: rest => Shape.membersWidth (total + s.width) rest

end

mutual

/-- The width of a type, given the widths of registered types. -/
def Descriptor.width (widthOf : String → Except Error Width) :
    Descriptor → Except Error Width
  | .leaf type => .ok type.width
  | .array element length => (element.width widthOf).map (Width.times length)
  | .tuple elements => Descriptor.totalWidth widthOf Width.zero elements
  | .structural root => .ok root.width
  | .composite name _ => widthOf name
  | .unregistered _ => .ok Width.zero
  | .plain inner => inner.width widthOf
  | .misdeclared claims _ => .ok ⟨claims, 0⟩

/-- The width of types, added to a width. -/
def Descriptor.totalWidth (widthOf : String → Except Error Width) (total : Width) :
    List Descriptor → Except Error Width
  | [] => .ok total
  | d :: rest =>
    match d.width widthOf with
    | .error e => .error e
    | .ok width => Descriptor.totalWidth widthOf (total + width) rest

end

/-! ## Meaning -/

/-- The members of a composite type. -/
abbrev Members := List (String × Codec)

/-- The meaning of names. -/
structure Names where
  /-- The width of a type. -/
  width : String → Except Error Width
  /-- The members of a type, for an operation on something of the given size. -/
  members : Nat → String → Except Error Members

/-- The codec of a composite type. -/
def Names.composite (names : Names) (name : String) (json : Bool) : Codec :=
  Codec.deferred name (fun _ => names.width name) ⟨true, json⟩ fun size =>
    (names.members size name).map (Codec.composite name json)

mutual

/-- The codec of a type. -/
def Descriptor.codec (names : Names) : Descriptor → Codec
  | .leaf type => type.codec
  | .array element length =>
    Codec.array (Descriptor.array element length).typeName (element.codec names) length
  | .tuple elements =>
    Codec.tuple (Descriptor.tuple elements).typeName (Descriptor.codecs names [] elements)
  | .structural root => Codec.ofPart (root.part names) ⟨true, root.supportsJson⟩
  | .composite name json => names.composite name json
  | .unregistered name => Codec.composite name true []
  | .plain inner => Codec.plain (Descriptor.plain inner).typeName (inner.codec names)
  | .misdeclared claims produces =>
    Codec.misdeclared (Descriptor.misdeclared claims produces).typeName claims produces

/-- The codecs of types, in reverse before the ones that are done. -/
def Descriptor.codecs (names : Names) (done : List Codec) : List Descriptor → List Codec
  | [] => done.reverse
  | d :: rest => Descriptor.codecs names (d.codec names :: done) rest

/-- The part of a shape. -/
def Shape.part (names : Names) : Shape → Part
  | .leaf type width => { (type.codec names).part with width := fun _ => .ok width }
  | .array items =>
    Part.listed (Shape.array items).typeName (Shape.itemParts names [] items)
  | .object members =>
    Part.object (Shape.object members).typeName (Shape.memberParts names [] members)
  | .constant json => Part.constant (Shape.constant json).typeName json

/-- The parts of items, in reverse before the ones that are done. -/
def Shape.itemParts (names : Names) (done : List Part) : List Shape → List Part
  | [] => done.reverse
  | s :: rest => Shape.itemParts names (s.part names :: done) rest

/-- The parts of members, in reverse before the ones that are done. -/
def Shape.memberParts (names : Names) (done : List (String × Part)) :
    List (String × Shape) → List (String × Part)
  | [] => done.reverse
  | (key, s) :: rest => Shape.memberParts names ((key, s.part names) :: done) rest

end

/-! ## Building -/

namespace Descriptor

/-- Single field elements. -/
def field : Descriptor := .leaf .field

/-- Booleans. -/
def boolean : Descriptor := .leaf .boolean

/-- Unsigned integers of 32 bits. -/
def uint32 : Descriptor := .leaf .uint32

/-- Host data that never enters the circuit. -/
def opaqueHost : Descriptor := .leaf .opaqueHost

/-- A grid of rows, row after row. -/
def matrix (element : Descriptor) (rows columns : Nat) : Descriptor :=
  .array (.array element columns) rows

/--
The type of a shape. A key order replaces the order of the outermost object. It must not
name a key twice, and the set of the keys that it names has to be that of the object.
-/
def structural? (shape : Shape) (order? : Option (List String)) :
    Except Error Descriptor :=
  match order?, shape with
  | none, shape => .ok (.structural shape)
  | some order, .object members =>
    let wanted := Entries.nameSet order
    let present := Entries.names members
    if wanted.length = order.length ∧ wanted = present then
      .ok (.structural (.object (order.filterMap fun key =>
        (Entries.find? members key).map (key, ·))))
    else .error (.keyOrder order present)
  | some _, _ => .error .keyOrderWithoutObject

end Descriptor

namespace Shape

/-- A built-in type as a leaf. -/
def ofLeaf (type : Leaf) : Shape := .leaf (.leaf type) type.width

/-- Copies of a shape. -/
def replicate (count : Nat) (element : Shape) : Shape := .array (List.replicate count element)

/-- An object from members in any order; the last member of a key wins. -/
def ofMembers (members : List (String × Shape)) : Shape := .object (Entries.ofList members)

end Shape

end TypedCircuit
