import TypedCircuit.HashInput
import TypedCircuit.Value

/-!
# Codecs

A codec says how the values of a type become field elements and come back. Its width is
fixed: every value flattens to the same number of elements and carries the same number
of auxiliary entries, which are the data that no element holds.

A type may lack a width, because a registered type can be made a part of itself. Widths
are therefore asked for when something is counted, and not before. What counts elements
or auxiliary entries fails on a type without a width; everything else works on it as on
any other.

A `Codec` is what a type offers to its users, and a `Part` is what one position inside a
larger type contributes. The two differ in what they check. A codec verifies the counts
of everything it is given and everything it returns; a part relies on the enclosing type
to hand it exactly its share. `Codec.part` puts a codec at a position, and `Codec.ofPart`
makes a codec of a part by adding the checks of a type whose counts are exact.

Hashing and documents are optional. `Codec.capabilities` records what was available when
the type was described, and the operations of a missing capability fail.

## Main results

* `length_of_toFields` — flattening through a codec succeeds only with as many elements
  as it declares.
* `shares_length` — splitting a sequence among parts gives one share a part.
-/

namespace TypedCircuit

/--
How many elements and how many auxiliary entries a type takes.

These are counted without a bound. A program that counts in machine words is
`Registry.machineCodec`. By `Registry.machineCodec_eq` it does the same with a type whose sizes
fit.
-/
structure Width where
  fields : Nat
  aux : Nat
deriving DecidableEq

namespace Width

/-- The width of nothing. -/
def zero : Width := ⟨0, 0⟩

instance : Add Width := ⟨fun a b => ⟨a.fields + b.fields, a.aux + b.aux⟩⟩

/-- The width of several parts. -/
def sum (widths : List Width) : Width := widths.foldl (· + ·) zero

/-- The width of equal parts. -/
def times (count : Nat) (width : Width) : Width := ⟨count * width.fields, count * width.aux⟩

end Width

/-- Which optional capabilities a type has. -/
structure Capabilities where
  hashInput : Bool
  json : Bool
deriving DecidableEq

/-- The encoding of one position inside a larger type. -/
structure Part where
  /-- The name of the type in messages. -/
  typeName : String
  /-- The share of the position, if it has one. -/
  width : Unit → Except Error Width
  /-- The elements of a value. -/
  flatten : Value → Except Error (List Signal)
  /-- The auxiliary entries of a value. -/
  auxiliary : Value → List Value
  /-- The value of exactly this position's elements and auxiliary entries. -/
  rebuild : List Signal → List Value → Except Error Value
  /-- Asserts the invariants of the type inside the circuit. -/
  check : Value → Circuit Unit
  /-- The hash input of a value. -/
  input : Value → Except Error HashInput
  /-- The document of a value. -/
  encode : Value → Except Error Json
  /-- The value of a document, if the document has the form of the type. -/
  decode : Json → Except Error (Option Value)

/-- The encoding of the values of a type. -/
structure Codec where
  /-- The name of the type in messages. -/
  typeName : String
  /-- The declared counts, if the type has a width. -/
  width : Unit → Except Error Width
  /-- What was available when the type was described. -/
  capabilities : Capabilities
  /-- The elements of a value, not yet counted. -/
  flatten : Value → Except Error (List Signal)
  /-- The auxiliary entries of a value. -/
  auxiliary : Value → List Value
  /-- The value of elements and auxiliary entries whose number is right. -/
  rebuild : List Signal → List Value → Except Error Value
  /-- The value of elements that come without auxiliary entries. -/
  ofFields : List Signal → Except Error Value
  /-- Asserts the invariants of the type inside the circuit. -/
  check : Value → Circuit Unit
  /-- The hash input of a value of a type that has one. -/
  input : Value → Except Error HashInput
  /-- The document of a value of a type that has one. -/
  encode : Value → Except Error Json
  /-- The value of a document of a type that has one. -/
  decode : Json → Except Error (Option Value)

namespace Codec

/-- The elements of a value. Their number is verified. -/
def toFields (c : Codec) (v : Value) : Except Error (List Signal) := do
  let fields ← c.flatten v
  let width ← c.width ()
  if fields.length = width.fields then return fields
  else throw (.elements c.typeName width.fields fields.length)

/-- The value of elements and auxiliary entries. The number of auxiliary entries is
verified first. -/
def ofFieldsWithAux (c : Codec) (fields : List Signal) (aux : List Value) :
    Except Error Value := do
  let width ← c.width ()
  if aux.length = width.aux then c.rebuild fields aux
  else throw (.auxiliary c.typeName width.aux aux.length)

/-- The failure of an operation whose capability is missing. -/
def missing (c : Codec) (capability : Capability) : Error :=
  .missingCapability c.typeName capability

/-- The hash input of a value. -/
def toInput (c : Codec) (v : Value) : Except Error HashInput :=
  if c.capabilities.hashInput then c.input v else .error (c.missing .hashInput)

/-- The hash input of a value, or its elements as whole ones if the type has none. -/
def toInputOrFields (c : Codec) (v : Value) : Except Error HashInput :=
  if c.capabilities.hashInput then c.toInput v else (c.toFields v).map .ofFields

/-- The document of a value. -/
def toJson (c : Codec) (v : Value) : Except Error Json :=
  if c.capabilities.json then c.encode v else .error (c.missing .json)

/-- The value of a document, or nothing if the document has another form. -/
def fromJson (c : Codec) (json : Json) : Except Error (Option Value) :=
  if c.capabilities.json then c.decode json else .error (c.missing .json)

/-- A codec at a position. -/
def part (c : Codec) : Part where
  typeName := c.typeName
  width := c.width
  flatten := c.toFields
  auxiliary := c.auxiliary
  rebuild := c.ofFieldsWithAux
  check := c.check
  input := c.toInputOrFields
  encode := c.toJson
  decode := c.fromJson

/-- The value of a part, once both counts are exact. -/
def rebuildExactly (p : Part) (fields : List Signal) (aux : List Value) :
    Except Error Value := do
  let width ← p.width ()
  if fields.length ≠ width.fields then
    throw (.elements p.typeName width.fields fields.length)
  else if aux.length ≠ width.aux then
    throw (.auxiliary p.typeName width.aux aux.length)
  else p.rebuild fields aux

/-- The codec of a type that takes exactly its counts. -/
def ofPart (p : Part) (capabilities : Capabilities) : Codec where
  typeName := p.typeName
  width := p.width
  capabilities
  flatten := p.flatten
  auxiliary := p.auxiliary
  rebuild := rebuildExactly p
  ofFields fields := rebuildExactly p fields []
  check := p.check
  input := p.input
  encode := p.encode
  decode := p.decode

theorem length_of_toFields {c : Codec} {v : Value} {fields : List Signal}
    (h : c.toFields v = .ok fields) :
    ∃ width, c.width () = .ok width ∧ fields.length = width.fields := by
  unfold toFields at h
  cases hFlat : c.flatten v with
  | error e => simp [hFlat, bind, Except.bind] at h
  | ok out =>
      cases hWidth : c.width () with
      | error e => simp [hFlat, hWidth, bind, Except.bind] at h
      | ok width =>
          simp only [hFlat, hWidth, bind, Except.bind] at h
          split at h
          · next hLength =>
              cases h
              exact ⟨width, rfl, hLength⟩
          · cases h

end Codec

/-! ## Shares -/

/-- The shares of parts in a sequence of elements and one of auxiliary entries, put in
reverse before the shares that are done. -/
def sharesOnto (done : List (List Signal × List Value)) :
    List Width → List Signal → List Value → List (List Signal × List Value)
  | [], _, _ => done.reverse
  | w :: widths, fields, aux =>
    sharesOnto ((fields.take w.fields, aux.take w.aux) :: done) widths
      (fields.drop w.fields) (aux.drop w.aux)

/-- The shares of parts in a sequence of elements and one of auxiliary entries. -/
def shares (widths : List Width) (fields : List Signal) (aux : List Value) :
    List (List Signal × List Value) :=
  sharesOnto [] widths fields aux

theorem sharesOnto_eq (done : List (List Signal × List Value)) (widths : List Width)
    (fields : List Signal) (aux : List Value) :
    sharesOnto done widths fields aux = done.reverse ++ shares widths fields aux := by
  induction widths generalizing done fields aux with
  | nil => simp [shares, sharesOnto]
  | cons w widths ih =>
      simp only [shares, sharesOnto]
      rw [ih, ih [_]]
      simp

@[simp] theorem shares_nil (fields : List Signal) (aux : List Value) :
    shares [] fields aux = [] := rfl

@[simp] theorem shares_cons (w : Width) (widths : List Width) (fields : List Signal)
    (aux : List Value) :
    shares (w :: widths) fields aux =
      (fields.take w.fields, aux.take w.aux) ::
        shares widths (fields.drop w.fields) (aux.drop w.aux) := by
  simp [shares, sharesOnto, sharesOnto_eq [_]]

theorem shares_length (widths : List Width) (fields : List Signal) (aux : List Value) :
    (shares widths fields aux).length = widths.length := by
  induction widths generalizing fields aux with
  | nil => rfl
  | cons w widths ih => simp [ih]

end TypedCircuit
