import TypedCircuit.Codec.Basic

/-!
# Keyed structures

A keyed structure has a part for each of its members and visits them in a fixed order.
There are two kinds.

* An *object* is a position of a shape. It accepts any record that has its members and
  ignores other members; a value it rebuilds carries no type.
* A *composite* is a registered type. It accepts records of its own type and records
  without one, rebuilds records of its own type, and ignores elements beyond its own. A
  composite without members accepts every value.

In both, each member is looked up right before it is used, so of a missing member and a
failing one the earlier decides the error.

The members of a composite may mention the composite itself. Its codec is therefore not
built ahead of its use: `Codec.deferred` stands for a codec that is built when an
operation arrives, for something of the size of what the operation was given.
-/

namespace TypedCircuit

namespace Part

/-- Looks a member up in a value. -/
abbrev Lookup := String → Except Error Value

/-- The widths of members, if each of them has one. -/
def memberWidths (members : List (String × Part)) : Except Error (List Width) :=
  members.mapM fun (_, p) => p.width ()

/-- The elements of members. -/
def flattenMembers (lookup : Lookup) (members : List (String × Part)) :
    Except Error (List Signal) := do
  let chunks ← members.mapM fun (name, p) => do p.flatten (← lookup name)
  return chunks.flatten

/-- The auxiliary entries of the members that are present. -/
def auxiliaryMembers (members : List (String × Part)) (record : Entries Value) : List Value :=
  members.flatMap fun (name, p) => ((record.find? name).map p.auxiliary).getD []

/-- The members of shares. -/
def rebuildMembers (members : List (String × Part)) (fields : List Signal)
    (aux : List Value) : Except Error (Entries Value) := do
  let shares := shares (← memberWidths members) fields aux
  let rebuilt ← (members.zip shares).mapM fun ((name, p), share) => do
    return (name, ← p.rebuild share.1 share.2)
  return Entries.ofList rebuilt

/-- Asserts the invariants of members. -/
def checkMembers (lookup : Lookup) (members : List (String × Part)) : Circuit Unit :=
  members.forM fun (name, p) => do p.check (← lookup name)

/-- The hash input of members. -/
def inputMembers (lookup : Lookup) (members : List (String × Part)) :
    Except Error HashInput := do
  let inputs ← members.mapM fun (name, p) => do p.input (← lookup name)
  return HashInput.concat inputs

/-- The documents of members. -/
def encodeMembers (lookup : Lookup) (members : List (String × Part)) : Except Error Json := do
  let documents ← members.mapM fun (name, p) => do return (name, ← p.encode (← lookup name))
  return Json.ofMembers documents

/-- The members of the members of a document. -/
def decodeMembers (members : List (String × Part)) (document : Entries Json) :
    Except Error (Option (Entries Value)) :=
  OptionT.run do
    let decoded ← members.mapM fun (name, p) => do
      let json ← OptionT.mk (pure (document.find? name))
      return (name, ← OptionT.mk (p.decode json))
    return Entries.ofList decoded

/-! ## Objects -/

/-- Looks up a member of a position that expects a record. -/
def lookupKey (typeName : String) (v : Value) : Lookup := fun name =>
  match v.record? with
  | none => .error (.shape typeName .record (.kind v.form))
  | some (_, record) =>
    match record.find? name with
    | some member => .ok member
    | none => .error (.shape typeName .everyKey (.absent name))

/-- A position that names the parts of its members. -/
def object (typeName : String) (members : List (String × Part)) : Part where
  typeName
  width _ := (memberWidths members).map Width.sum
  flatten v := flattenMembers (lookupKey typeName v) members
  auxiliary v := (v.record?.map fun (_, record) => auxiliaryMembers members record).getD []
  rebuild fields aux := (rebuildMembers members fields aux).map (.record none)
  check v := checkMembers (lookupKey typeName v) members
  input v := inputMembers (lookupKey typeName v) members
  encode v := encodeMembers (lookupKey typeName v) members
  decode json :=
    match json.object? with
    | some document => (decodeMembers members document).map fun r? => r?.map (.record none)
    | none => .ok none

/-! ## Constants -/

/-- Whether a value is the declared primitive. -/
def expectConstant (typeName : String) (constant : Json) (v : Value) : Except Error Unit :=
  match v with
  | .primitive json =>
    if json == constant then .ok ()
    else .error (.shape typeName .declaredConstant (.json json))
  | v => .error (.shape typeName .primitive (.kind v.form))

/-- A position that holds a fixed primitive and takes nothing. -/
def constant (typeName : String) (json : Json) : Part where
  typeName
  width _ := .ok Width.zero
  flatten v := (expectConstant typeName json v).map fun _ => []
  auxiliary _ := []
  rebuild _ _ := .ok (.primitive json)
  check v := expectConstant typeName json v
  input v := (expectConstant typeName json v).map fun _ => .empty
  encode v := (expectConstant typeName json v).map fun _ => json
  decode document := .ok (if document == json then some (.primitive json) else none)

end Part

/-! ## Composites -/

namespace Codec

/-- The members of a record that may stand for a composite of the given name. -/
def expectRecord (name : String) (v : Value) : Except Error (Entries Value) :=
  match v.record? with
  | none => .error (.shape name .record (.kind v.form))
  | some (none, members) => .ok members
  | some (some other, members) =>
    if other = name then .ok members
    else .error (.shape name .recordOfType (.typeName other))

/-- Looks up a member of a composite. -/
def lookupMember (name : String) (record : Entries Value) : Part.Lookup := fun field =>
  match record.find? field with
  | some member => .ok member
  | none => .error (.shape name .everyMember (.absent field))

/-- Visits the members of a composite, or does nothing if there are none. -/
def onMembers {α : Type} (name : String) (members : List (String × Codec)) (nothing : α)
    (visit : Part.Lookup → Except Error α) (v : Value) : Except Error α :=
  if members.isEmpty then .ok nothing
  else do visit (lookupMember name (← expectRecord name v))

/-- The parts of the members of a composite. -/
def memberParts (members : List (String × Codec)) : List (String × Part) :=
  members.map fun (field, c) => (field, c.part)

/-- The value of a composite's elements and auxiliary entries. Surplus elements are
ignored. -/
def rebuildComposite (name : String) (members : List (String × Codec))
    (fields : List Signal) (aux : List Value) : Except Error Value := do
  let width := Width.sum (← Part.memberWidths (memberParts members))
  if fields.length < width.fields then
    throw (.elements name width.fields fields.length)
  else if aux.length ≠ width.aux then throw (.auxiliary name width.aux aux.length)
  else (Part.rebuildMembers (memberParts members) fields aux).map (.record (some name))

/--
A registered type. `json` tells whether all its members could be written as documents
when the type was described; members registered later may have taken that away again.
-/
def composite (name : String) (json : Bool) (members : List (String × Codec)) : Codec :=
  let stillJson := members.all (·.2.capabilities.json)
  let noJson : Error := .missingCapability name .json
  { typeName := name
    width := fun _ => (Part.memberWidths (memberParts members)).map Width.sum
    capabilities := ⟨true, json⟩
    flatten := onMembers name members [] fun lookup =>
      Part.flattenMembers lookup (memberParts members)
    auxiliary := fun v =>
      match expectRecord name v with
      | .ok record => Part.auxiliaryMembers (memberParts members) record
      | .error _ => []
    rebuild := rebuildComposite name members
    ofFields := fun fields => rebuildComposite name members fields []
    check := fun v => do
      if members.isEmpty then pure ()
      else Part.checkMembers (lookupMember name (← expectRecord name v)) (memberParts members)
    input := onMembers name members .empty fun lookup =>
      Part.inputMembers lookup (memberParts members)
    encode := fun v =>
      if stillJson then
        onMembers name members (.object []) (fun lookup =>
          Part.encodeMembers lookup (memberParts members)) v
      else .error noJson
    decode := fun json =>
      if stillJson then
        match json.object? with
        | some document =>
          (Part.decodeMembers (memberParts members) document).map fun r? =>
            r?.map (.record (some name))
        | none => .ok none
      else .error noJson }

/-! ## Codecs built when they are used -/

/--
A codec of which the name and the capabilities are known and the width can be asked for,
and everything else is built for each operation. `build` is told how large the argument of
the operation is: the height of a value or a document, or the number of elements and
auxiliary entries.
-/
def deferred (typeName : String) (width : Unit → Except Error Width)
    (capabilities : Capabilities) (build : Nat → Except Error Codec) : Codec where
  typeName
  width
  capabilities
  flatten v := do (← build v.height).flatten v
  auxiliary v :=
    match build v.height with
    | .ok c => c.auxiliary v
    | .error _ => []
  rebuild fields aux := do (← build (fields.length + aux.length)).rebuild fields aux
  ofFields fields := do (← build fields.length).ofFields fields
  check v := do (← build v.height).check v
  input v := do (← build v.height).input v
  encode v := do (← build v.height).encode v
  decode json := do (← build json.height).decode json

end Codec

end TypedCircuit
