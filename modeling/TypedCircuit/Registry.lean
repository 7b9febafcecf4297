import TypedCircuit.Descriptor

/-!
# The registry of composite types

A composite type is a name with an ordered list of members. Members are registered one
after another, and the order of registration is the order of flattening and of hashing,
so nothing ever reorders or removes a member.

A member without an encoding may be offered; it is skipped. Offering a name again is
refused and leaves the registry as it was.

## Meaning of names

The members of a name are descriptors, which may mention other names. A width is found
by following the mentions, except into shapes, whose leaves keep the width they had. A
type with a width is resolved within as many steps as there are registered types, and one
more for a name without members; a type that needs more has itself as a part, and has no
width.

A type may mention itself, and so may the types of its members. Members are therefore
found step by step while an operation goes on. A value or a document gets lower with each
step. A share never grows, and the steps that leave it as it is pass through different
names, unless they go round in a circle; `Registry.steps` counts all steps that are not in
a circle.

## Main results

* `Registry.schema_register_self`, `Registry.schema_register_ne` — registering appends
  one member to one type.
-/

namespace TypedCircuit

/-- The members of a composite type, in the order of their registration. -/
abbrev Schema := List (String × Descriptor)

/-- The descriptor of a member. -/
def Schema.member? (schema : Schema) (field : String) : Option Descriptor :=
  Entries.find? schema field

/-- The composite types. -/
structure Registry where
  schemas : Entries Schema

namespace Registry

/-- The registry without types. -/
def empty : Registry := ⟨[]⟩

/-- The members of a type; none if nothing was registered. -/
def schema (r : Registry) (name : String) : Schema := (r.schemas.find? name).getD []

/-- Whether something was registered for a type. -/
def contains (r : Registry) (name : String) : Bool := (r.schemas.find? name).isSome

/-- The registry with an entry for a type, which is empty if there was none. -/
def opened (r : Registry) (name : String) : Registry :=
  if r.contains name then r else ⟨r.schemas.insert name []⟩

/-- Offers a member of a type; `none` stands for a member without an encoding. The type has
its entry before its members are looked at. -/
def register (r : Registry) (name field : String) (member? : Option Descriptor) :
    Registry × Except Error Unit :=
  match member? with
  | none => (r, .ok ())
  | some d =>
    let r := r.opened name
    if (Schema.member? (r.schema name) field).isSome then
      (r, .error (.duplicateMember name field))
    else (⟨r.schemas.insert name (r.schema name ++ [(field, d)])⟩, .ok ())

/-- Offers members in order up to the first refusal. What was accepted before stays. -/
def registerAll (r : Registry) (name : String) :
    List (String × Option Descriptor) → Registry × Except Error Unit
  | [] => (r, .ok ())
  | (field, member?) :: rest =>
    match r.register name field member? with
    | (r, .ok ()) => registerAll r name rest
    | (r, .error e) => (r, .error e)

/-- A mention of a composite type, which keeps whether it has documents now. -/
def composite (r : Registry) (name : String) : Descriptor :=
  .composite name ((r.schema name).all (·.2.supportsJson))

/-- The width of a name, within a number of nested names. -/
def widthWithin (r : Registry) : Nat → String → Except Error Width
  | 0, name => .error (.recursiveType name)
  | depth + 1, name => Descriptor.totalWidth (r.widthWithin depth) Width.zero
      ((r.schema name).map (·.2))

/-- How many names a type with a width can nest. -/
def depthBound (r : Registry) : Nat := r.schemas.length + 1

/-- The width of a name. -/
def widthOf (r : Registry) (name : String) : Except Error Width :=
  r.widthWithin r.depthBound name

/-- The width of a type. -/
def width (r : Registry) (d : Descriptor) : Except Error Width := d.width r.widthOf

/-- The codecs of the members of a name, for an operation of a number of steps from a
name to a member. -/
def membersWithin (r : Registry) : Nat → String → Except Error Members
  | 0, name => .error (.recursiveType name)
  | steps + 1, name =>
    .ok ((r.schema name).map fun (field, d) =>
      (field, d.codec ⟨r.widthOf, fun _ => r.membersWithin steps⟩))

/-- How many steps an operation on something of the given size can take: at each size
down to nothing, one to every type and one to a name without members. -/
def steps (r : Registry) (size : Nat) : Nat := (size + 1) * r.depthBound

/-- The meaning of names. -/
def names (r : Registry) : Names := ⟨r.widthOf, fun size => r.membersWithin (r.steps size)⟩

/-- The codec of a type. -/
def codec (r : Registry) (d : Descriptor) : Codec := d.codec r.names

/-- A shape of one type, which keeps the width the type has now. -/
def leafShape (r : Registry) (d : Descriptor) : Except Error Shape := do
  return .leaf d (← r.width d)

theorem schema_opened (r : Registry) (name other : String) :
    (r.opened name).schema other = r.schema other := by
  unfold opened
  split
  · rfl
  · next hNone =>
      by_cases hOther : name = other
      · subst hOther
        have hNone : r.schemas.find? name = none := by
          rwa [contains, Bool.not_eq_true, Option.isSome_eq_false_iff, Option.isNone_iff_eq_none]
            at hNone
        simp [schema, Entries.find?_insert_self, hNone]
      · simp [schema, Entries.find?_insert_ne _ _ hOther]

/-- A member whose name is not taken is appended. -/
theorem register_fresh {r : Registry} {name field : String}
    (h : Schema.member? (r.schema name) field = none) (d : Descriptor) :
    r.register name field (some d) =
      (⟨(r.opened name).schemas.insert name (r.schema name ++ [(field, d)])⟩, .ok ()) := by
  simp only [register, schema_opened, h]
  rfl

/-- A member whose name is taken is refused. -/
theorem register_taken {r : Registry} {name field : String}
    (h : (Schema.member? (r.schema name) field).isSome) (d : Descriptor) :
    r.register name field (some d) =
      (r.opened name, .error (.duplicateMember name field)) := by
  simp only [register, schema_opened, h]
  rfl

theorem schema_register_self {r : Registry} {name field : String}
    (h : Schema.member? (r.schema name) field = none) (d : Descriptor) :
    (r.register name field (some d)).1.schema name = r.schema name ++ [(field, d)] := by
  rw [register_fresh h]
  simp [schema, Entries.find?_insert_self]

theorem schema_register_ne (r : Registry) {name other : String} (field : String)
    (member? : Option Descriptor) (hNe : name ≠ other) :
    (r.register name field member?).1.schema other = r.schema other := by
  cases member? with
  | none => rfl
  | some d =>
      cases hMember : Schema.member? (r.schema name) field with
      | none =>
          rw [register_fresh hMember, ← schema_opened r name other]
          simp [schema, Entries.find?_insert_ne _ _ hNe]
      | some e => rw [register_taken (by rw [hMember]; rfl), schema_opened]

end Registry

end TypedCircuit
