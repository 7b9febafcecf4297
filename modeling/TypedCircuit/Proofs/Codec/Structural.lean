import TypedCircuit.Proofs.Codec.Regular

/-!
# What holds of every regular type

A property of parts may need more than the ways in which codecs are assembled: that the names of
members are distinct, or that a declared width is the width of the type. Regular types have that.
A property that is kept by every way to assemble parts under these conditions holds of the codec
of every regular type. The induction is made here once.

## Main results

* `Part.Structural.regular` — what is kept by every way to assemble parts holds of regular types.
-/

namespace TypedCircuit

/-- A property that is kept by every regular way to assemble parts. -/
structure Part.Structural (P : Part → Prop) : Prop where
  leaf (type : Leaf) : P type.codec.part
  /-- Verifying counts. -/
  part {c : Codec} (h : P c.uncounted) : P c.part
  ofPart {p : Part} (h : P p) (capabilities : Capabilities) : P (Codec.ofPart p capabilities).part
  /-- Declaring the width that a part has. -/
  withWidth {p : Part} {width : Width} (h : P p) (hWidth : p.width () = .ok width) :
    P { p with width := fun _ => .ok width }
  sequence (typeName : String) {parts : List Part} (h : ∀ p ∈ parts, P p) :
    P (Part.sequence typeName parts)
  replicated (typeName : String) {p : Part} (h : P p) (count : Nat) :
    P (Part.replicated typeName p count)
  /-- Visiting members of distinct names. -/
  keyed {p : Part} {members : List (String × Part)} {tag? : Option String}
    {lookup : Value → Part.Lookup} (hp : p.Keyed members tag? lookup)
    (h : ∀ m ∈ members, P m.2) (hNodup : (members.map Prod.fst).Nodup) : P p
  constant (typeName : String) (json : Json) : P (Part.constant typeName json)
  plain (typeName : String) {c : Codec} (h : P c.part) : P (Codec.plain typeName c).part

namespace Part.Structural

variable {P : Part → Prop}

/-- A composite of members of distinct names. -/
theorem composite (hP : Structural P) {name : String} {members : List (String × Codec)}
    (hNodup : (members.map Prod.fst).Nodup) (h : ∀ m ∈ members, P m.2.part) (json : Bool) :
    P (Codec.composite name json members).part := by
  refine hP.part (hP.keyed (Codec.keyed_composite name json members) (fun m hm => ?_) ?_)
  · obtain ⟨c, hc, rfl⟩ := List.mem_map.1 hm
    exact h c hc
  · rw [Codec.memberParts, List.map_map]
    exact hNodup

mutual

/-- The codec of a regular type has the property. -/
theorem regular (hP : Structural P) {r : Registry} {d : Descriptor} :
    d.Regular r → P (r.codec d).part
  | .leaf type => hP.leaf type
  | .array hElement length => hP.ofPart (hP.replicated _ (hP.regular hElement) length) _
  | .tuple hElements => by
      rw [Registry.codec, Descriptor.codec_tuple]
      refine hP.ofPart (hP.sequence _ fun p hp => ?_) _
      rw [List.map_map] at hp
      obtain ⟨d, hd, rfl⟩ := List.mem_map.1 hp
      exact hP.regular (hElements d hd)
  | .structural hRoot => hP.ofPart (hP.regularShape hRoot) _
  | .composite hNodup hMembers json => by
      have hGrounded := Registry.Grounded.of_members fun m hm => (hMembers m hm).grounded
      rw [Registry.codec_composite hGrounded]
      refine hP.composite ?_ (fun m hm => ?_) json
      · rw [List.map_map]
        exact hNodup
      · obtain ⟨member, hMember, rfl⟩ := List.mem_map.1 hm
        exact hP.regular (hMembers member hMember)
  | .unregistered name => @composite P hP name [] List.nodup_nil nofun true
  | .plain hInner => hP.plain _ (hP.regular hInner)

/-- And so has the part of a regular shape. -/
theorem regularShape (hP : Structural P) {r : Registry} {s : Shape} :
    s.Regular r → P (s.part r.names)
  | .leaf hType hWidth =>
      hP.withWidth (hP.regular hType) ((Registry.codec_part_width _).trans hWidth)
  | .array hItems => by
      rw [Shape.part_array]
      refine hP.sequence _ fun p hp => ?_
      obtain ⟨s, hs, rfl⟩ := List.mem_map.1 hp
      exact hP.regularShape (hItems s hs)
  | .object hNodup hMembers => by
      rw [Shape.part_object]
      refine hP.keyed (Part.keyed_object _ _) (fun m hm => ?_) ?_
      · obtain ⟨member, hMember, rfl⟩ := List.mem_map.1 hm
        exact hP.regularShape (hMembers member hMember)
      · rw [List.map_map]
        exact hNodup
  | .constant _ => hP.constant _ _

end

end Part.Structural

end TypedCircuit
