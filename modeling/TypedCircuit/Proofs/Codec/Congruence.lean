import TypedCircuit.Proofs.Documents.Readable
import TypedCircuit.Proofs.Hash.Placement

/-!
# One type under two meanings of names

What a type does depends on the meaning of the names that it mentions. A relation of parts that is
kept by every way to assemble codecs relates what a type is under one meaning with what it is under
another one, as soon as it relates the two meanings of every name that is mentioned.

Two things are the same under all meanings of names and need no relation: the names in messages,
which are those of the types, and the optional capabilities, which are fixed when a type is built.

## Main results

* `Part.Congruence.descriptorCodec` — what relates the meanings of names relates the codecs of types.
-/

namespace TypedCircuit

/-- A relation of parts that is kept by every way to assemble codecs. -/
structure Part.Congruence (R : Part → Part → Prop) : Prop where
  leaf (type : Leaf) : R type.codec.uncounted type.codec.uncounted
  /-- Verifying counts. -/
  part {c c' : Codec} (hCapabilities : c.capabilities = c'.capabilities)
    (h : R c.uncounted c'.uncounted) : R c.part c'.part
  /-- Declaring another width. -/
  withWidth {p q : Part} (h : R p q) (width : Width) :
    R { p with width := fun _ => .ok width } { q with width := fun _ => .ok width }
  ofPart {p q : Part} (h : R p q) (capabilities : Capabilities) :
    R (Codec.ofPart p capabilities).uncounted (Codec.ofPart q capabilities).uncounted
  sequence (typeName : String) {parts parts' : List Part} (h : List.Forall₂ R parts parts') :
    R (Part.sequence typeName parts) (Part.sequence typeName parts')
  replicated (typeName : String) {p q : Part} (h : R p q) (count : Nat) :
    R (Part.replicated typeName p count) (Part.replicated typeName q count)
  object (typeName : String) {members members' : List (String × Part)}
    (h : List.Forall₂ (fun m m' => m.1 = m'.1 ∧ R m.2 m'.2) members members') :
    R (Part.object typeName members) (Part.object typeName members')
  constant (typeName : String) (json : Json) :
    R (Part.constant typeName json) (Part.constant typeName json)
  /-- A type without members. -/
  empty (name : String) :
    R (Codec.composite name true []).uncounted (Codec.composite name true []).uncounted
  plain (typeName : String) {c c' : Codec} (hCapabilities : c.capabilities = c'.capabilities)
    (h : R c.uncounted c'.uncounted) :
    R (Codec.plain typeName c).uncounted (Codec.plain typeName c').uncounted
  misdeclared (typeName : String) (claims produces : Nat) :
    R (Codec.misdeclared typeName claims produces).uncounted
      (Codec.misdeclared typeName claims produces).uncounted

/-- The capabilities of a codec are those of the type. -/
theorem Descriptor.capabilities_eq (names : Names) (d : Descriptor) :
    (d.codec names).capabilities = ⟨d.supportsHashInput, d.supportsJson⟩ := by
  rw [← Descriptor.codec_hashInput names d, ← Descriptor.codec_json names d]

/-- The capabilities of a type are the same under all meanings of names. -/
theorem Descriptor.codec_capabilities (f g : Names) (d : Descriptor) :
    (d.codec f).capabilities = (d.codec g).capabilities := by
  rw [Descriptor.capabilities_eq f, Descriptor.capabilities_eq g]

namespace Part.Congruence

variable {R : Part → Part → Prop} {f g : Names}

/-- Two meanings of a name are related. -/
def OfName (R : Part → Part → Prop) (f g : Names) (name : String) : Prop :=
  ∀ json, R (f.composite name json).uncounted (g.composite name json).uncounted

mutual

/-- What relates the two meanings of every name that a type mentions relates its codecs. -/
theorem descriptorCodec (hR : Congruence R) :
    ∀ d : Descriptor, (∀ name ∈ d.mentions, OfName R f g name) →
      R (d.codec f).uncounted (d.codec g).uncounted
  | .leaf type, _ => hR.leaf type
  | .array element length, h => by
      have hElement := hR.part (Descriptor.codec_capabilities f g element)
        (descriptorCodec hR element h)
      have hArray := hR.ofPart (hR.replicated (Descriptor.array element length).typeName hElement
        length) (element.codec f).capabilities
      rw [Descriptor.codec, Descriptor.codec]
      refine Eq.subst (motive := fun c => R _ (Codec.ofPart _ c).uncounted) ?_ hArray
      exact Descriptor.codec_capabilities f g element
  | .tuple elements, h => by
      have hElements : List.Forall₂ R ((elements.map (·.codec f)).map Codec.part)
          ((elements.map (·.codec g)).map Codec.part) := by
        rw [List.map_map, List.map_map, List.forall₂_map_left_iff, List.forall₂_map_right_iff,
          List.forall₂_same]
        exact fun d hd => hR.part (Descriptor.codec_capabilities f g d)
          (descriptorCodecs hR elements h d hd)
      have hTuple := hR.ofPart (hR.sequence (Descriptor.tuple elements).typeName hElements)
        (Codec.tuple (Descriptor.tuple elements).typeName (elements.map (·.codec f))).capabilities
      have hCapabilities := Descriptor.codec_capabilities f g (.tuple elements)
      rw [Descriptor.codec_tuple, Descriptor.codec_tuple] at hCapabilities ⊢
      exact Eq.subst (motive := fun c => R _ (Codec.ofPart _ c).uncounted) hCapabilities hTuple
  | .structural root, h => hR.ofPart (shapePart hR root h) _
  | .composite name json, h => h name (List.mem_singleton_self name) json
  | .unregistered name, _ => hR.empty name
  | .plain inner, h =>
      hR.plain _ (Descriptor.codec_capabilities f g inner) (descriptorCodec hR inner h)
  | .misdeclared claims produces, _ => hR.misdeclared _ claims produces

theorem descriptorCodecs (hR : Congruence R) :
    ∀ ds : List Descriptor, (∀ name ∈ Descriptor.mentionsOfAll ds, OfName R f g name) →
      ∀ d ∈ ds, R (d.codec f).uncounted (d.codec g).uncounted
  | [], _ => List.forall_mem_nil _
  | d :: ds, h => List.forall_mem_cons.2
      ⟨descriptorCodec hR d fun name hName => h name (List.mem_append_left _ hName),
        descriptorCodecs hR ds fun name hName => h name (List.mem_append_right _ hName)⟩

theorem shapePart (hR : Congruence R) :
    ∀ s : Shape, (∀ name ∈ s.mentions, OfName R f g name) → R (s.part f) (s.part g)
  | .leaf type width, h =>
      hR.withWidth (hR.part (Descriptor.codec_capabilities f g type) (descriptorCodec hR type h))
        width
  | .array items, h => by
      rw [Shape.part_array, Shape.part_array]
      refine hR.sequence _ ?_
      rw [List.forall₂_map_left_iff, List.forall₂_map_right_iff, List.forall₂_same]
      exact itemParts hR items h
  | .object members, h => by
      rw [Shape.part_object, Shape.part_object]
      refine hR.object _ ?_
      rw [List.forall₂_map_left_iff, List.forall₂_map_right_iff, List.forall₂_same]
      exact fun m hm => ⟨rfl, memberParts hR members h m hm⟩
  | .constant json, _ => hR.constant _ json

theorem itemParts (hR : Congruence R) :
    ∀ items : List Shape, (∀ name ∈ Shape.mentionsOfItems items, OfName R f g name) →
      ∀ s ∈ items, R (s.part f) (s.part g)
  | [], _ => List.forall_mem_nil _
  | s :: rest, h => List.forall_mem_cons.2
      ⟨shapePart hR s fun name hName => h name (List.mem_append_left _ hName),
        itemParts hR rest fun name hName => h name (List.mem_append_right _ hName)⟩

theorem memberParts (hR : Congruence R) :
    ∀ members : List (String × Shape),
      (∀ name ∈ Shape.mentionsOfMembers members, OfName R f g name) →
        ∀ m ∈ members, R (m.2.part f) (m.2.part g)
  | [], _ => List.forall_mem_nil _
  | (_, s) :: rest, h => List.forall_mem_cons.2
      ⟨shapePart hR s fun name hName => h name (List.mem_append_left _ hName),
        memberParts hR rest fun name hName => h name (List.mem_append_right _ hName)⟩

end

end Part.Congruence

end TypedCircuit
