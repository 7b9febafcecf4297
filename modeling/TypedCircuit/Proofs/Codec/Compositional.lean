import TypedCircuit.Proofs.Codec.Grounding
import TypedCircuit.Proofs.Codec.Law

/-!
# What holds of every type

The codec of a type is assembled from the codecs of its components, and there are few ways to
assemble one. A property of parts that is kept by each of them holds of the codec of every type,
whatever is registered: also of types that mention themselves, of types that lie about their
counts, and of shapes whose leaves keep a width that their type has lost.

The induction goes over the type, and for the members that are found under a name over the steps
left to find them. It is made here once.

## Main results

* `Part.Compositional.codec` — what is kept by every way to assemble codecs holds of the codec of
  every type.
-/

namespace TypedCircuit

/-- A property that is kept by every way to assemble codecs. -/
structure Part.Compositional (P : Part → Prop) : Prop where
  leaf (type : Leaf) : P type.codec.uncounted
  /-- Verifying counts. -/
  part {c : Codec} (h : P c.uncounted) : P c.part
  /-- Declaring another width. -/
  withWidth {p : Part} (h : P p) (width : Unit → Except Error Width) : P { p with width := width }
  ofPart {p : Part} (h : P p) (capabilities : Capabilities) :
    P (Codec.ofPart p capabilities).uncounted
  sequence (typeName : String) {parts : List Part} (h : ∀ p ∈ parts, P p) :
    P (Part.sequence typeName parts)
  replicated (typeName : String) {p : Part} (h : P p) (count : Nat) :
    P (Part.replicated typeName p count)
  object (typeName : String) {members : List (String × Part)} (h : ∀ m ∈ members, P m.2) :
    P (Part.object typeName members)
  constant (typeName : String) (json : Json) : P (Part.constant typeName json)
  composite (name : String) (json : Bool) {members : List (String × Codec)}
    (h : ∀ m ∈ members, P m.2.uncounted) : P (Codec.composite name json members).uncounted
  /-- Building a codec when it is used. -/
  deferred (typeName : String) (width : Unit → Except Error Width) (capabilities : Capabilities)
    {build : Nat → Except Error Codec} (h : ∀ size c, build size = .ok c → P c.uncounted) :
    P (Codec.deferred typeName width capabilities build).uncounted
  plain (typeName : String) {c : Codec} (h : P c.uncounted) : P (Codec.plain typeName c).uncounted
  misdeclared (typeName : String) (claims produces : Nat) :
    P (Codec.misdeclared typeName claims produces).uncounted

namespace Part.Compositional

variable {P : Part → Prop} {names : Names}

/-- A property holds of the members that are found for names. -/
def OfMembers (P : Part → Prop) (names : Names) : Prop :=
  ∀ size name members, names.members size name = .ok members → ∀ m ∈ members, P m.2.uncounted

/-- What is found under a name has the property if the members that are found there have it. -/
theorem namedComposite (hP : Compositional P) (h : OfMembers P names) (name : String)
    (json : Bool) : P (names.composite name json).uncounted := by
  refine hP.deferred _ _ _ fun size c hc => ?_
  obtain ⟨members, hMembers, rfl⟩ := map_eq_ok.1 hc
  exact hP.composite name json (h size name members hMembers)

mutual

/-- The codec of a type has the property if the members that are found for names have it. -/
theorem descriptorCodec (hP : Compositional P) (h : OfMembers P names) :
    ∀ d : Descriptor, P (d.codec names).uncounted
  | .leaf type => hP.leaf type
  | .array element length =>
      hP.ofPart (hP.replicated _ (hP.part (descriptorCodec hP h element)) length) _
  | .tuple elements => by
      rw [Descriptor.codec_tuple]
      refine hP.ofPart (hP.sequence _ fun p hp => ?_) _
      obtain ⟨c, hc, rfl⟩ := List.mem_map.1 hp
      obtain ⟨d, hd, rfl⟩ := List.mem_map.1 hc
      exact hP.part (descriptorCodecs hP h elements d hd)
  | .structural root => hP.ofPart (shapePart hP h root) _
  | .composite name json => hP.namedComposite h name json
  | .unregistered name => hP.composite name true nofun
  | .plain inner => hP.plain _ (descriptorCodec hP h inner)
  | .misdeclared claims produces => hP.misdeclared _ claims produces

theorem descriptorCodecs (hP : Compositional P) (h : OfMembers P names) :
    ∀ ds : List Descriptor, ∀ d ∈ ds, P (d.codec names).uncounted
  | [] => List.forall_mem_nil _
  | d :: ds => List.forall_mem_cons.2 ⟨descriptorCodec hP h d, descriptorCodecs hP h ds⟩

/-- And so has the part of a shape. -/
theorem shapePart (hP : Compositional P) (h : OfMembers P names) :
    ∀ s : Shape, P (s.part names)
  | .leaf type width => hP.withWidth (hP.part (descriptorCodec hP h type)) fun _ => .ok width
  | .array items => by
      rw [Shape.part_array]
      refine hP.sequence _ fun p hp => ?_
      obtain ⟨s, hs, rfl⟩ := List.mem_map.1 hp
      exact itemParts hP h items s hs
  | .object members => by
      rw [Shape.part_object]
      refine hP.object _ fun m hm => ?_
      obtain ⟨⟨key, s⟩, hMember, rfl⟩ := List.mem_map.1 hm
      exact memberParts hP h members (key, s) hMember
  | .constant json => hP.constant _ json

theorem itemParts (hP : Compositional P) (h : OfMembers P names) :
    ∀ items : List Shape, ∀ s ∈ items, P (s.part names)
  | [] => List.forall_mem_nil _
  | s :: rest => List.forall_mem_cons.2 ⟨shapePart hP h s, itemParts hP h rest⟩

theorem memberParts (hP : Compositional P) (h : OfMembers P names) :
    ∀ members : List (String × Shape), ∀ m ∈ members, P (m.2.part names)
  | [] => List.forall_mem_nil _
  | (_, s) :: rest => List.forall_mem_cons.2 ⟨shapePart hP h s, memberParts hP h rest⟩

end

theorem membersWithin (hP : Compositional P) (r : Registry) (steps : Nat) (name : String)
    (members : Members) (h : r.membersWithin steps name = .ok members) :
    ∀ m ∈ members, P m.2.uncounted := by
  induction steps generalizing name members with
  | zero => cases h
  | succ steps ih =>
      cases h
      intro m hm
      obtain ⟨⟨field, d⟩, -, rfl⟩ := List.mem_map.1 hm
      exact hP.descriptorCodec (fun _ => ih) d

/-- The codec of every type has the property, whatever is registered. -/
theorem codec (hP : Compositional P) (r : Registry) (d : Descriptor) : P (r.codec d).uncounted :=
  hP.descriptorCodec (fun _ => hP.membersWithin r _) d

end Part.Compositional

end TypedCircuit
