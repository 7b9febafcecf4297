import TypedCircuit.Proofs.Documents.Ordered
import TypedCircuit.Proofs.Documents.Reading
import TypedCircuit.ShapeDocument

/-!
# Types whose values are read from documents

A type is *readable* when it is regular and every part of it has documents, now and not only
when it was described. The codec of a readable type reads every document, which is one more
induction on regular types.

Shape documents describe readable types. Their leaves are three built-in types that have
documents, and the keys of their objects are distinct because a document has each key once.

## Main results

* `Descriptor.Readable.documented` — the codec of a readable type reads documents.
* `ShapeDocument.readable` — the type of a shape document is readable.
-/

namespace TypedCircuit

mutual

/-- A regular type of which every part has documents. -/
inductive Descriptor.Readable (r : Registry) : Descriptor → Prop where
  | leaf {type : Leaf} (h : type.supportsJson = true) : Descriptor.Readable r (.leaf type)
  | array {element : Descriptor} (h : Descriptor.Readable r element) (length : Nat) :
    Descriptor.Readable r (.array element length)
  | tuple {elements : List Descriptor} (h : ∀ d ∈ elements, Descriptor.Readable r d) :
    Descriptor.Readable r (.tuple elements)
  | structural {root : Shape} (h : Shape.Readable r root) :
    Descriptor.Readable r (.structural root)
  | composite {name : String} (hNodup : ((r.schema name).map Prod.fst).Nodup)
    (h : ∀ m ∈ r.schema name, Descriptor.Readable r m.2) :
    Descriptor.Readable r (.composite name true)
  | unregistered (name : String) : Descriptor.Readable r (.unregistered name)

/-- A regular shape of which every leaf has documents. -/
inductive Shape.Readable (r : Registry) : Shape → Prop where
  | leaf {type : Descriptor} {width : Width} (h : Descriptor.Readable r type)
    (hWidth : r.width type = .ok width) : Shape.Readable r (.leaf type width)
  | array {items : List Shape} (h : ∀ s ∈ items, Shape.Readable r s) :
    Shape.Readable r (.array items)
  | object {members : List (String × Shape)} (hNodup : (members.map Prod.fst).Nodup)
    (h : ∀ m ∈ members, Shape.Readable r m.2) : Shape.Readable r (.object members)
  | constant (json : Json) : Shape.Readable r (.constant json)

end

mutual

theorem Descriptor.Readable.regular {r : Registry} {d : Descriptor} : d.Readable r → d.Regular r
  | .leaf _ => .leaf _
  | .array hElement length => .array hElement.regular length
  | .tuple hElements => .tuple fun d hd => (hElements d hd).regular
  | .structural hRoot => .structural hRoot.regular
  | .composite hNodup hMembers => .composite hNodup (fun m hm => (hMembers m hm).regular) true
  | .unregistered name => .unregistered name

theorem Shape.Readable.regular {r : Registry} {s : Shape} : s.Readable r → s.Regular r
  | .leaf hType hWidth => .leaf hType.regular hWidth
  | .array hItems => .array fun s hs => (hItems s hs).regular
  | .object hNodup hMembers => .object hNodup fun m hm => (hMembers m hm).regular
  | .constant json => .constant json

end

/-! ## Capabilities -/

theorem Descriptor.allSupportJson_iff {ds : List Descriptor} :
    Descriptor.allSupportJson ds = true ↔ ∀ d ∈ ds, d.supportsJson = true := by
  induction ds with
  | nil => exact ⟨nofun, fun _ => rfl⟩
  | cons d rest ih =>
      rw [Descriptor.allSupportJson, Bool.and_eq_true, ih, List.forall_mem_cons]

theorem Shape.itemsSupportJson_iff {items : List Shape} :
    Shape.itemsSupportJson items = true ↔ ∀ s ∈ items, s.supportsJson = true := by
  induction items with
  | nil => exact ⟨nofun, fun _ => rfl⟩
  | cons s rest ih =>
      rw [Shape.itemsSupportJson, Bool.and_eq_true, ih, List.forall_mem_cons]

theorem Shape.membersSupportJson_iff {members : List (String × Shape)} :
    Shape.membersSupportJson members = true ↔ ∀ m ∈ members, m.2.supportsJson = true := by
  induction members with
  | nil => exact ⟨nofun, fun _ => rfl⟩
  | cons m rest ih =>
      rw [Shape.membersSupportJson, Bool.and_eq_true, ih, List.forall_mem_cons]

mutual

theorem Descriptor.Readable.supportsJson {r : Registry} {d : Descriptor} :
    d.Readable r → d.supportsJson = true
  | .leaf h => h
  | .array hElement _ => hElement.supportsJson
  | .tuple hElements =>
      Descriptor.allSupportJson_iff.2 fun d hd => (hElements d hd).supportsJson
  | .structural hRoot => hRoot.supportsJson
  | .composite _ _ => rfl
  | .unregistered _ => rfl

theorem Shape.Readable.supportsJson {r : Registry} {s : Shape} :
    s.Readable r → s.supportsJson = true
  | .leaf hType _ => hType.supportsJson
  | .array hItems => Shape.itemsSupportJson_iff.2 fun s hs => (hItems s hs).supportsJson
  | .object _ hMembers =>
      Shape.membersSupportJson_iff.2 fun m hm => (hMembers m hm).supportsJson
  | .constant _ => rfl

end

mutual

/-- The codec of a type has documents if the type had them when it was built. -/
theorem Descriptor.codec_json (names : Names) :
    ∀ d : Descriptor, (d.codec names).capabilities.json = d.supportsJson
  | .leaf _ => rfl
  | .array element _ => Descriptor.codec_json names element
  | .tuple elements => by
      rw [Descriptor.codec_tuple]
      exact Descriptor.codecs_json names elements
  | .structural _ => rfl
  | .composite _ _ => rfl
  | .unregistered _ => rfl
  | .plain _ => rfl
  | .misdeclared _ _ => rfl

theorem Descriptor.codecs_json (names : Names) :
    ∀ ds : List Descriptor,
      (ds.map (·.codec names)).all (·.capabilities.json) = Descriptor.allSupportJson ds
  | [] => rfl
  | d :: rest => by
      rw [List.map_cons, List.all_cons, Descriptor.codec_json names d,
        Descriptor.codecs_json names rest]
      rfl

end

theorem Descriptor.Readable.codec_json {r : Registry} {d : Descriptor} (h : d.Readable r) :
    (r.codec d).capabilities.json = true :=
  (Descriptor.codec_json r.names d).trans h.supportsJson

/-! ## Readable types read documents -/

mutual

/-- The codec of a readable type is lawful and reads documents. -/
theorem Descriptor.Readable.documented {r : Registry} {d : Descriptor} :
    d.Readable r → (r.codec d).part.Documented
  | .leaf h => Leaf.documented h
  | .array hElement length =>
      Codec.documented_ofPart (hElement.documented.replicated _ length) hElement.codec_json
  | .tuple hElements => by
      have hJson := (Descriptor.Readable.tuple hElements).codec_json
      rw [Registry.codec, Descriptor.codec_tuple] at hJson ⊢
      refine Codec.documented_ofPart (Part.documented_sequence (fun p hp => ?_) _) hJson
      rw [List.map_map] at hp
      obtain ⟨d, hd, rfl⟩ := List.mem_map.1 hp
      exact (hElements d hd).documented
  | .structural hRoot => Codec.documented_ofPart hRoot.documented hRoot.supportsJson
  | .composite hNodup hMembers => by
      have hGrounded := Registry.Grounded.of_members fun m hm =>
        (hMembers m hm).regular.grounded
      rw [Registry.codec_composite hGrounded]
      refine Codec.documented_composite ?_ (fun m hm => ?_) fun m hm => ?_
      · rw [List.map_map]
        exact hNodup
      · obtain ⟨member, hMember, rfl⟩ := List.mem_map.1 hm
        exact (hMembers member hMember).documented
      · obtain ⟨member, hMember, rfl⟩ := List.mem_map.1 hm
        exact (hMembers member hMember).codec_json
  | .unregistered name => @Codec.documented_composite name [] List.nodup_nil nofun nofun

/-- The part of a readable shape is lawful and reads documents. -/
theorem Shape.Readable.documented {r : Registry} {s : Shape} :
    s.Readable r → (s.part r.names).Documented
  | .leaf hType hWidth =>
      hType.documented.withWidth ((Registry.codec_part_width _).trans hWidth)
  | .array hItems => by
      rw [Shape.part_array]
      refine Part.documented_sequence (fun p hp => ?_) _
      obtain ⟨s, hs, rfl⟩ := List.mem_map.1 hp
      exact (hItems s hs).documented
  | .object hNodup hMembers => by
      rw [Shape.part_object]
      refine (Part.keyed_object _ _).documented rfl (fun m hm => ?_) ?_
      · obtain ⟨member, hMember, rfl⟩ := List.mem_map.1 hm
        exact (hMembers member hMember).documented
      · rw [List.map_map]
        exact hNodup
  | .constant json => Part.documented_constant _ json

end

/-! ## Shape documents -/

namespace Shape

variable {r : Registry}

theorem readable_ofLeaf {leaf : Leaf} (h : leaf.supportsJson = true) :
    (ofLeaf leaf).Readable r := .leaf (.leaf h) rfl

theorem readable_ofLeafName {name : String} {s : Shape} (h : ofLeafName name = .ok s) :
    s.Readable r := by
  unfold ofLeafName at h
  split at h
  · cases h; exact readable_ofLeaf rfl
  · split at h
    · cases h; exact readable_ofLeaf rfl
    · split at h
      · cases h; exact readable_ofLeaf rfl
      · cases h

/-- Copies are made if together they are no more nodes than a document may have. A product that is
no count is beyond that. -/
theorem copies_eq_ok {length : Nat} {element s : Shape} :
    copies length element = .ok s ↔
      length * element.nodes ≤ maxNodes ∧ replicate length element = s := by
  have hLimit : maxNodes ≤ greatestCount := by decide
  unfold copies productOfCounts?
  by_cases hCount : length * element.nodes ≤ greatestCount
  · rw [if_pos hCount]
    dsimp only
    split
    · next hFits => exact ⟨fun h => ⟨hFits, Except.ok.inj h⟩, fun h => congrArg Except.ok h.2⟩
    · next hFits => exact ⟨nofun, fun h => absurd h.1 hFits⟩
  · rw [if_neg hCount]
    exact ⟨nofun, fun h => absurd (Nat.le_trans h.1 hLimit) hCount⟩

/-- Items are read one by one. -/
theorem ofItems_eq_ok {items : List Json} {done shapes : List Shape} :
    ofItems done items = .ok shapes ↔
      ∃ own, List.Forall₂ (fun json s => ofJson json = .ok s) items own ∧
        done.reverse ++ own = shapes := by
  induction items generalizing done with
  | nil =>
      rw [ofItems]
      constructor
      · intro h
        cases h
        exact ⟨[], .nil, List.append_nil _⟩
      · rintro ⟨own, hOwn, rfl⟩
        cases hOwn
        rw [List.append_nil]
  | cons json rest ih =>
      rw [ofItems]
      constructor
      · intro h
        split at h
        · cases h
        · next first hFirst =>
            obtain ⟨own, hOwn, hShapes⟩ := ih.1 h
            refine ⟨first :: own, .cons hFirst hOwn, ?_⟩
            rwa [List.reverse_cons, List.append_assoc] at hShapes
      · rintro ⟨own, hOwn, rfl⟩
        cases hOwn with
        | @cons _ first _ own hFirst hRest =>
            rw [hFirst]
            refine ih.2 ⟨own, hRest, ?_⟩
            rw [List.reverse_cons, List.append_assoc]
            rfl

theorem memberReaders_eq (members : List (String × Json)) :
    memberReaders members = members.map fun m => (m.1, fun _ => ofJson m.2) := by
  induction members with
  | nil => rfl
  | cons m rest ih => rw [memberReaders, ih, List.map_cons]

/-- The members of an object are read one by one and keep their keys. -/
theorem readMembers_eq_ok {members : List (String × Json)} {shapes : List (String × Shape)} :
    ((memberReaders members).mapM fun (key, read) => do
      return (key, ← read ()) : Except ShapeError (List (String × Shape))) = .ok shapes ↔
    List.Forall₂ (fun m n => m.1 = n.1 ∧ ofJson m.2 = .ok n.2) members shapes := by
  rw [memberReaders_eq, mapM_eq_ok, List.forall₂_map_left_iff]
  refine Iff.of_eq (congrArg (List.Forall₂ · members shapes) ?_)
  funext m n
  refine propext (bind_eq_ok.trans ⟨?_, fun h => ⟨n.2, h.2, congrArg Except.ok (Prod.ext h.1 rfl)⟩⟩)
  rintro ⟨s, hs, hEq⟩
  cases hEq
  exact ⟨rfl, hs⟩

/-- A mapping is a constant, an array of copies or an object, by the keys it has. -/
theorem ofMapping_eq_ok {members : Entries Json} {s : Shape} :
    ofMapping members (memberReaders members) = .ok s ↔
      (∃ json, members.find? constantKey = some json ∧ members.length = 1 ∧ .constant json = s) ∨
      members.find? constantKey = none ∧
        ((∃ json length element, members.find? arrayKey = some json ∧
            (members.find? lengthKey).bind Json.nat? = some length ∧ members.length = 2 ∧
            ofJson json = .ok element ∧ copies length element = .ok s) ∨
          members.find? arrayKey = none ∧ ∃ shapes,
            List.Forall₂ (fun m n => m.1 = n.1 ∧ ofJson m.2 = .ok n.2) members shapes ∧
            .object shapes = s) := by
  have hReader : Entries.find? (memberReaders members) arrayKey =
      (members.find? arrayKey).map fun json _ => ofJson json := by
    rw [memberReaders_eq]
    exact Entries.find?_map (fun json _ => ofJson json) members arrayKey
  unfold ofMapping
  rw [hReader]
  cases members.find? constantKey with
  | some json =>
      rw [or_iff_left (fun h => nomatch h.1)]
      by_cases hOne : members.length = 1
      · exact (iff_of_eq (congrArg (· = Except.ok s) (if_pos hOne))).trans
          ⟨fun h => ⟨json, rfl, hOne, Except.ok.inj h⟩, fun ⟨_, hJson, _, hs⟩ => by
            cases hJson; exact congrArg Except.ok hs⟩
      · exact (iff_of_eq (congrArg (· = Except.ok s) (if_neg hOne))).trans
          ⟨nofun, fun ⟨_, _, h, _⟩ => absurd h hOne⟩
  | none =>
      rw [or_iff_right (fun ⟨_, h, _⟩ => nomatch h), and_iff_right rfl]
      cases members.find? arrayKey with
      | none =>
          rw [or_iff_right (fun ⟨_, _, _, h, _⟩ => nomatch h), and_iff_right rfl]
          refine bind_eq_ok.trans (exists_congr fun shapes => ?_)
          exact and_congr readMembers_eq_ok ⟨Except.ok.inj, congrArg Except.ok⟩
      | some json =>
          rw [or_iff_left (fun h => nomatch h.1)]
          cases (members.find? lengthKey).bind Json.nat? with
          | none => exact ⟨nofun, fun ⟨_, _, _, _, h, _⟩ => nomatch h⟩
          | some length =>
              by_cases hTwo : members.length = 2
              · refine (iff_of_eq (congrArg (· = Except.ok s) (if_pos hTwo))).trans
                  (bind_eq_ok.trans ⟨?_, ?_⟩)
                · rintro ⟨element, hElement, hCopies⟩
                  exact ⟨json, length, element, rfl, rfl, hTwo, hElement, hCopies⟩
                · rintro ⟨_, _, element, hJson, hLength, -, hElement, hCopies⟩
                  cases hJson
                  cases hLength
                  exact ⟨element, hElement, hCopies⟩
              · exact (iff_of_eq (congrArg (· = Except.ok s) (if_neg hTwo))).trans
                  ⟨nofun, fun ⟨_, _, _, _, _, h, _⟩ => absurd h hTwo⟩

/-- The shape of a mapping is readable if the shapes of its members are. -/
theorem readable_ofMapping {members : Entries Json} (hSorted : Entries.Sorted members)
    (hMembers : ∀ m ∈ members, ∀ s, ofJson m.2 = .ok s → s.Readable r) {s : Shape}
    (h : ofMapping members (memberReaders members) = .ok s) : s.Readable r := by
  rcases ofMapping_eq_ok.1 h with ⟨json, -, -, rfl⟩ |
    ⟨-, ⟨json, length, element, hJson, -, -, hElement, hCopies⟩ | ⟨-, shapes, hShapes, rfl⟩⟩
  · exact .constant _
  · obtain ⟨-, rfl⟩ := copies_eq_ok.1 hCopies
    refine .array fun t ht => ?_
    rw [List.eq_of_mem_replicate ht]
    exact hMembers _ (Entries.mem_of_find? hJson) element hElement
  · refine .object ?_ fun n hn => ?_
    · have hKeys : members.map Prod.fst = shapes.map Prod.fst :=
        Entries.names_eq_of_forall₂ (hShapes.imp fun _ _ hm => hm.1)
      exact hKeys ▸ hSorted.nodup
    · obtain ⟨m, hm, -, hShape⟩ := exists_of_forall₂_mem hShapes hn
      exact hMembers m hm n.2 hShape

/-- The shape of a document in order is readable. -/
theorem readable_ofJson {json : Json} {s : Shape} :
    json.Ordered → ofJson json = .ok s → s.Readable r
  | .string name, h => readable_ofLeafName h
  | .array hItems, h => by
      rw [ofJson] at h
      obtain ⟨shapes, hShapes, hEq⟩ := bind_eq_ok.1 h
      cases hEq
      obtain ⟨own, hOwn, rfl⟩ := ofItems_eq_ok.1 hShapes
      refine .array fun t ht => ?_
      obtain ⟨item, hItem, hShape⟩ := exists_of_forall₂_mem hOwn ht
      exact readable_ofJson (hItems item hItem) hShape
  | .object hSorted hMembers, h =>
      readable_ofMapping hSorted (fun m hm s hs => readable_ofJson (hMembers m hm) hs) h
  | .null, h => nomatch h
  | .bool _, h => nomatch h
  | .number _, h => nomatch h

end Shape

/-- The type of a readable shape is readable, whatever the order of its keys. -/
theorem Descriptor.Readable.of_structural? {r : Registry} {shape : Shape}
    {order? : Option (List String)} {d : Descriptor} (h : shape.Readable r)
    (hBuilt : Descriptor.structural? shape order? = .ok d) : d.Readable r := by
  rcases Descriptor.structural?_eq_ok hBuilt with ⟨-, rfl⟩ | ⟨members, order, -, rfl, hPerm, rfl⟩
  · exact .structural h
  · cases h with
    | object hNodup hMembers =>
        refine .structural (.object ?_ fun m hm => ?_)
        · exact (hPerm.nodup_iff.2 hNodup).sublist (Entries.names_reordered_sublist members order)
        · obtain ⟨key, -, hKey⟩ := List.mem_filterMap.1 hm
          obtain ⟨s, hFind, rfl⟩ := Option.map_eq_some_iff.1 hKey
          exact hMembers (key, s) (Entries.mem_of_find? hFind)

/-- A shape has a hash input, whatever its leaves are. -/
theorem ShapeDocument.supportsHashInput {d : ShapeDocument} {type : Descriptor}
    (hType : d.descriptor = .ok type) : type.supportsHashInput = true := by
  rcases Descriptor.structural?_eq_ok hType with ⟨-, rfl⟩ | ⟨_, _, -, -, -, rfl⟩
  · rfl
  · rfl

/-- A shape document is accepted with its key order and its shape, if that is within the limit. -/
theorem ShapeDocument.parse_eq_ok {document : Json} {d : ShapeDocument} :
    parse document = .ok d ↔ ∃ json, document.get? "shape" = some json ∧
      orderOf (document.get? "order") = .ok d.order? ∧ Shape.ofJson json = .ok d.shape ∧
      d.shape.nodes ≤ maxNodes := by
  unfold parse
  cases document.get? "shape" with
  | none => exact ⟨nofun, nofun⟩
  | some json =>
      constructor
      · intro h
        obtain ⟨order?, hOrder, h⟩ := bind_eq_ok.1 h
        obtain ⟨shape, hShape, h⟩ := bind_eq_ok.1 h
        split at h
        · next hFits =>
            cases h
            exact ⟨json, rfl, hOrder, hShape, hFits⟩
        · cases h
      · rintro ⟨_, hJson, hOrder, hShape, hFits⟩
        cases hJson
        exact bind_eq_ok.2 ⟨d.order?, hOrder, bind_eq_ok.2 ⟨d.shape, hShape, if_pos hFits⟩⟩

/-- The type of a shape document is readable. -/
theorem ShapeDocument.readable {r : Registry} {json : Json} (hOrdered : json.Ordered)
    {d : ShapeDocument} (hParse : ShapeDocument.parse json = .ok d) {type : Descriptor}
    (hType : d.descriptor = .ok type) : type.Readable r := by
  obtain ⟨shapeJson, hGet, -, hShape, -⟩ := ShapeDocument.parse_eq_ok.1 hParse
  exact Descriptor.Readable.of_structural? (Shape.readable_ofJson (hOrdered.get? hGet) hShape) hType

end TypedCircuit
