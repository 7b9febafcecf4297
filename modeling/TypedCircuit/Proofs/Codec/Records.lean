import TypedCircuit.Proofs.Codec.Copies
import TypedCircuit.Proofs.Codec.Counts
import TypedCircuit.Proofs.Codec.Unrolling
import TypedCircuit.Proofs.Registration

/-!
# A registered type and its shape

A registered type names its members, and so does the shape of an object. If the shape lists the
types of the members as its leaves, in the order of their registration, both flatten, hash, check
and write the same records in the same way. They bring back the same members, the registered type
under its name and the shape without one.

There are three differences. The registered type refuses records of other types, it is given its
codec when it is used, and it ignores surplus elements. None of them shows on records of the type or
without a name, whose members are lower than they are, nor on exact counts of a type without a
circle.

## Main results

* `Codec.composite_sameOn` — a composite and an object of the same members on a record.
* `Registry.newType_shape` — a type that was newly registered and the type of its shape.
-/

namespace TypedCircuit

namespace Part

variable {lookup lookup' : Lookup} (h : ∀ key, SameResult (lookup key) (lookup' key))
  (members : List (String × Part))
include h

/-! ## Visits of members -/

theorem flattenMembers_same :
    SameResult (flattenMembers lookup members) (flattenMembers lookup' members) :=
  (SameResult.mapM fun m _ => (h m.1).bind fun _ _ => .refl _).bind fun _ _ => .refl _

theorem inputMembers_same :
    SameResult (inputMembers lookup members) (inputMembers lookup' members) :=
  (SameResult.mapM fun m _ => (h m.1).bind fun _ _ => .refl _).bind fun _ _ => .refl _

theorem encodeMembers_same :
    SameResult (encodeMembers lookup members) (encodeMembers lookup' members) :=
  (SameResult.mapM fun m _ => (h m.1).bind fun _ _ => .refl _).bind fun _ _ => .refl _

theorem checkMembers_same :
    SameRun (checkMembers lookup members) (checkMembers lookup' members) :=
  .forM fun m _ => .lift_bind (h m.1) fun _ _ => .refl _

end Part

namespace Codec

/-- Two types do the same to a value, apart from errors. -/
structure SameOn (c c' : Codec) (v : Value) : Prop where
  toFields : SameResult (c.toFields v) (c'.toFields v)
  auxiliary_eq : c.auxiliary v = c'.auxiliary v
  check : SameRun (c.check v) (c'.check v)
  toInput : SameResult (c.toInput v) (c'.toInput v)
  toJson (h : c.capabilities.json = true) (h' : c'.capabilities.json = true) :
    SameResult (c.toJson v) (c'.toJson v)

/-- What does the same as a type with all that is not higher than a value does the same to it. -/
theorem SameOn.of_agrees {c c' d : Codec} {v : Value} (h : c'.SameOn d v)
    (hCapabilities : c.capabilities = c'.capabilities)
    (hAgrees : Part.Agrees v.height c.uncounted c'.uncounted) : c.SameOn d v := by
  have hPart := agrees_part hCapabilities hAgrees
  have hFlatten : c.toFields v = c'.toFields v := hPart.flatten_eq (Nat.le_refl _)
  have hAuxiliary : c.auxiliary v = c'.auxiliary v := hPart.auxiliary_eq (Nat.le_refl _)
  have hCheck : c.check v = c'.check v := hPart.check_eq (Nat.le_refl _)
  have hInput : c.toInput v = c'.toInput v :=
    toInput_congr₂ hCapabilities hAgrees (Nat.le_refl _)
  have hEncode : c.toJson v = c'.toJson v := hPart.encode_eq (Nat.le_refl _)
  exact ⟨hFlatten ▸ h.toFields, hAuxiliary.trans h.auxiliary_eq, hCheck ▸ h.check,
    hInput ▸ h.toInput, fun hJson hJson' => hEncode ▸ h.toJson (hCapabilities ▸ hJson) hJson'⟩

variable {name typeName : String} {json json' : Bool} {members : List (String × Codec)}

/-- What both structures find in a record. -/
private theorem lookups_same (name typeName : String) (tag? : Option String)
    (entries : Entries Value) (key : String) :
    SameResult (lookupMember name entries key)
      (Part.lookupKey typeName (.record tag? entries) key) := by
  intro item
  rw [lookupMember_eq_ok, Part.lookupKey_eq_ok]
  constructor
  · exact fun hFind => ⟨tag?, entries, rfl, hFind⟩
  · rintro ⟨_, _, hSame, hFind⟩
    cases hSame
    exact hFind

theorem onMembers_record {α : Type} (hMembers : members ≠ []) {nothing : α}
    {visit : Part.Lookup → Except Error α} {v : Value} {entries : Entries Value}
    (hRecord : expectRecord name v = .ok entries) :
    onMembers name members nothing visit v = visit (lookupMember name entries) := by
  unfold onMembers
  rw [if_neg (by rwa [List.isEmpty_iff]), hRecord]
  rfl

/-- A composite of some members and an object of the same members, on a record of the composite or
without a type. -/
theorem composite_sameOn (hMembers : members ≠ []) {tag? : Option String} {entries : Entries Value}
    (hRecord : expectRecord name (.record tag? entries) = .ok entries)
    (hJson : json = true → members.all (·.2.capabilities.json) = true) :
    (composite name json members).SameOn
      (ofPart (Part.object typeName (memberParts members)) ⟨true, json'⟩)
      (.record tag? entries) := by
  have hLookup := lookups_same name typeName tag? entries
  have hFlatten : (composite name json members).flatten (.record tag? entries) =
      Part.flattenMembers (lookupMember name entries) (memberParts members) := by
    show onMembers name members ([] : List Signal) (fun lookup =>
      Part.flattenMembers lookup (memberParts members)) _ = _
    rw [onMembers_record hMembers hRecord]
  have hInput : (composite name json members).input (.record tag? entries) =
      Part.inputMembers (lookupMember name entries) (memberParts members) := by
    show onMembers name members HashInput.empty (fun lookup =>
      Part.inputMembers lookup (memberParts members)) _ = _
    rw [onMembers_record hMembers hRecord]
  have hCheck : (composite name json members).check (.record tag? entries) =
      Part.checkMembers (lookupMember name entries) (memberParts members) := by
    show (if members.isEmpty then _ else liftM (expectRecord name _) >>= _) = _
    rw [if_neg (by rwa [List.isEmpty_iff]), hRecord]
    rfl
  refine ⟨fun fields => ?_, auxiliary_composite_ok hRecord, ?_, ?_, fun hOwn hOther => ?_⟩
  · rw [toFields_ok_iff, toFields_ok_iff, hFlatten]
    refine exists_congr fun w => and_congr_right fun _ => and_congr_right fun _ => ?_
    exact Part.flattenMembers_same hLookup _ fields
  · rw [hCheck]
    exact Part.checkMembers_same hLookup _
  · show SameResult ((composite name json members).input _) _
    rw [hInput]
    exact Part.inputMembers_same hLookup _
  · have hEncode : (composite name json members).encode (.record tag? entries) =
        Part.encodeMembers (lookupMember name entries) (memberParts members) := by
      show (if _ then _ else _) = _
      rw [if_pos (hJson hOwn), onMembers_record hMembers hRecord]
    rw [toJson, toJson, if_pos hOwn, if_pos hOther, hEncode]
    exact Part.encodeMembers_same hLookup _

/-- On exact counts a composite and an object bring back the same members, or fail. -/
theorem composite_members {width : Width} {fields : List Signal} {aux : List Value}
    (hWidth : (composite name json members).width () = .ok width)
    (hFields : fields.length = width.fields) (hAux : aux.length = width.aux) :
    ∃ record? : Except Error (Entries Value),
      (composite name json members).ofFieldsWithAux fields aux =
        record?.map (.record (some name)) ∧
      (ofPart (Part.object typeName (memberParts members)) ⟨true, json'⟩).ofFieldsWithAux fields
        aux = record?.map (.record none) := by
  obtain ⟨ws, hws, rfl⟩ := map_eq_ok.1 hWidth
  have hObject : (Part.object typeName (memberParts members)).width () = .ok (Width.sum ws) :=
    hWidth
  refine ⟨Part.rebuildMembers (memberParts members) fields aux, ?_, ?_⟩
  · rw [ofFieldsWithAux_eq hWidth hAux]
    exact (keyed_composite name json members).rebuild_eq hws hFields hAux
  · rw [ofFieldsWithAux_eq hObject hAux]
    exact rebuildExactly_eq hObject hFields hAux

end Codec

/-! ## New types -/

/-- An object that is given the order of its members has them in this order. -/
theorem Descriptor.structural?_ofMembers {leaves : List (String × Shape)}
    (h : (leaves.map Prod.fst).Nodup) :
    Descriptor.structural? (.ofMembers leaves) (some (leaves.map Prod.fst)) =
      .ok (.structural (.object leaves)) := by
  have hOrder := (Entries.nameSet_eq_names_iff (Entries.sorted_ofList leaves)).2
    (Entries.names_ofList_perm h).symm
  have hMembers : ((leaves.map Prod.fst).filterMap fun key =>
      (Entries.find? (Entries.ofList leaves) key).map (key, ·)) = leaves := by
    have hFind : Entries.find? (Entries.ofList leaves) = Entries.find? leaves :=
      funext (Entries.find?_ofList h)
    rw [hFind]
    exact Entries.reordered_self h
  show (if _ then _ else _) = _
  rw [hMembers]
  exact if_pos hOrder

/-- A regular type brings back a value from exact counts. -/
theorem Descriptor.Regular.exists_value {r : Registry} {d : Descriptor} (h : d.Regular r)
    {width : Width} (hWidth : r.width d = .ok width) {fields : List Signal} {aux : List Value}
    (hFields : fields.length = width.fields) (hAux : aux.length = width.aux) :
    ∃ v, (r.codec d).ofFieldsWithAux fields aux = .ok v := by
  obtain ⟨total, hTotal⟩ := h.total
  cases ((Registry.codec_part_width d).symm.trans hTotal.width_eq).symm.trans hWidth
  obtain ⟨v, hOk, -⟩ := hTotal.rebuild_ok hFields hAux
  exact ⟨v, hOk⟩

namespace Registry

/-- The registry in which a type has been registered with members. -/
def withType (r : Registry) (name : String) (members : Schema) : Registry :=
  (r.registerAll name (members.map fun m => (m.1, some m.2))).1

/-- Members of distinct new names are accepted and appended. -/
theorem registerAll_fresh {r : Registry} {name : String} {members : Schema}
    (h : (Entries.names (r.schema name) ++ members.map Prod.fst).Nodup) :
    (r.registerAll name (members.map fun m => (m.1, some m.2))).2 = .ok () ∧
      (r.withType name members).schema name = r.schema name ++ members := by
  unfold withType
  induction members generalizing r with
  | nil => exact ⟨rfl, (List.append_nil _).symm⟩
  | cons m rest ih =>
      obtain ⟨field, d⟩ := m
      have hFree : Schema.member? (r.schema name) field = none := by
        refine Entries.find?_eq_none_iff.2 fun hTaken => ?_
        exact (List.nodup_append.1 h).2.2 field hTaken field List.mem_cons_self rfl
      have hSchema := schema_register_self hFree d
      rw [register_fresh hFree] at hSchema
      rw [List.map_cons, registerAll, register_fresh hFree]
      dsimp only
      have hRest := @ih ⟨(r.opened name).schemas.insert name (r.schema name ++ [(field, d)])⟩ ?_
      · rw [hSchema, List.append_assoc] at hRest
        exact hRest
      · rw [hSchema, Entries.names, List.map_append, List.append_assoc]
        exact h

variable {r : Registry} {name : String} {members : Schema}

/-- A leaf of a shape that is made of a member. -/
private theorem exists_leaf {m : String × Descriptor}
    (h : ∀ other ∈ m.2.outerMentions, r.Sized other) :
    ∃ leaf : String × Shape, (r.leafShape m.2).map (m.1, ·) = .ok leaf ∧
      (leaf.1, leaf.2.part r.names) = (m.1, (r.codec m.2).part) := by
  obtain ⟨width, hWidth⟩ := m.2.exists_width_iff.2 h
  refine ⟨(m.1, .leaf m.2 width), ?_, ?_⟩
  · rw [leafShape, show r.width m.2 = .ok width from hWidth]
    rfl
  · rw [Shape.part_leaf hWidth]

/-- The type of a shape of which the leaves are members. -/
theorem exists_shape (hNodup : (members.map Prod.fst).Nodup)
    (hSized : ∀ m ∈ members, ∀ other ∈ m.2.outerMentions, r.Sized other) :
    ∃ leaves shape typeName json,
      members.mapM (fun m => (r.leafShape m.2).map (m.1, ·)) = .ok leaves ∧
      Descriptor.structural? (.ofMembers leaves) (some (members.map Prod.fst)) = .ok shape ∧
      r.codec shape = Codec.ofPart (Part.object typeName
        (Codec.memberParts (members.map fun m => (m.1, r.codec m.2)))) ⟨true, json⟩ := by
  obtain ⟨leaves, hLeaves⟩ := exists_forall₂ fun m hm => exists_leaf (hSized m hm)
  have hParts : leaves.map (fun leaf => (leaf.1, leaf.2.part r.names)) =
      Codec.memberParts (members.map fun m => (m.1, r.codec m.2)) := by
    rw [Codec.memberParts, List.map_map, eq_comm, ← List.forall₂_eq_eq_eq,
      List.forall₂_map_left_iff, List.forall₂_map_right_iff]
    exact hLeaves.imp fun _ _ h => h.2.symm
  have hNames : leaves.map Prod.fst = members.map Prod.fst :=
    (Entries.names_eq_of_forall₂ (hLeaves.imp fun _ _ h => (congrArg Prod.fst h.2).symm)).symm
  refine ⟨leaves, .structural (.object leaves), (Shape.object leaves).typeName,
    (Shape.object leaves).supportsJson, mapM_eq_ok.2 (hLeaves.imp fun _ _ h => h.1), ?_, ?_⟩
  · rw [← hNames]
    exact Descriptor.structural?_ofMembers (hNames ▸ hNodup)
  · rw [codec, Descriptor.codec, Shape.part_object, hParts]

theorem unrolled_of_schema (h : r.schema name = members) (json : Bool) :
    r.unrolled r.names name json =
      Codec.composite name json (members.map fun m => (m.1, r.codec m.2)) := by
  rw [unrolled, h]
  rfl

/--
A type that is newly registered with members, and the type of the object that has their types as
leaves and their names as its order of keys. They have the same width, and do the same to every
record that is of the new type or has no type: they flatten, gather, check, hash and write it with
the same results, or fail. On exact counts they bring back the same members if these lead to no
circle, one of them as a record of the new type and the other one as a record without a type. They
do bring them back if the leaves inside of the members have kept the widths of their types.
-/
theorem newType_shape (r : Registry) {name : String} {members : Schema}
    (hNew : r.schema name = []) (hMembers : members ≠ []) (hNodup : (members.map Prod.fst).Nodup)
    (hSized : ∀ m ∈ members, ∀ other ∈ m.2.outerMentions,
      (r.withType name members).Sized other) :
    (r.registerAll name (members.map fun m => (m.1, some m.2))).2 = .ok () ∧
    ∃ leaves shape width,
      members.mapM (fun m => ((r.withType name members).leafShape m.2).map (m.1, ·)) = .ok leaves ∧
      Descriptor.structural? (.ofMembers leaves) (some (members.map Prod.fst)) = .ok shape ∧
      (r.withType name members).width ((r.withType name members).composite name) = .ok width ∧
      (r.withType name members).width shape = .ok width ∧
      (∀ tag? entries, tag? = none ∨ tag? = some name →
        Codec.SameOn ((r.withType name members).codec ((r.withType name members).composite name))
          ((r.withType name members).codec shape) (.record tag? entries)) ∧
      ((∀ m ∈ members, ∀ other ∈ m.2.mentions, (r.withType name members).Grounded other) →
        ∀ fields aux, fields.length = width.fields → aux.length = width.aux →
          ∃ record? : Except Error (Entries Value),
            ((r.withType name members).codec
                ((r.withType name members).composite name)).ofFieldsWithAux fields aux =
              record?.map (.record (some name)) ∧
            ((r.withType name members).codec shape).ofFieldsWithAux fields aux =
              record?.map (.record none) ∧
            ((∀ m ∈ members, m.2.Regular (r.withType name members)) →
              ∃ record, record? = .ok record)) := by
  obtain ⟨hRegistered, hSchema⟩ := @registerAll_fresh r name members (by rwa [hNew])
  rw [hNew, List.nil_append] at hSchema
  refine ⟨hRegistered, ?_⟩
  generalize r.withType name members = r' at hSized hSchema
  obtain ⟨leaves, shape, typeName, json', hLeaves, hShape, hObject⟩ := exists_shape hNodup hSized
  have hName : r'.Sized name := by
    refine sized_unroll.2 ?_
    rintro other ⟨m, hm, hOther⟩
    exact hSized m (hSchema ▸ hm) other hOther
  have hUnrolled := unrolled_of_schema hSchema ((r'.schema name).all (·.2.supportsJson))
  have hAgrees := agrees_unrolled hName ((r'.schema name).all (·.2.supportsJson))
  rw [hUnrolled] at hAgrees
  obtain ⟨width, hWidth⟩ := hName
  have hOwn : (Codec.composite name ((r'.schema name).all (·.2.supportsJson))
      (members.map fun m => (m.1, r'.codec m.2))).width () = .ok width :=
    (congrFun (hAgrees 0).width_eq ()).symm.trans hWidth
  have hOther : (r'.codec shape).width () = .ok width := by
    rw [hObject]
    exact hOwn
  refine ⟨leaves, shape, width, hLeaves, hShape, hWidth, (codec_part_width _).symm.trans hOther,
    fun tag? entries hTag => ?_, fun hGrounded fields aux hFields hAux => ?_⟩
  · rw [hObject]
    refine Codec.SameOn.of_agrees (Codec.composite_sameOn (mt List.map_eq_nil_iff.1 hMembers) ?_
      fun hJson => ?_) rfl (hAgrees _)
    · rcases hTag with rfl | rfl
      · rfl
      · exact if_pos rfl
    · rw [hSchema] at hJson
      refine List.all_eq_true.2 fun c hc => ?_
      obtain ⟨m, hm, rfl⟩ := List.mem_map.1 hc
      exact (Descriptor.codec_json r'.names m.2).trans (List.all_eq_true.1 hJson m hm)
  · have hComposite : r'.codec (r'.composite name) =
        r'.unrolled r'.names name ((r'.schema name).all (·.2.supportsJson)) :=
      codec_composite (Grounded.of_members (hSchema.symm ▸ hGrounded)) _
    obtain ⟨record?, hBack, hBack'⟩ := Codec.composite_members hOwn hFields hAux
    rw [hObject, hComposite, hUnrolled]
    refine ⟨record?, hBack, hBack', fun hRegular => ?_⟩
    have hType : (r'.composite name).Regular r' :=
      .composite (hSchema ▸ hNodup) (hSchema ▸ hRegular) _
    obtain ⟨v, hBuilt⟩ := hType.exists_value hWidth hFields hAux
    rw [hComposite, hUnrolled, hBack] at hBuilt
    obtain ⟨record, hRecord, -⟩ := map_eq_ok.1 hBuilt
    exact ⟨record, hRecord⟩

end Registry

/-! ## Parcels -/

/-- The members of parcels: a number, two flags and a seal that has no documents. -/
private def parcelMembers : Schema :=
  [("number", .uint32), ("flags", .array .boolean 2), ("seal", .opaqueHost)]

private theorem regular_parcelMembers (r : Registry) : ∀ m ∈ parcelMembers, m.2.Regular r := by
  intro m hm
  rcases hm with _ | ⟨_, _ | ⟨_, _ | ⟨_, hm⟩⟩⟩
  · exact .leaf .uint32
  · exact .array (.leaf .boolean) 2
  · exact .leaf .opaqueHost
  · cases hm

/-- Parcels and their shape flatten a parcel in the order of registration, whatever else the record
has, and bring back the same members. -/
theorem Registry.newType_shape_parcels :
    ∃ leaves shape record,
      parcelMembers.mapM (fun m =>
        ((Registry.empty.withType "Parcel" parcelMembers).leafShape m.2).map (m.1, ·)) =
          .ok leaves ∧
      Descriptor.structural? (.ofMembers leaves) (some ["number", "flags", "seal"]) = .ok shape ∧
      ((Registry.empty.withType "Parcel" parcelMembers).codec shape).toFields
        (.record none [("extra", .primitive .null), ("flags", .array [.ofBool true, .ofBool false]),
          ("number", .ofElement 5), ("seal", .opaqueValue "wax")]) =
        .ok [.constant 5, .constant 1, .constant 0] ∧
      ((Registry.empty.withType "Parcel" parcelMembers).codec shape).ofFieldsWithAux
        [.constant 5, .constant 1, .constant 0] [.opaqueValue "wax"] =
          .ok (.record none record) ∧
      ((Registry.empty.withType "Parcel" parcelMembers).codec
        (.composite "Parcel" false)).ofFieldsWithAux
          [.constant 5, .constant 1, .constant 0] [.opaqueValue "wax"] =
            .ok (.record (some "Parcel") record) := by
  have hGrounded : ∀ m ∈ parcelMembers, ∀ other ∈ m.2.mentions,
      (Registry.empty.withType "Parcel" parcelMembers).Grounded other :=
    fun m hm => (regular_parcelMembers _ m hm).grounded
  obtain ⟨-, leaves, shape, width, hLeaves, hShape, hWidth, -, hSame, hBack⟩ :=
    @Registry.newType_shape .empty "Parcel" parcelMembers rfl nofun (by decide)
      fun m hm other hOther => (hGrounded m hm other (m.2.outerMentions_subset hOther)).sized
  obtain rfl : width = ⟨3, 1⟩ := (Except.ok.inj hWidth).symm
  obtain ⟨record?, hOwn, hOther, hRecord⟩ :=
    hBack hGrounded [.constant 5, .constant 1, .constant 0] [.opaqueValue "wax"] rfl rfl
  obtain ⟨record, rfl⟩ := hRecord (regular_parcelMembers _)
  exact ⟨leaves, shape, record, hLeaves, hShape,
    ((hSame none _ (.inl rfl)).toFields _).1 rfl, hOther, hOwn⟩

end TypedCircuit
