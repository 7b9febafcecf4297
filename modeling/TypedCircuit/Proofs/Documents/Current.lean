import TypedCircuit.Proofs.Circuit.Checked
import TypedCircuit.Proofs.Documents.Restoring

/-!
# Types that are as the registry has them

A type keeps what it found in the registry when it was built: a composite whether its members had
documents, a leaf of a shape its width. A type is *current* if all of this is so now, in the type
itself and in the types of the members it leads to. A current type that has documents restores
them, also if it has itself as a part. A type that is not current may have documents and refuse
to read any.

Which types are members of which is a matter of the registry, so nothing can be said by induction
on them. The induction is on the height of documents.

## Main results

* `Registry.widthOf_unroll` — a name that has a width has the total width of its members.
* `Part.restores_composite` — a registered type restores documents if its members restore those
  that are lower.
* `Descriptor.UpToDate.decode_total` — a current type reads every document, and what it reads is
  accepted, written and read again.
-/

namespace TypedCircuit

/-! ## Widths of names -/

mutual

/-- A type that has a width has the same one as soon as no name loses its width. -/
theorem Descriptor.width_mono {f g : String → Except Error Width}
    (h : ∀ {name width}, f name = .ok width → g name = .ok width) :
    ∀ (d : Descriptor) {width : Width}, d.width f = .ok width → d.width g = .ok width
  | .leaf _, _, hWidth => hWidth
  | .array element _, _, hWidth => by
      obtain ⟨w, hw, hEq⟩ := map_eq_ok.1 hWidth
      exact map_eq_ok.2 ⟨w, Descriptor.width_mono h element hw, hEq⟩
  | .tuple elements, _, hWidth => Descriptor.totalWidth_mono h elements hWidth
  | .structural _, _, hWidth => hWidth
  | .composite _ _, _, hWidth => h hWidth
  | .unregistered _, _, hWidth => hWidth
  | .plain inner, _, hWidth => Descriptor.width_mono h inner hWidth
  | .misdeclared _ _, _, hWidth => hWidth

theorem Descriptor.totalWidth_mono {f g : String → Except Error Width}
    (h : ∀ {name width}, f name = .ok width → g name = .ok width) :
    ∀ (ds : List Descriptor) {total width : Width},
      Descriptor.totalWidth f total ds = .ok width → Descriptor.totalWidth g total ds = .ok width
  | [], _, _, hWidth => hWidth
  | d :: rest, _, _, hWidth => by
      rw [Descriptor.totalWidth] at hWidth ⊢
      cases hHead : d.width f with
      | error e =>
          rw [hHead] at hWidth
          cases hWidth
      | ok w =>
          rw [hHead] at hWidth
          rw [Descriptor.width_mono h d hHead]
          exact Descriptor.totalWidth_mono h rest hWidth

end

namespace Registry

variable {r : Registry} {name : String} {width : Width}

/-- More steps do not change a width that was found. -/
theorem widthWithin_succ {k : Nat} (h : r.widthWithin k name = .ok width) :
    r.widthWithin (k + 1) name = .ok width := by
  induction k generalizing name width with
  | zero => cases h
  | succ k ih => exact Descriptor.totalWidth_mono (fun hFound => ih hFound) _ h

/-- A name that has a width has the total width of its members. -/
theorem widthOf_unroll (h : r.widthOf name = .ok width) :
    Descriptor.totalWidth r.widthOf Width.zero ((r.schema name).map (·.2)) = .ok width :=
  widthWithin_succ h

/-- The codecs of the members of a name that has a width have this width in total. -/
theorem memberWidths_unroll (h : r.widthOf name = .ok width) {names : Names}
    (hNames : names.width = r.widthOf) :
    (Part.memberWidths (Codec.memberParts
      ((r.schema name).map fun m => (m.1, m.2.codec names)))).map Width.sum = .ok width := by
  rw [← widthOf_unroll h, Descriptor.totalWidth_eq, ← hNames, ← Descriptor.codecs_width,
    Part.memberWidths, Codec.memberParts, List.mapM_map, List.mapM_map, List.mapM_map]
  rfl

end Registry

/-! ## Types as families -/

/-- The part of a type, for each meaning of names. -/
def Descriptor.family (d : Descriptor) (names : Names) : Part := (d.codec names).part

/-- The part of a shape, for each meaning of names. -/
def Shape.family (s : Shape) (names : Names) : Part := s.part names

/-- The parts of members, for each meaning of names. -/
def Schema.families (schema : Schema) : List (String × (Names → Part)) :=
  schema.map fun m => (m.1, m.2.family)

theorem Schema.names_families (schema : Schema) :
    schema.families.map Prod.fst = schema.map Prod.fst := List.map_map

/-! ## Codecs at a position -/

namespace Codec

variable {c : Codec} {capabilities : Capabilities}

theorem part_mirrors (hJson : c.capabilities.json = true) : c.part.Mirrors c.uncounted where
  width_eq h := h
  flatten_eq hWidth hFlat hLength := toFields_of_flatten hFlat hWidth hLength
  check_eq := rfl
  encode_eq := toJson_eq hJson
  decode_eq := fromJson_eq hJson

theorem ofPart_mirrors (p : Part) (hJson : capabilities.json = true) :
    (ofPart p capabilities).part.Mirrors p := by
  have h := part_mirrors (c := ofPart p capabilities) hJson
  exact ⟨h.width_eq, h.flatten_eq, h.check_eq, h.encode_eq, h.decode_eq⟩

end Codec

namespace Part

variable {r : Registry} {n : Nat}

/-! ## The built-in types -/

/-- The built-in types that have documents restore them. -/
theorem restores_leaf {leaf : Leaf} (h : leaf.supportsJson = true) :
    Restores r (fun _ => leaf.codec.part) n where
  restore {json} _ _ _ := by
    have hReads := Leaf.reads h
    obtain ⟨v?, hDecode⟩ := hReads.total json
    refine ⟨v?, hDecode, ?_⟩
    rintro v rfl
    have hSettles := hReads.settles ⟨json, hDecode⟩
    obtain ⟨xs, hFlat, hHolds⟩ := hSettles.flattens
    obtain ⟨e, rfl, hWritten, hRead, hBack⟩ :=
      (Leaf.writes h).exchange hFlat (values_eq_ok.1 (values_constants xs)) hHolds
    -- The value that comes back is the one that was written.
    have hSame : e.back = e.value := by
      rw [leaf.lawful.rebuild_flatten hFlat, hSettles.canonical_eq] at hBack
      exact (Except.ok.inj hBack).symm
    have hAccepts : leaf.codec.part.Accepts ⟨e.value, xs, e.document⟩ := by
      refine ⟨fun hWidth => ⟨hFlat, ?_⟩, fun runs => ?_, hWritten⟩
      · obtain ⟨width, hOwn, hLength⟩ := Codec.length_of_toFields hFlat
        cases hOwn.symm.trans hWidth
        exact (List.length_map _).symm.trans hLength
      · exact (congrFun (leaf.lawful.check_eq hFlat) runs).trans
          (assertRules_constants hHolds runs)
    refine ⟨_, rfl, fun _ => hAccepts, fun _ => ?_⟩
    exact hRead.trans (congrArg (fun v => Except.ok (some v)) hSame)

/-- A type without members reads every object as the record without members. -/
theorem restores_unregistered (name : String) :
    Restores r (fun _ => (Codec.composite name true []).part) n where
  restore {json} _ _ _ := by
    refine ⟨json.object?.map fun _ => .record (some name) [], ?_, fun v hv => ?_⟩
    · cases json <;> rfl
    · obtain ⟨_, -, rfl⟩ := Option.map_eq_some_iff.1 hv
      have hAccepts : (Codec.composite name true []).part.Accepts
          ⟨.record (some name) [], [], .object []⟩ := by
        refine ⟨fun hWidth => ?_, fun _ => rfl, rfl⟩
        cases hWidth
        exact ⟨rfl, rfl⟩
      exact ⟨_, rfl, fun _ => hAccepts, fun _ => rfl⟩

/-! ## Registered types -/

section Composite

variable {name : String}

/-- A codec is built of the parts of the members of a name. -/
structure Built (r : Registry) (name : String) (inner : Names) (c : Codec) : Prop where
  keyed : c.uncounted.Keyed (partsOf inner (r.schema name).families) (some name)
    (Codec.lookupIn name)
  encode_eq {v : Value} {items : List Value}
    (h : Finds (Codec.lookupIn name v)
      ((partsOf inner (r.schema name).families).map Prod.fst) items) :
    c.uncounted.encode v =
      encodeMembers (Codec.lookupIn name v) (partsOf inner (r.schema name).families)
  decode_eq : c.uncounted.decode =
    decodeRecord (some name) (partsOf inner (r.schema name).families)
  width_eq {width : Width} (h : r.widthOf name = .ok width) : c.uncounted.width () = .ok width

/-- What a registered type does with something is done by a codec that is built for what is
inside. -/
theorem exists_built {names : Names} {size : Nat} (hNames : names.Serves r size)
    (hPos : 0 < size) (hJson : ∀ m ∈ r.schema name, m.2.supportsJson = true) :
    ∃ inner c, inner.Serves r (size - 1) ∧
      (names.members size name).map (Codec.composite name true) = .ok c ∧
      Built r name inner c := by
  obtain ⟨inner, hInner, hMembers⟩ := hNames.unroll hPos name
  have hParts : Codec.memberParts ((r.schema name).map fun m => (m.1, m.2.codec inner)) =
      partsOf inner (r.schema name).families := by
    rw [Codec.memberParts, partsOf, Schema.families, List.map_map, List.map_map]
    rfl
  have hStill : ((r.schema name).map fun m => (m.1, m.2.codec inner)).all
      (·.2.capabilities.json) = true := by
    refine List.all_eq_true.2 fun m hm => ?_
    obtain ⟨member, hMember, rfl⟩ := List.mem_map.1 hm
    exact (Descriptor.codec_json inner member.2).trans (hJson member hMember)
  refine ⟨inner, _, hInner, congrArg (Except.map _) hMembers, ?_, fun {v items} hFinds => ?_, ?_,
    fun hWidth => Registry.memberWidths_unroll hWidth hInner.width_eq⟩
  · rw [← hParts]
    exact Codec.keyed_composite name true _
  · rw [← hParts] at hFinds ⊢
    show (if _ then _ else _) = _
    rw [if_pos hStill]
    exact Codec.onMembers_eq hFinds fun hNone => by rw [hNone]; rfl
  · rw [← hParts]
    funext json
    show (if _ then _ else _) = _
    rw [if_pos hStill]
    rfl

theorem keeps_composite {ks : List Kept} (hNodup : ((r.schema name).map Prod.fst).Nodup)
    (hJson : ∀ m ∈ r.schema name, m.2.supportsJson = true)
    (h : List.Forall₂ (Keeps r) ((r.schema name).families.map Prod.snd) ks) :
    Keeps r (Descriptor.composite name true).family
      (.record (some name) ((r.schema name).families.map Prod.fst) ks) where
  accepts {names} hNames := by
    rw [← Schema.names_families] at hNodup
    obtain ⟨inner, c, hInner, hBuild, hBuilt⟩ := exists_built hNames (Value.height_pos _) hJson
    have hAccepts := hBuilt.keyed.accepts_kept hBuilt.encode_eq hNodup h fun k hk =>
      hInner.mono (Nat.le_sub_one_of_lt (heights_of_record hNodup h (some name) hk).1)
    refine hAccepts.of_agree (fun hOwn => hBuilt.width_eq ?_) (fun hOwn hFlat hLength => ?_) ?_ ?_
    · rw [← hNames.width_eq]
      exact hOwn
    · refine Codec.toFields_of_flatten ?_ hOwn hLength
      exact bind_eq_ok.2 ⟨c, hBuild, hFlat⟩
    · show (liftM ((names.members _ name).map (Codec.composite name true)) >>= fun c : Codec =>
        c.check _ : Circuit Unit) = _
      rw [hBuild]
      rfl
    · show ((names.members _ name).map (Codec.composite name true) >>= fun c : Codec =>
        c.encode _) = _
      rw [hBuild]
      rfl
  reads {names} hNames := by
    rw [← Schema.names_families] at hNodup
    obtain ⟨inner, c, hInner, hBuild, hBuilt⟩ := exists_built hNames (Json.height_pos _) hJson
    have hReads := Keyed.reads_kept hBuilt.decode_eq hNodup h fun k hk =>
      hInner.mono (Nat.le_sub_one_of_lt (heights_of_record hNodup h (some name) hk).2)
    exact bind_eq_ok.2 ⟨c, hBuild, hReads⟩

/-- A registered type restores documents if its members restore those that are lower. -/
theorem restores_composite (hNodup : ((r.schema name).map Prod.fst).Nodup)
    (hJson : ∀ m ∈ r.schema name, m.2.supportsJson = true)
    (h : ∀ m ∈ r.schema name, Restores r m.2.family n) :
    Restores r (Descriptor.composite name true).family (n + 1) where
  restore {json} hHeight names hNames := by
    obtain ⟨inner, c, hInner, hBuild, hBuilt⟩ := exists_built hNames json.height_pos hJson
    have hMembers : ∀ m ∈ (r.schema name).families, Restores r m.2 n := fun m hm => by
      obtain ⟨member, hMember, rfl⟩ := List.mem_map.1 hm
      exact h member hMember
    obtain ⟨v?, hRead, hKept⟩ := restore_record hMembers hHeight hInner (some name)
    have hDecode := (congrFun hBuilt.decode_eq json).trans hRead
    refine ⟨v?, bind_eq_ok.2 ⟨c, hBuild, hDecode⟩, fun v hv => ?_⟩
    obtain ⟨ks, hValue, hAll⟩ := hKept v hv
    exact ⟨_, hValue, keeps_composite hNodup hJson hAll⟩

end Composite

end Part

/-! ## Current types -/

mutual

/-- A type that is as the registry has it, and mentions known names only. -/
inductive Descriptor.Current (r : Registry) (known : String → Prop) : Descriptor → Prop where
  | leaf (type : Leaf) : Descriptor.Current r known (.leaf type)
  | array {element : Descriptor} (h : Descriptor.Current r known element) (length : Nat) :
    Descriptor.Current r known (.array element length)
  | tuple {elements : List Descriptor} (h : ∀ d ∈ elements, Descriptor.Current r known d) :
    Descriptor.Current r known (.tuple elements)
  | structural {root : Shape} (h : Shape.Current r known root) :
    Descriptor.Current r known (.structural root)
  | composite {name : String} (h : known name) :
    Descriptor.Current r known (.composite name ((r.schema name).all (·.2.supportsJson)))
  | unregistered (name : String) : Descriptor.Current r known (.unregistered name)
  | plain {inner : Descriptor} (h : Descriptor.Current r known inner) :
    Descriptor.Current r known (.plain inner)
  | misdeclared (claims produces : Nat) : Descriptor.Current r known (.misdeclared claims produces)

/-- A shape whose leaves are current and have the width they have now. -/
inductive Shape.Current (r : Registry) (known : String → Prop) : Shape → Prop where
  | leaf {type : Descriptor} {width : Width} (h : Descriptor.Current r known type)
    (hWidth : r.width type = .ok width) : Shape.Current r known (.leaf type width)
  | array {items : List Shape} (h : ∀ s ∈ items, Shape.Current r known s) :
    Shape.Current r known (.array items)
  | object {members : List (String × Shape)} (hNodup : (members.map Prod.fst).Nodup)
    (h : ∀ m ∈ members, Shape.Current r known m.2) : Shape.Current r known (.object members)
  | constant (json : Json) : Shape.Current r known (.constant json)

end

/-- The members of known names are current, and have distinct names. -/
structure Registry.CurrentOn (r : Registry) (known : String → Prop) : Prop where
  nodup {name : String} (h : known name) : ((r.schema name).map Prod.fst).Nodup
  current {name : String} (h : known name) {m : String × Descriptor} (hm : m ∈ r.schema name) :
    m.2.Current r known

/-- A type is as the registry has it, and so are all types of members it leads to. -/
def Descriptor.UpToDate (r : Registry) (d : Descriptor) : Prop :=
  ∃ known, r.CurrentOn known ∧ d.Current r known

section

variable {r : Registry} {known : String → Prop} {n : Nat}

/-- The part of a leaf of a shape does what the codec of its type does. -/
theorem Shape.leaf_mirrors {type : Descriptor} {width : Width} (hWidth : r.width type = .ok width)
    {names : Names} {size : Nat} (hNames : names.Serves r size) :
    ((Shape.leaf type width).part names).Mirrors (type.codec names).part where
  width_eq h := by
    cases h
    exact (Descriptor.codec_width names type).trans (hNames.width_eq ▸ hWidth)
  flatten_eq _ hFlat _ := hFlat
  check_eq := rfl
  encode_eq := rfl
  decode_eq := rfl

theorem Part.restores_tuple {ds : List Descriptor} (h : ∀ d ∈ ds, Part.Restores r d.family n)
    (hJson : (Descriptor.tuple ds).supportsJson = true) :
    Part.Restores r (Descriptor.tuple ds).family n := by
  have hAll : ∀ f ∈ ds.map Descriptor.family, Part.Restores r f n := fun f hf => by
    obtain ⟨d, hd, rfl⟩ := List.mem_map.1 hf
    exact h d hd
  refine (Part.restores_sequence hAll (Descriptor.tuple ds).typeName).mirror fun {names _} _ => ?_
  have hParts : (ds.map Descriptor.family).map (· names) =
      (ds.map (·.codec names)).map Codec.part := by
    rw [List.map_map, List.map_map]
    rfl
  rw [Descriptor.family, Descriptor.codec_tuple, hParts]
  exact Codec.ofPart_mirrors _ ((Descriptor.codecs_json names ds).trans hJson)

theorem Part.restores_array {items : List Shape} (h : ∀ s ∈ items, Part.Restores r s.family n) :
    Part.Restores r (Shape.array items).family n := by
  have hAll : ∀ f ∈ items.map Shape.family, Part.Restores r f n := fun f hf => by
    obtain ⟨s, hs, rfl⟩ := List.mem_map.1 hf
    exact h s hs
  have hFamily : (Shape.array items).family = fun names =>
      Part.sequence (Shape.array items).typeName ((items.map Shape.family).map (· names)) := by
    funext names
    rw [Shape.family, Shape.part_array, List.map_map]
    rfl
  rw [hFamily]
  exact Part.restores_sequence hAll _

theorem Part.restores_members {members : List (String × Shape)}
    (hNodup : (members.map Prod.fst).Nodup) (h : ∀ m ∈ members, Part.Restores r m.2.family n) :
    Part.Restores r (Shape.object members).family n := by
  have hAll : ∀ m ∈ members.map fun m => (m.1, m.2.family), Part.Restores r m.2 n := fun m hm => by
    obtain ⟨member, hMember, rfl⟩ := List.mem_map.1 hm
    exact h member hMember
  have hKeys : (members.map fun m => (m.1, m.2.family)).map Prod.fst = members.map Prod.fst :=
    List.map_map
  have hFamily : (Shape.object members).family = fun names =>
      Part.object (Shape.object members).typeName
        (Part.partsOf names (members.map fun m => (m.1, m.2.family))) := by
    funext names
    rw [Shape.family, Shape.part_object, Part.partsOf, List.map_map]
    rfl
  rw [hFamily]
  exact Part.restores_object (hKeys ▸ hNodup) hAll _

mutual

/-- A current type that has documents restores those of up to a height, if registered types do. -/
theorem Descriptor.Current.restores
    (hNames : ∀ name, known name → (∀ m ∈ r.schema name, m.2.supportsJson = true) →
      Part.Restores r (Descriptor.composite name true).family n) {d : Descriptor} :
    d.Current r known → d.supportsJson = true → Part.Restores r d.family n
  | .leaf _, hJson => Part.restores_leaf hJson
  | .array hElement length, hJson =>
      ((hElement.restores hNames hJson).replicated _ length).mirror fun {names _} _ =>
        Codec.ofPart_mirrors _ ((Descriptor.codec_json names _).trans hJson)
  | .tuple hElements, hJson =>
      Part.restores_tuple (fun d hd =>
        (hElements d hd).restores hNames (Descriptor.allSupportJson_iff.1 hJson d hd)) hJson
  | .structural hRoot, hJson =>
      (hRoot.restores hNames hJson).mirror fun {names _} _ => Codec.ofPart_mirrors _ hJson
  | .composite hKnown, hJson => by
      have hMembers := List.all_eq_true.1 hJson
      rw [show List.all _ _ = true from hJson]
      exact hNames _ hKnown hMembers
  | .unregistered name, _ => Part.restores_unregistered name

/-- A current shape that has documents restores those of up to a height, if registered types do. -/
theorem Shape.Current.restores
    (hNames : ∀ name, known name → (∀ m ∈ r.schema name, m.2.supportsJson = true) →
      Part.Restores r (Descriptor.composite name true).family n) {s : Shape} :
    s.Current r known → s.supportsJson = true → Part.Restores r s.family n
  | .leaf hType hWidth, hJson =>
      (hType.restores hNames hJson).mirror fun hServes => Shape.leaf_mirrors hWidth hServes
  | .array hItems, hJson =>
      Part.restores_array fun s hs =>
        (hItems s hs).restores hNames (Shape.itemsSupportJson_iff.1 hJson s hs)
  | .object hNodup hMembers, hJson =>
      Part.restores_members hNodup fun m hm =>
        (hMembers m hm).restores hNames (Shape.membersSupportJson_iff.1 hJson m hm)
  | .constant json, _ => Part.restores_constant _ json

end

/-- Registered types whose members are current restore documents of every height. -/
theorem Registry.CurrentOn.restores (h : r.CurrentOn known) (n : Nat) :
    ∀ name, known name → (∀ m ∈ r.schema name, m.2.supportsJson = true) →
      Part.Restores r (Descriptor.composite name true).family n := by
  induction n with
  | zero =>
      intro name _ _
      exact ⟨fun {json} hHeight => absurd hHeight (Nat.not_le_of_lt json.height_pos)⟩
  | succ n ih =>
      intro name hKnown hJson
      refine Part.restores_composite (h.nodup hKnown) hJson fun m hm => ?_
      exact (h.current hKnown hm).restores ih (hJson m hm)

/--
A type that is up to date and has documents never fails to read one. What it reads passes its
check, in a circuit or not, and is written as a document that is read as the same value. If the
type has a width, the value flattens to as many constants.
-/
theorem Descriptor.UpToDate.decode_total {d : Descriptor} (h : d.UpToDate r)
    (hJson : d.supportsJson = true) (json : Json) :
    ∃ v?, (r.codec d).fromJson json = .ok v? ∧ ∀ v, v? = some v →
      (∀ runs, (r.codec d).check v runs = (.ok (), runs)) ∧
      (∃ written, (r.codec d).toJson v = .ok written ∧
        (r.codec d).fromJson written = .ok (some v)) ∧
      ∀ width, r.width d = .ok width → ∃ xs : List Element,
        (r.codec d).toFields v = .ok (xs.map .constant) ∧ xs.length = width.fields := by
  obtain ⟨known, hCurrentOn, hCurrent⟩ := h
  have hRestores := hCurrent.restores (hCurrentOn.restores json.height) hJson
  obtain ⟨v?, hDecode, hKept⟩ := hRestores.restore (Nat.le_refl _) (Names.serves_names r _)
  refine ⟨v?, hDecode, fun v hv => ?_⟩
  obtain ⟨k, rfl, hKeeps⟩ := hKept v hv
  have hAccepts := hKeeps.accepts (Names.serves_names r _)
  refine ⟨hAccepts.check_eq, ⟨k.document, hAccepts.writes, ?_⟩, fun width hWidth => ?_⟩
  · exact hKeeps.reads (Names.serves_names r _)
  · obtain ⟨hFlat, hLength⟩ := hAccepts.flatten_eq ((Descriptor.codec_width r.names d).trans hWidth)
    exact ⟨k.elements, hFlat, hLength⟩

end

/-! ## Envelopes -/

/-- A registry with letters, which have a text. -/
private def letters : Registry := (Registry.empty.register "Letter" "text" (some .field)).1

/-- Envelopes hold a letter, as letters are now. -/
private def envelopes : Registry :=
  (letters.register "Envelope" "letter" (some (letters.composite "Letter"))).1

/-- An envelope, the weight of what is in it and the most it may be. -/
private def parcel : Descriptor :=
  .tuple [envelopes.composite "Envelope",
    .structural (.object [("weights", .array [.leaf .uint32 ⟨1, 0⟩, .constant (.nat 20)])])]

/-- A parcel of which all numbers are integers. -/
private def parcelDocument : Json :=
  .array [.object [("letter", .object [("text", .nat 5)])],
    .object [("weights", .array [.nat 12, .nat 20])]]

private theorem parcel_upToDate : parcel.UpToDate envelopes := by
  refine ⟨fun name => name = "Envelope" ∨ name = "Letter", ⟨?_, ?_⟩, .tuple fun d hd => ?_⟩
  · rintro name (rfl | rfl) <;> decide
  · rintro name (rfl | rfl) m hm
    · obtain rfl := List.mem_singleton.1 hm
      exact .composite (.inr rfl)
    · obtain rfl := List.mem_singleton.1 hm
      exact .leaf .field
  · rcases hd with _ | ⟨_, _ | ⟨_, hd⟩⟩
    · exact .composite (.inl rfl)
    · refine .structural (.object (by decide) fun m hm => ?_)
      obtain rfl := List.mem_singleton.1 hm
      refine .array fun s hs => ?_
      rcases hs with _ | ⟨_, _ | ⟨_, hs⟩⟩
      · exact .leaf (.leaf .uint32) rfl
      · exact .constant _
      · cases hs
    · cases hd

/-- A parcel is read from integers as constants, and comes back from what is written. -/
theorem decode_total_parcel :
    ∃ v written, ∃ xs : List Element,
      (envelopes.codec parcel).fromJson parcelDocument = .ok (some v) ∧
        (envelopes.codec parcel).check v [] = (.ok (), []) ∧
        (envelopes.codec parcel).toJson v = .ok written ∧
        (envelopes.codec parcel).fromJson written = .ok (some v) ∧
        (envelopes.codec parcel).toFields v = .ok (xs.map .constant) ∧ xs.length = 2 := by
  obtain ⟨v, hRead⟩ : ∃ v, (envelopes.codec parcel).fromJson parcelDocument = .ok (some v) :=
    ⟨_, rfl⟩
  obtain ⟨v?, hTotal, hKept⟩ := parcel_upToDate.decode_total rfl parcelDocument
  obtain ⟨hCheck, ⟨written, hWritten, hBack⟩, hFlat⟩ :=
    hKept v (Except.ok.inj (hTotal.symm.trans hRead))
  obtain ⟨xs, hFields, hLength⟩ := hFlat ⟨2, 0⟩ rfl
  exact ⟨v, written, xs, hRead, hCheck [], hWritten, hBack, hFields, hLength⟩

/-- Letters are sealed with host data after envelopes have been registered. -/
private def sealings : Registry := (envelopes.register "Letter" "seal" (some .opaqueHost)).1

/-- An envelope that is mentioned now has documents, because it says so of its letter, which had
them when the envelope was registered. It refuses to read one, because its letter has none. -/
theorem decode_refused_envelope :
    (sealings.composite "Envelope").supportsJson = true ∧
      (sealings.codec (sealings.composite "Envelope")).fromJson
          (.object [("letter", .object [("text", .nat 5)])]) =
        .error (.missingCapability "Letter" .json) := ⟨rfl, rfl⟩

end TypedCircuit
