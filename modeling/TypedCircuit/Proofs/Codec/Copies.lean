import TypedCircuit.Proofs.Codec.Fitting
import TypedCircuit.Proofs.Codec.Results
import TypedCircuit.Proofs.Documents.Current

/-!
# Three ways to repeat a type

An array of a type, a tuple of copies of it and a shape that lists copies of it hold the same
values. They are built differently. An array has one element and multiplies its width, a tuple has a
type at each position and adds the widths up, and a shape adds up the widths its leaves had when it
was made. Here the three are shown to do the same in everything, except for the name that an error
says.

Each of them walks through its items in its own way, by blocks, by shares or by running offsets, and
verifies their number first. The walks do the same, also on a machine on which the sizes of the
array fit: those of the other two are sums of as many equal widths, and fit then as well. The one
operation that verifies nothing is the gathering of auxiliary entries: of an array of another
length, an array gathers those of every item, and the others stop where the positions or the items
end. That makes no difference to a type with documents, because its values have no auxiliary
entries. What has any is host data, which is not written.

## Main results

* `Descriptor.UpToDate.auxiliary_eq_nil` — a current type with documents has no auxiliary entries.
* `Registry.copies_agree` — an array, a tuple of copies and a shape of copies do the same.
-/

namespace TypedCircuit

/-! ## The same outcomes -/

/-- Two positions do the same, apart from errors and from auxiliary entries. -/
structure Part.SameOutcomes (p q : Part) : Prop where
  width_eq : p.width () = q.width ()
  flatten (v : Value) : SameResult (p.flatten v) (q.flatten v)
  rebuild (fields : List Signal) (aux : List Value) :
    SameResult (p.rebuild fields aux) (q.rebuild fields aux)
  check (v : Value) : SameRun (p.check v) (q.check v)
  input (v : Value) : SameResult (p.input v) (q.input v)
  encode (v : Value) : SameResult (p.encode v) (q.encode v)
  decode (json : Json) : SameResult (p.decode json) (q.decode json)

/-- Two types do the same, apart from errors and from auxiliary entries. -/
structure Codec.SameOutcomes (c c' : Codec) : Prop where
  width_eq : c.width () = c'.width ()
  toFields (v : Value) : SameResult (c.toFields v) (c'.toFields v)
  ofFieldsWithAux (fields : List Signal) (aux : List Value) :
    SameResult (c.ofFieldsWithAux fields aux) (c'.ofFieldsWithAux fields aux)
  check (v : Value) : SameRun (c.check v) (c'.check v)
  toInput (v : Value) : SameResult (c.toInput v) (c'.toInput v)
  toJson (v : Value) : SameResult (c.toJson v) (c'.toJson v)
  fromJson (json : Json) : SameResult (c.fromJson json) (c'.fromJson json)

/-- Types that take exactly the counts of positions do what the positions do. -/
theorem Codec.SameOutcomes.ofPart {p q : Part} (h : p.SameOutcomes q)
    (capabilities : Capabilities) :
    (Codec.ofPart p capabilities).SameOutcomes (Codec.ofPart q capabilities) := by
  have hWidth : ∀ w, p.width () = .ok w ↔ q.width () = .ok w := fun w => by rw [h.width_eq]
  refine ⟨h.width_eq, fun v fields => ?_, fun fields aux v => ?_, h.check,
    fun v => (h.input v).guarded _ _, fun v => (h.encode v).guarded _ _,
    fun json => (h.decode json).guarded _ _⟩
  · rw [toFields_ok_iff, toFields_ok_iff]
    refine exists_congr fun w => and_congr (hWidth w) (and_congr_right fun _ => ?_)
    exact h.flatten v fields
  · have hExactly : rebuildExactly p fields aux = .ok v ↔ rebuildExactly q fields aux = .ok v := by
      rw [rebuildExactly_eq_ok, rebuildExactly_eq_ok]
      refine exists_congr fun w => and_congr (hWidth w) (and_congr_right fun _ => ?_)
      exact and_congr_right fun _ => h.rebuild fields aux v
    rw [ofFieldsWithAux_eq_ok, ofFieldsWithAux_eq_ok]
    exact exists_congr fun w => and_congr (hWidth w) (and_congr_right fun _ => hExactly)

namespace Part

variable {p : Part}

/-! ## Sequences and copies -/

private theorem expectItems_same (typeName typeName' : String) (count : Nat) (v : Value) :
    SameResult (expectItems typeName count v) (expectItems typeName' count v) :=
  fun _ => expectItems_eq_ok.trans expectItems_eq_ok.symm

/-- The name of a sequence is said in errors only. -/
theorem sameOutcomes_sequence (typeName typeName' : String) (parts : List Part) :
    (sequence typeName parts).SameOutcomes (sequence typeName' parts) where
  width_eq := rfl
  flatten v := (expectItems_same _ _ _ v).bind fun _ _ => .refl _
  rebuild _ _ := .refl _
  check v := .lift_bind (expectItems_same _ _ _ v) fun _ _ => .refl _
  input v := (expectItems_same _ _ _ v).bind fun _ _ => .refl _
  encode v := (expectItems_same _ _ _ v).bind fun _ _ => .refl _
  decode _ := .refl _

/-- Copies of a part that has a width are the sequence of the copies. -/
theorem sameOutcomes_replicated {width : Width} (h : p.width () = .ok width)
    (typeName typeName' : String) (count : Nat) :
    (replicated typeName p count).SameOutcomes (sequence typeName' (List.replicate count p)) := by
  have hSequence := sameOutcomes_sequence typeName typeName' (List.replicate count p)
  refine ⟨?_, fun v => ?_, fun fields aux => ?_, fun v => ?_, fun v => ?_, fun v => ?_,
    fun json => ?_⟩
  · rw [replicated_width h]
    exact hSequence.width_eq
  · rw [replicated_flatten]
    exact hSequence.flatten v
  · rw [replicated_rebuild h]
    exact hSequence.rebuild fields aux
  · rw [replicated_check]
    exact hSequence.check v
  · rw [replicated_input]
    exact hSequence.input v
  · rw [replicated_encode]
    exact hSequence.encode v
  · rw [replicated_decode]
    exact hSequence.decode json

end Part

/-! ## Auxiliary entries -/

section

variable {r : Registry} {known : String → Prop} {names : Names}

/-- The members of a known name have no auxiliary entries if all of them have documents. -/
def Names.Bare (names : Names) (r : Registry) (known : String → Prop) : Prop :=
  ∀ name, known name → (∀ m ∈ r.schema name, m.2.supportsJson = true) →
    ∀ size members, names.members size name = .ok members →
      ∀ m ∈ members, ∀ v, m.2.auxiliary v = []

theorem Part.auxiliaryAll_eq_nil {parts : List Part} (h : ∀ p ∈ parts, ∀ v, p.auxiliary v = [])
    (items : List Value) : auxiliaryAll parts items = [] :=
  List.flatMap_eq_nil_iff.2 fun pair hPair => h pair.1 (List.of_mem_zip hPair).1 pair.2

theorem Part.auxiliaryMembers_eq_nil {members : List (String × Part)}
    (h : ∀ m ∈ members, ∀ v, m.2.auxiliary v = []) (record : Entries Value) :
    auxiliaryMembers members record = [] := by
  refine List.flatMap_eq_nil_iff.2 fun m hm => ?_
  show ((record.find? m.1).map m.2.auxiliary).getD [] = []
  cases record.find? m.1 with
  | none => rfl
  | some v => exact h m hm v

theorem Codec.composite_auxiliary_eq_nil {name : String} {json : Bool}
    {members : List (String × Codec)} (h : ∀ m ∈ members, ∀ v, m.2.auxiliary v = []) (v : Value) :
    (composite name json members).auxiliary v = [] := by
  cases hRecord : expectRecord name v with
  | error e => exact auxiliary_composite_error hRecord
  | ok record =>
      rw [auxiliary_composite_ok hRecord]
      refine Part.auxiliaryMembers_eq_nil (fun m hm => ?_) record
      obtain ⟨member, hMember, rfl⟩ := List.mem_map.1 hm
      exact h member hMember

theorem Names.Bare.composite (hNames : names.Bare r known) {name : String} (hKnown : known name)
    (hJson : ∀ m ∈ r.schema name, m.2.supportsJson = true) (json : Bool) (v : Value) :
    (names.composite name json).auxiliary v = [] := by
  simp only [Names.composite, Codec.deferred]
  cases hMembers : names.members v.height name with
  | error e => rfl
  | ok members =>
      exact Codec.composite_auxiliary_eq_nil (hNames name hKnown hJson _ members hMembers) v

mutual

theorem Descriptor.Current.auxiliary_eq_nil (hNames : names.Bare r known) {d : Descriptor} :
    d.Current r known → d.supportsJson = true → ∀ v, (d.codec names).auxiliary v = []
  | .leaf type, hJson => by
      cases type with
      | field | boolean | uint32 => exact fun _ => rfl
      | opaqueHost => cases hJson
  | .array hElement length, hJson => by
      intro v
      cases v with
      | array items =>
          exact List.flatMap_eq_nil_iff.2 fun item _ => hElement.auxiliary_eq_nil hNames hJson item
      | signal | bit | record | primitive | opaqueValue => rfl
  | .tuple hElements, hJson => by
      intro v
      rw [Descriptor.codec_tuple]
      cases v with
      | array items =>
          refine Part.auxiliaryAll_eq_nil (fun p hp => ?_) items
          obtain ⟨_, hCodec, rfl⟩ := List.mem_map.1 hp
          obtain ⟨d, hd, rfl⟩ := List.mem_map.1 hCodec
          have hElement := Descriptor.allSupportJson_iff.1 hJson d hd
          exact (hElements d hd).auxiliary_eq_nil hNames hElement
      | signal | bit | record | primitive | opaqueValue => rfl
  | .structural hRoot, hJson => hRoot.auxiliary_eq_nil hNames hJson
  | .composite hKnown, hJson => hNames.composite hKnown (List.all_eq_true.1 hJson) _
  | .unregistered name, _ => Codec.composite_auxiliary_eq_nil nofun

theorem Shape.Current.auxiliary_eq_nil (hNames : names.Bare r known) {s : Shape} :
    s.Current r known → s.supportsJson = true → ∀ v, (s.part names).auxiliary v = []
  | .leaf hType _, hJson => hType.auxiliary_eq_nil hNames hJson
  | .array hItems, hJson => by
      intro v
      rw [Shape.part_array]
      cases v with
      | array items =>
          refine Part.auxiliaryAll_eq_nil (fun p hp => ?_) items
          obtain ⟨s, hs, rfl⟩ := List.mem_map.1 hp
          exact (hItems s hs).auxiliary_eq_nil hNames (Shape.itemsSupportJson_iff.1 hJson s hs)
      | signal | bit | record | primitive | opaqueValue => rfl
  | .object _ hMembers, hJson => by
      intro v
      rw [Shape.part_object]
      cases v with
      | record tag? entries =>
          refine Part.auxiliaryMembers_eq_nil (fun m hm => ?_) entries
          obtain ⟨member, hMember, rfl⟩ := List.mem_map.1 hm
          exact (hMembers member hMember).auxiliary_eq_nil hNames
            (Shape.membersSupportJson_iff.1 hJson member hMember)
      | signal | bit | array | primitive | opaqueValue => rfl
  | .constant _, _ => fun _ => rfl

end

theorem Registry.CurrentOn.bare (h : r.CurrentOn known) (steps : Nat) :
    Names.Bare ⟨r.widthOf, fun _ => r.membersWithin steps⟩ r known := by
  induction steps with
  | zero => exact fun _ _ _ _ _ hMembers => nomatch hMembers
  | succ steps ih =>
      intro name hKnown hJson size members hMembers m hm
      cases hMembers
      obtain ⟨member, hMember, rfl⟩ := List.mem_map.1 hm
      exact (h.current hKnown hMember).auxiliary_eq_nil ih (hJson member hMember)

/-- A current type with documents has no auxiliary entries. -/
theorem Descriptor.UpToDate.auxiliary_eq_nil {d : Descriptor} (h : d.UpToDate r)
    (hJson : d.supportsJson = true) (v : Value) : (r.codec d).auxiliary v = [] := by
  obtain ⟨known, hCurrentOn, hCurrent⟩ := h
  refine hCurrent.auxiliary_eq_nil (fun name hKnown hMembers size => ?_) hJson v
  exact hCurrentOn.bare (r.steps size) name hKnown hMembers size

end

/-! ## Types of copies -/

/-- A leaf of a shape is its type at a position, as long as its width is that of the type. -/
theorem Shape.part_leaf {r : Registry} {d : Descriptor} {width : Width}
    (h : r.width d = .ok width) : (Shape.leaf d width).part r.names = (r.codec d).part := by
  have hWidth : (fun _ => .ok width) = (r.codec d).part.width :=
    funext fun _ => ((Registry.codec_part_width d).trans h).symm
  show { (r.codec d).part with width := fun _ => .ok width } = _
  rw [hWidth]

namespace Registry

variable {r : Registry} {d : Descriptor} {n : Nat} {width : Width}

private theorem codec_copies_array (hFull : (r.codec d).capabilities = ⟨true, true⟩) :
    r.codec (.array d n) = Codec.ofPart
      (Part.replicated (Descriptor.array d n).typeName (r.codec d).part n) ⟨true, true⟩ :=
  congrArg (Codec.ofPart _) hFull

private theorem codec_copies_tuple (hFull : (r.codec d).capabilities = ⟨true, true⟩) :
    r.codec (.tuple (List.replicate n d)) = Codec.ofPart
      (Part.sequence (Descriptor.tuple (List.replicate n d)).typeName
        (List.replicate n (r.codec d).part)) ⟨true, true⟩ := by
  have hAll : ∀ f : Codec → Bool, f (r.codec d) = true →
      (List.replicate n (r.codec d)).all f = true := fun f hf =>
    List.all_eq_true.2 fun c hc => List.eq_of_mem_replicate hc ▸ hf
  have hTuple : r.codec (.tuple (List.replicate n d)) =
      Codec.tuple (Descriptor.tuple (List.replicate n d)).typeName
        (List.replicate n (r.codec d)) := by
    rw [codec, Descriptor.codec_tuple, List.map_replicate]
    rfl
  rw [hTuple, Codec.tuple, List.map_replicate, hAll (·.capabilities.hashInput) (by rw [hFull]),
    hAll (·.capabilities.json) (by rw [hFull])]

private theorem codec_copies_structural (hWidth : r.width d = .ok width)
    (hJson : d.supportsJson = true) :
    r.codec (.structural (.replicate n (.leaf d width))) = Codec.ofPart
      (Part.sequence (Shape.replicate n (.leaf d width)).typeName
        (List.replicate n (r.codec d).part)) ⟨true, true⟩ := by
  have hAll : (Shape.replicate n (.leaf d width)).supportsJson = true :=
    Shape.itemsSupportJson_iff.2 fun s hs => List.eq_of_mem_replicate hs ▸ hJson
  rw [codec, Descriptor.codec, hAll, Shape.replicate, Shape.part_array, List.map_replicate,
    Shape.part_leaf hWidth]

/--
An array of a type, a tuple of as many copies and the type of a shape of as many leaves do the same
to every value, share and document: they succeed with the same results or fail, and their checks
leave the runs the same. They have the same width. They also gather the same auxiliary entries, of
every value if the type is as the registry has it, and in any case of values of the right length.

The sizes of the array have to fit on a machine. Then those of the other two fit as well, and the
machine does to all three what they do: it does not end for a size, a slice or for want of room.
-/
theorem copies_agree (r : Registry) (d : Descriptor) (n : Nat) {leaf : Shape} {m : Machine}
    (hLeaf : r.leafShape d = .ok leaf) (hInput : d.supportsHashInput = true)
    (hJson : d.supportsJson = true) (hFits : r.Fits m (.array d n)) :
    ∃ copies, Descriptor.structural? (.replicate n leaf) none = .ok copies ∧
      r.machineCodec m (.array d n) = r.codec (.array d n) ∧
      r.machineCodec m (.tuple (List.replicate n d)) = r.codec (.tuple (List.replicate n d)) ∧
      r.machineCodec m copies = r.codec copies ∧
      (r.codec (.array d n)).SameOutcomes (r.codec (.tuple (List.replicate n d))) ∧
      (r.codec (.array d n)).SameOutcomes (r.codec copies) ∧
      ∀ v, (d.UpToDate r ∨ ∀ items, v = .array items → items.length = n) →
        (r.codec (.array d n)).auxiliary v =
          (r.codec (.tuple (List.replicate n d))).auxiliary v ∧
        (r.codec (.array d n)).auxiliary v = (r.codec copies).auxiliary v := by
  obtain ⟨width, hWidth, hLeaf⟩ := bind_eq_ok.1 hLeaf
  cases hLeaf
  obtain ⟨total, hTotal⟩ := hFits
  have hCopies := checkedWidth_copies hTotal hWidth
  refine ⟨_, rfl, machineCodec_eq ⟨total, hTotal⟩, machineCodec_eq ⟨total, hCopies.1⟩,
    machineCodec_eq ⟨total, hCopies.2⟩, ?_⟩
  have hOwn : (r.codec d).part.width () = .ok width := (codec_part_width d).trans hWidth
  have hFull : (r.codec d).capabilities = ⟨true, true⟩ := by
    rw [codec, Descriptor.capabilities_eq, hInput, hJson]
  rw [codec_copies_array hFull, codec_copies_tuple hFull, codec_copies_structural hWidth hJson]
  refine ⟨.ofPart (Part.sameOutcomes_replicated hOwn _ _ n) _,
    .ofPart (Part.sameOutcomes_replicated hOwn _ _ n) _, fun v hSafe => ?_⟩
  cases v with
  | array items =>
      have hSame : items.flatMap (r.codec d).auxiliary =
          Part.auxiliaryAll (List.replicate n (r.codec d).part) items := by
        rcases hSafe with hCurrent | hLength
        · have hNone := hCurrent.auxiliary_eq_nil hJson
          rw [Part.auxiliaryAll_eq_nil fun p hp => List.eq_of_mem_replicate hp ▸ hNone]
          exact List.flatMap_eq_nil_iff.2 fun item _ => hNone item
        · obtain rfl := hLength items rfl
          exact (Part.auxiliaryAll_replicate (r.codec d).part items).symm
      exact ⟨hSame, hSame⟩
  | signal | bit | record | primitive | opaqueValue => exact ⟨rfl, rfl⟩

end Registry

/-! ## Two gauges -/

/-- A registry with gauges. -/
private def gauges : Registry :=
  (Registry.empty.registerAll "Gauge" [("level", some .uint32), ("on", some .boolean)]).1

private theorem gauge_upToDate : (gauges.composite "Gauge").UpToDate gauges := by
  refine ⟨fun name => name = "Gauge", ⟨?_, ?_⟩, .composite rfl⟩
  · rintro _ rfl
    decide
  · rintro _ rfl m hm
    rcases hm with _ | ⟨_, _ | ⟨_, hm⟩⟩
    · exact .leaf .uint32
    · exact .leaf .boolean
    · cases hm

/-- The state of a gauge. -/
private def gaugeAt (level : Element) : Value :=
  .record none [("level", .ofElement level), ("on", .ofBool true)]

/-- Two gauges flatten to the same as an array, as a tuple and in a shape. Of three gauges none of
them gathers auxiliary entries. -/
theorem Registry.copies_agree_gauges :
    ∃ leaf copies, gauges.leafShape (gauges.composite "Gauge") = .ok leaf ∧
      Descriptor.structural? (.replicate 2 leaf) none = .ok copies ∧
      (gauges.codec (.tuple (List.replicate 2 (gauges.composite "Gauge")))).toFields
          (.array [gaugeAt 7, gaugeAt 9]) =
        .ok [.constant 7, .constant 1, .constant 9, .constant 1] ∧
      (gauges.codec copies).toFields (.array [gaugeAt 7, gaugeAt 9]) =
        .ok [.constant 7, .constant 1, .constant 9, .constant 1] ∧
      (gauges.codec (.array (gauges.composite "Gauge") 2)).auxiliary
          (.array [gaugeAt 7, gaugeAt 8, gaugeAt 9]) =
        (gauges.codec copies).auxiliary (.array [gaugeAt 7, gaugeAt 8, gaugeAt 9]) := by
  have hGauge : gauges.leafShape (gauges.composite "Gauge") =
      .ok (.leaf (gauges.composite "Gauge") ⟨2, 0⟩) := rfl
  have hFits : gauges.Fits (.checking 4 (by decide) (.recursiveType ""))
      (.array (gauges.composite "Gauge") 2) := ⟨_, rfl⟩
  obtain ⟨copies, hCopies, -, -, -, hTuple, hShape, hAuxiliary⟩ :=
    Registry.copies_agree gauges (gauges.composite "Gauge") 2 hGauge rfl rfl hFits
  exact ⟨_, copies, hGauge, hCopies, (hTuple.toFields _ _).1 rfl, (hShape.toFields _ _).1 rfl,
    (hAuxiliary _ (.inl gauge_upToDate)).2⟩

end TypedCircuit
