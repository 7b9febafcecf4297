import TypedCircuit.Proofs.Codec.Places
import TypedCircuit.Proofs.Codec.Records
import TypedCircuit.Proofs.Runs.Decomposition
import Mathlib.Data.List.Perm.Basic

/-!
# Orders of keys

A shape of an object may be given another order of its keys. The type that is built from it visits
the same members, one after another, in the order that was asked for. What is gathered from the
members comes in blocks, and the order permutes the blocks. What is built by name does not depend on
the order.

A visit stops at the first member that fails, and reading a document also at the first member that
does not match. Hence the order may decide which of two refusals is reported, and reading is the one
operation where refusals are told apart: a document that does not match is not an error.

## Main results

* `Descriptor.structural?_order_iff` — which orders are accepted, and what they give.
* `Part.reordered_toFields`, `Part.auxiliary_of_blocks` — what is gathered comes in blocks.
* `Part.reordered_encode`, `Part.reordered_decode_some`, `Part.reordered_check` — what does not
  depend on the order; `Part.reordered_decode` — where the order can be noticed.
* `Registry.key_orders` — the type with a custom order and the one without.
-/

namespace TypedCircuit

/-! ## Accepted orders -/

/-- An order of keys is accepted for an object, if it names each of its keys once. It reorders the
members of this object and nothing else. -/
theorem Descriptor.structural?_order_iff {shape : Shape}
    (hSorted : ∀ members, shape = .object members → Entries.Sorted members) {order : List String}
    {d : Descriptor} :
    Descriptor.structural? shape (some order) = .ok d ↔
      ∃ members, shape = .object members ∧ order.Perm (Entries.names members) ∧
        d = .structural (.object (order.filterMap fun key =>
          (Entries.find? members key).map (key, ·))) := by
  constructor
  · intro h
    rcases Descriptor.structural?_eq_ok h with ⟨hNone, -⟩ | ⟨members, own, hOwn, rfl, hPerm, rfl⟩
    · cases hNone
    · cases hOwn
      exact ⟨members, rfl, hPerm, rfl⟩
  · rintro ⟨members, rfl, hPerm, rfl⟩
    exact if_pos ((Entries.nameSet_eq_names_iff (hSorted members rfl)).2 hPerm)

/-! ## Visits of members in another order -/

theorem Width.sum_perm {ws ws' : List Width} (h : ws.Perm ws') : Width.sum ws = Width.sum ws' := by
  have hComm : ∀ a b c : Width, a + b + c = a + c + b := fun a b c => by
    show Width.mk _ _ = Width.mk _ _
    rw [Width.mk.injEq]
    exact ⟨Nat.add_right_comm .., Nat.add_right_comm ..⟩
  have : RightCommutative ((· + ·) : Width → Width → Width) := ⟨hComm⟩
  exact h.foldl_eq _

namespace Part

variable {typeName typeName' : String} {members ordered : List (String × Part)} {v : Value}

theorem lookupKey_eq_ok_iff {item : Value} {key : String} :
    lookupKey typeName v key = .ok item ↔ v.child? (.key key) = some item := by
  rw [lookupKey_eq_ok]
  constructor
  · rintro ⟨tag?, record, rfl, hFind⟩
    exact hFind
  · intro h
    obtain ⟨⟨tag?, record⟩, hRecord, hFind⟩ := Option.bind_eq_some_iff.1 h
    exact ⟨tag?, record, record_of_record? hRecord, hFind⟩

/-- Two names of a position make no difference to what is found in a value. -/
theorem lookupKey_same (typeName typeName' : String) (v : Value) (key : String) :
    SameResult (lookupKey typeName v key) (lookupKey typeName' v key) := fun _ =>
  lookupKey_eq_ok_iff.trans lookupKey_eq_ok_iff.symm

theorem object_width (hPerm : ordered.Perm members) :
    SameResult ((object typeName ordered).width ()) ((object typeName' members).width ()) := by
  suffices hOne : ∀ {xs ys : List (String × Part)}, xs.Perm ys → ∀ w,
      (memberWidths xs).map Width.sum = .ok w → (memberWidths ys).map Width.sum = .ok w from
    fun w => ⟨hOne hPerm w, hOne hPerm.symm w⟩
  intro xs ys hPerm w h
  obtain ⟨ws, hWidths, rfl⟩ := map_eq_ok.1 h
  obtain ⟨ws', hWidths', hSum⟩ := List.perm_comp_forall₂ hPerm.symm (mapM_eq_ok.1 hWidths)
  exact map_eq_ok.2 ⟨ws', mapM_eq_ok.2 hWidths', Width.sum_perm hSum⟩

/-! ### Blocks -/

/-- The elements of a value are the blocks of its members. -/
def Blocks (members : List (String × Part)) (v : Value) (block : String → List Signal) : Prop :=
  ∀ m ∈ members, ∃ item, v.child? (.key m.1) = some item ∧ m.2.flatten item = .ok (block m.1)

theorem flatten_of_blocks (typeName : String) {block : String → List Signal}
    (h : Blocks members v block) :
    (object typeName members).flatten v = .ok ((Entries.names members).flatMap block) := by
  refine bind_eq_ok.2 ⟨members.map fun m => block m.1, mapM_eq_ok.2 ?_, ?_⟩
  · rw [List.forall₂_map_right_iff, List.forall₂_same]
    intro m hm
    obtain ⟨item, hItem, hBlock⟩ := h m hm
    exact bind_eq_ok.2 ⟨item, lookupKey_eq_ok_iff.2 hItem, hBlock⟩
  · rw [Entries.names, List.flatMap_map]
    rfl

theorem exists_blocks (hNodup : (Entries.names members).Nodup) {fields : List Signal}
    (h : (object typeName members).flatten v = .ok fields) : ∃ block, Blocks members v block := by
  obtain ⟨chunks, hChunks, -⟩ := bind_eq_ok.1 h
  have hFlats := mapM_eq_ok.1 hChunks
  have hLength : (Entries.names members).length = chunks.length :=
    (List.length_map _).trans hFlats.length_eq
  let blocks := (Entries.names members).zip chunks
  have hFinds : List.Forall₂ (fun m chunk => Entries.find? blocks m.1 = some chunk) members
      chunks := List.forall₂_map_left_iff.1 (Entries.find?_zip hNodup hLength)
  have hBlocks : List.Forall₂ (fun m _ => ∃ item, v.child? (.key m.1) = some item ∧
      m.2.flatten item = .ok ((Entries.find? blocks m.1).getD [])) members chunks := by
    refine hFlats.mp (fun m chunk hFlat hFind => ?_) hFinds
    obtain ⟨item, hItem, hChunk⟩ := bind_eq_ok.1 hFlat
    rw [hFind]
    exact ⟨item, lookupKey_eq_ok_iff.1 hItem, hChunk⟩
  refine ⟨fun name => (Entries.find? blocks name).getD [], fun m hm => ?_⟩
  obtain ⟨-, -, hBlock⟩ := exists_of_forall₂_mem hBlocks.flip hm
  exact hBlock

/-- A value that an object flattens has the blocks of its members, as many elements in all as the
object takes. -/
theorem toFields_object {capabilities : Capabilities} (hNodup : (Entries.names members).Nodup)
    {fields : List Signal} :
    (Codec.ofPart (object typeName members) capabilities).toFields v = .ok fields ↔
      ∃ block w, Blocks members v block ∧ (object typeName members).width () = .ok w ∧
        fields.length = w.fields ∧ fields = (Entries.names members).flatMap block := by
  rw [Codec.toFields_ok_iff]
  constructor
  · rintro ⟨w, hWidth, hLength, hFlat⟩
    obtain ⟨block, hBlocks⟩ := exists_blocks hNodup hFlat
    refine ⟨block, w, hBlocks, hWidth, hLength, ?_⟩
    exact Except.ok.inj (hFlat.symm.trans (flatten_of_blocks typeName hBlocks))
  · rintro ⟨block, w, hBlocks, hWidth, hLength, rfl⟩
    exact ⟨w, hWidth, hLength, flatten_of_blocks typeName hBlocks⟩

/-- What one order flattens is flattened in the other one, block by block. -/
theorem reordered_toFields {capabilities : Capabilities} (hPerm : ordered.Perm members)
    (hNodup : (Entries.names members).Nodup) {fields : List Signal}
    (h : (Codec.ofPart (object typeName members) capabilities).toFields v = .ok fields) :
    ∃ block, Blocks members v block ∧ fields = (Entries.names members).flatMap block ∧
      (Codec.ofPart (object typeName' ordered) capabilities).toFields v =
        .ok ((Entries.names ordered).flatMap block) := by
  obtain ⟨block, w, hBlocks, hWidth, hLength, rfl⟩ := (toFields_object hNodup).1 h
  have hNames : (Entries.names ordered).Perm (Entries.names members) := hPerm.map Prod.fst
  refine ⟨block, hBlocks, rfl, (toFields_object (hNames.nodup_iff.2 hNodup)).2 ?_⟩
  refine ⟨block, w, fun m hm => hBlocks m (hPerm.mem_iff.1 hm), (object_width hPerm w).2 hWidth, ?_,
    rfl⟩
  rw [(hNames.flatMap_right block).length_eq, hLength]

/-- The auxiliary entries of a value are the blocks of its members. -/
def AuxiliaryBlocks (members : List (String × Part)) (v : Value) (block : String → List Value) :
    Prop :=
  ∀ m ∈ members, block m.1 = ((v.child? (.key m.1)).map m.2.auxiliary).getD []

theorem auxiliary_of_blocks (typeName : String) {block : String → List Value}
    (h : AuxiliaryBlocks members v block) :
    (object typeName members).auxiliary v = (Entries.names members).flatMap block := by
  rw [Entries.names, List.flatMap_map]
  cases v with
  | record tag? record => exact List.flatMap_congr fun m hm => (h m hm).symm
  | signal | bit | array | primitive | opaqueValue =>
      exact (List.flatMap_eq_nil_iff.2 fun m hm => h m hm).symm

theorem exists_auxiliaryBlocks (hNodup : (Entries.names members).Nodup) (v : Value) :
    ∃ block, AuxiliaryBlocks members v block := by
  refine ⟨fun name => ((Entries.find? members name).bind fun p =>
    (v.child? (.key name)).map p.auxiliary).getD [], fun m hm => ?_⟩
  show ((Entries.find? members m.1).bind _).getD [] = _
  rw [Entries.find?_of_nodup hNodup hm]
  rfl

/-! ### Documents -/

theorem encodeMembers_perm {lookup : Lookup} (hPerm : ordered.Perm members)
    (hNodup : (Entries.names members).Nodup) :
    SameResult (encodeMembers lookup ordered) (encodeMembers lookup members) := by
  suffices hOne : ∀ {xs ys : List (String × Part)}, xs.Perm ys → (Entries.names xs).Nodup →
      ∀ json, encodeMembers lookup xs = .ok json → encodeMembers lookup ys = .ok json from
    fun json => ⟨hOne hPerm ((hPerm.map Prod.fst).nodup_iff.2 hNodup) json,
      hOne hPerm.symm hNodup json⟩
  intro xs ys hPerm hNodup json h
  obtain ⟨documents, hDocuments, h⟩ := bind_eq_ok.1 h
  cases h
  -- The other order takes the same steps, so it comes to the same documents in its order.
  have hSteps := mapM_eq_ok.1 hDocuments
  obtain ⟨others, hOthers, hSame⟩ := List.perm_comp_forall₂ hPerm.symm hSteps
  have hNames : Entries.names xs = Entries.names documents := by
    refine Entries.names_eq_of_forall₂ (hSteps.imp fun m document hStep => ?_)
    obtain ⟨item, -, hStep⟩ := bind_eq_ok.1 hStep
    obtain ⟨encoded, -, hStep⟩ := bind_eq_ok.1 hStep
    cases hStep
    rfl
  refine bind_eq_ok.2 ⟨others, mapM_eq_ok.2 hOthers, ?_⟩
  rw [Json.ofMembers, Entries.ofList_perm hSame (hNames ▸ hNodup)]
  rfl

/-- What is written does not depend on the order. -/
theorem reordered_encode (hPerm : ordered.Perm members) (hNodup : (Entries.names members).Nodup) :
    SameResult ((object typeName ordered).encode v) ((object typeName' members).encode v) :=
  (encodeMembers_perm hPerm hNodup).trans
    (encodeMembers_same (lookupKey_same typeName typeName' v) members)

/-- Reads one member of a document. -/
def decodeMember (document : Entries Json) (m : String × Part) :
    OptionT (Except Error) (String × Value) := do
  let json ← OptionT.mk (pure (document.find? m.1))
  return (m.1, ← OptionT.mk (m.2.decode json))

theorem decodeMember_eq_some {document : Entries Json} {m : String × Part} {entry : String × Value}
    (h : (decodeMember document m).run = .ok (some entry)) : entry.1 = m.1 := by
  obtain ⟨json, -, h⟩ := bind_eq_some.1 h
  obtain ⟨item, -, h⟩ := bind_eq_some.1 h
  cases h
  rfl

/-- A member that comes to nothing has no document, or one that does not match. -/
theorem decodeMember_eq_none {document : Entries Json} {m : String × Part}
    (h : (decodeMember document m).run = .ok none) :
    ∀ json, document.find? m.1 = some json → m.2.decode json = .ok none := by
  intro json hFind
  rw [decodeMember, hFind] at h
  obtain ⟨item?, hDecode, h⟩ := bind_eq_ok.1 h
  cases item? with
  | none => exact hDecode
  | some item => cases h

theorem decodeMember_eq_error {document : Entries Json} {m : String × Part}
    (h : ¬ ∃ entry?, (decodeMember document m).run = .ok entry?) :
    ∃ json e, document.find? m.1 = some json ∧ m.2.decode json = .error e := by
  cases hFind : document.find? m.1 with
  | none =>
      rw [decodeMember, hFind] at h
      exact absurd ⟨none, rfl⟩ h
  | some json =>
      cases hDecode : m.2.decode json with
      | error e => exact ⟨json, e, rfl, hDecode⟩
      | ok item? =>
          rw [decodeMember, hFind] at h
          refine absurd ⟨item?.map (m.1, ·), bind_eq_ok.2 ⟨item?, hDecode, ?_⟩⟩ h
          cases item? <;> rfl

theorem decodeMembers_eq_some {document : Entries Json} {record : Entries Value} :
    decodeMembers members document = .ok (some record) ↔
      ∃ decoded, List.Forall₂ (fun m entry => (decodeMember document m).run = .ok (some entry))
        members decoded ∧ Entries.ofList decoded = record := by
  refine bind_eq_some.trans (exists_congr fun decoded => and_congr mapM_eq_some ?_)
  constructor
  · exact fun h => Option.some.inj (Except.ok.inj h)
  · rintro rfl
    rfl

/-- What is read from a document does not depend on the order. -/
theorem decodeMembers_perm (hPerm : ordered.Perm members)
    (hNodup : (Entries.names members).Nodup) (document : Entries Json) (record : Entries Value) :
    decodeMembers ordered document = .ok (some record) ↔
      decodeMembers members document = .ok (some record) := by
  suffices hOne : ∀ {xs ys : List (String × Part)}, xs.Perm ys → (Entries.names xs).Nodup →
      decodeMembers xs document = .ok (some record) →
        decodeMembers ys document = .ok (some record) from
    ⟨hOne hPerm ((hPerm.map Prod.fst).nodup_iff.2 hNodup), hOne hPerm.symm hNodup⟩
  intro xs ys hPerm hNodup h
  obtain ⟨decoded, hSteps, rfl⟩ := decodeMembers_eq_some.1 h
  obtain ⟨others, hOthers, hSame⟩ := List.perm_comp_forall₂ hPerm.symm hSteps
  have hNames : Entries.names xs = Entries.names decoded :=
    Entries.names_eq_of_forall₂ (hSteps.imp fun _ _ hStep => (decodeMember_eq_some hStep).symm)
  refine decodeMembers_eq_some.2 ⟨others, hOthers, ?_⟩
  exact Entries.ofList_perm hSame (hNames ▸ hNodup)

/-- Some member of a document is missing or does not match. -/
def Misses (members : List (String × Part)) (document : Entries Json) : Prop :=
  ∃ m ∈ members, ∀ json, document.find? m.1 = some json → m.2.decode json = .ok none

/-- Some member of a document cannot be read at all. -/
def Fails (members : List (String × Part)) (document : Entries Json) : Prop :=
  ∃ m ∈ members, ∃ json e, document.find? m.1 = some json ∧ m.2.decode json = .error e

theorem misses_of_decodeMembers {document : Entries Json}
    (h : decodeMembers members document = .ok none) : Misses members document := by
  obtain ⟨decoded?, hDecoded, h⟩ := bind_eq_ok.1 h
  cases decoded? with
  | some decoded => cases h
  | none =>
      obtain ⟨m, hm, hNone⟩ := exists_of_mapM_none hDecoded
      exact ⟨m, hm, decodeMember_eq_none hNone⟩

theorem fails_of_decodeMembers {document : Entries Json} {e : Error}
    (h : decodeMembers members document = .error e) : Fails members document := by
  by_contra hNot
  have hSteps : ∀ m ∈ members, ∃ entry?, (decodeMember document m).run = .ok entry? := by
    intro m hm
    by_contra hStep
    exact hNot ⟨m, hm, decodeMember_eq_error hStep⟩
  obtain ⟨record?, hRecord⟩ := bind_total (mapM_total hSteps) fun decoded =>
    ⟨some (Entries.ofList decoded), rfl⟩
  exact nomatch hRecord.symm.trans h

/-- Where something misses and something fails, the order decides what is reported. Otherwise it
makes no difference. -/
theorem decodeMembers_agree (hPerm : ordered.Perm members)
    (hNodup : (Entries.names members).Nodup) (document : Entries Json) :
    SameResult (decodeMembers ordered document) (decodeMembers members document) ∨
      Misses members document ∧ Fails members document := by
  have hMisses : Misses ordered document → Misses members document :=
    fun ⟨m, hm, h⟩ => ⟨m, hPerm.mem_iff.1 hm, h⟩
  have hFails : Fails ordered document → Fails members document :=
    fun ⟨m, hm, h⟩ => ⟨m, hPerm.mem_iff.1 hm, h⟩
  -- The orders come to a record together, so all that they can mix up is the two ways to come to
  -- none.
  have hSome := decodeMembers_perm hPerm hNodup document
  cases hx : decodeMembers ordered document with
  | error e =>
      cases hy : decodeMembers members document with
      | error e' => exact .inl fun _ => ⟨nofun, nofun⟩
      | ok record? =>
          cases record? with
          | none => exact .inr ⟨misses_of_decodeMembers hy, hFails (fails_of_decodeMembers hx)⟩
          | some record => exact nomatch hx.symm.trans ((hSome record).2 hy)
  | ok record? =>
      cases record? with
      | some record =>
          rw [(hSome record).1 hx]
          exact .inl (.refl _)
      | none =>
          cases hy : decodeMembers members document with
          | error e => exact .inr ⟨hMisses (misses_of_decodeMembers hx), fails_of_decodeMembers hy⟩
          | ok record? =>
              cases record? with
              | none => exact .inl (.refl _)
              | some record => exact nomatch hx.symm.trans ((hSome record).2 hy)

theorem object_decode {json : Json} {document : Entries Json} (h : json.object? = some document) :
    (object typeName members).decode json =
      (decodeMembers members document).map fun record? => record?.map (.record none) := by
  cases Json.object?_eq_some.1 h
  rfl

/-- What is no object does not match. -/
theorem object_decode_none {json : Json} (h : json.object? = none) :
    (object typeName members).decode json = .ok none := by
  cases json with
  | object document => cases h
  | null | bool | number | string | array => rfl

theorem object_decode_eq_some {json : Json} {w : Value} :
    (object typeName members).decode json = .ok (some w) ↔
      ∃ document record, json.object? = some document ∧
        decodeMembers members document = .ok (some record) ∧ .record none record = w := by
  constructor
  · intro h
    cases hObject : json.object? with
    | none => cases (object_decode_none hObject).symm.trans h
    | some document =>
        rw [object_decode hObject, map_eq_ok] at h
        obtain ⟨record?, hRecord, h⟩ := h
        obtain ⟨record, rfl, h⟩ := Option.map_eq_some_iff.1 h
        exact ⟨document, record, rfl, hRecord, Option.some.inj h⟩
  · rintro ⟨document, record, hObject, hRecord, rfl⟩
    rw [object_decode hObject, hRecord]
    rfl

/-- A document of an object is read to the same value in each order. -/
theorem reordered_decode_some (typeName typeName' : String) (hPerm : ordered.Perm members)
    (hNodup : (Entries.names members).Nodup) (json : Json) (w : Value) :
    (object typeName ordered).decode json = .ok (some w) ↔
      (object typeName' members).decode json = .ok (some w) := by
  rw [object_decode_eq_some, object_decode_eq_some]
  refine exists_congr fun document => exists_congr fun record => and_congr_right fun _ => ?_
  exact and_congr_left fun _ => decodeMembers_perm hPerm hNodup document record

/-- What is no value is reported in the same way in each order, unless one member misses and another
one fails. -/
theorem reordered_decode (typeName typeName' : String) (hPerm : ordered.Perm members)
    (hNodup : (Entries.names members).Nodup) (json : Json) :
    SameResult ((object typeName ordered).decode json) ((object typeName' members).decode json) ∨
      ∃ document, json.object? = some document ∧ Misses members document ∧
        Fails members document := by
  cases hObject : json.object? with
  | none =>
      rw [object_decode_none hObject, object_decode_none hObject]
      exact .inl (.refl _)
  | some document =>
      rw [object_decode hObject, object_decode hObject]
      rcases decodeMembers_agree hPerm hNodup document with hSame | hBoth
      · exact .inl (hSame.map _)
      · exact .inr ⟨document, rfl, hBoth⟩

/-! ### Checks -/

/-- Where no run is open, members are accepted if each of them is. -/
theorem checkMembers_outside {lookup : Lookup}
    (h : ∀ m ∈ members, ∀ item, (m.2.check item []).2 = []) :
    (checkMembers lookup members []).1 = .ok () ↔
      ∀ m ∈ members, ∃ item, lookup m.1 = .ok item ∧ (m.2.check item []).1 = .ok () := by
  induction members with
  | nil => exact iff_of_true rfl nofun
  | cons m members ih =>
      obtain ⟨hHead, hRest⟩ := List.forall_mem_cons.1 h
      rw [List.forall_mem_cons, ← ih hRest]
      show (((liftM (lookup m.1) >>= m.2.check) >>= fun _ => checkMembers lookup members) []).1 =
        .ok () ↔ _
      cases hLookup : lookup m.1 with
      | error e => exact iff_of_false nofun fun ⟨⟨_, hItem, _⟩, _⟩ => nomatch hItem
      | ok item =>
          have hLift : (liftM (Except.ok item : Except Error Value) : Circuit Value) [] =
              (.ok item, []) := rfl
          have hItem : m.2.check item [] = ((m.2.check item []).1, []) := Prod.ext rfl (hHead item)
          cases hCheck : (m.2.check item []).1 with
          | error e =>
              rw [hCheck] at hItem
              rw [bind_state_error ((bind_state_ok hLift m.2.check).trans hItem)]
              refine iff_of_false nofun ?_
              rintro ⟨⟨_, hSame, hOk⟩, -⟩
              cases hSame
              exact nomatch hCheck.symm.trans hOk
          | ok =>
              rw [hCheck] at hItem
              rw [bind_state_ok ((bind_state_ok hLift m.2.check).trans hItem)]
              exact (and_iff_right ⟨item, rfl, hCheck⟩).symm

/-- Outside of every run the order makes no difference to what is accepted. -/
theorem reordered_check (hPerm : ordered.Perm members)
    (hOutside : ∀ m ∈ members, ∀ item, (m.2.check item []).2 = []) :
    ((object typeName ordered).check v []).1 = .ok () ↔
      ((object typeName' members).check v []).1 = .ok () := by
  have hOutside' : ∀ m ∈ ordered, ∀ item, (m.2.check item []).2 = [] :=
    fun m hm => hOutside m (hPerm.mem_iff.1 hm)
  refine (checkMembers_outside hOutside').trans (Iff.trans ?_ (checkMembers_outside hOutside).symm)
  refine forall_congr' fun m => imp_congr hPerm.mem_iff (exists_congr fun item => ?_)
  exact and_congr_left fun _ => lookupKey_same typeName typeName' v m.1 item

end Part

/-! ## Types in another order -/

/-- What a type with its members in another order has in common with the type it is made from. -/
structure Codec.Reorders (custom plain : Codec) (members : List (String × Part))
    (order : List String) : Prop where
  /-- Both refuse a value, or flatten it to the blocks of its members, each in its order. -/
  toFields (v : Value) :
    ((∀ fields, custom.toFields v ≠ .ok fields) ∧ ∀ fields, plain.toFields v ≠ .ok fields) ∨
      ∃ block, Part.Blocks members v block ∧
        plain.toFields v = .ok ((Entries.names members).flatMap block) ∧
        custom.toFields v = .ok (order.flatMap block)
  auxiliary (v : Value) : ∃ block, Part.AuxiliaryBlocks members v block ∧
    plain.auxiliary v = (Entries.names members).flatMap block ∧
    custom.auxiliary v = order.flatMap block
  toJson (v : Value) : SameResult (custom.toJson v) (plain.toJson v)
  /-- Both read a document to the same value, or none of them reads it to a value. -/
  fromJson_some (json : Json) (w : Value) :
    custom.fromJson json = .ok (some w) ↔ plain.fromJson json = .ok (some w)
  /-- They report the same, unless one member of the document does not match and another one cannot
  be read at all. -/
  fromJson (json : Json) : SameResult (custom.fromJson json) (plain.fromJson json) ∨
    ∃ document, json.object? = some document ∧ Part.Misses members document ∧
      Part.Fails members document
  /-- Outside of every run both accept the same values. -/
  check (v : Value) : (custom.check v []).1 = .ok () ↔ (plain.check v []).1 = .ok ()

theorem Part.reorders_object {typeName typeName' : String} {members ordered : List (String × Part)}
    (hPerm : ordered.Perm members) (hNodup : (Entries.names members).Nodup)
    (hOutside : ∀ m ∈ members, ∀ item, (m.2.check item []).2 = []) (capabilities : Capabilities) :
    (Codec.ofPart (object typeName ordered) capabilities).Reorders
      (Codec.ofPart (object typeName' members) capabilities) members (Entries.names ordered) where
  toFields v := by
    by_cases hPlain : ∃ fields,
        (Codec.ofPart (object typeName' members) capabilities).toFields v = .ok fields
    · obtain ⟨fields, hFields⟩ := hPlain
      obtain ⟨block, hBlocks, rfl, hCustom⟩ := reordered_toFields hPerm hNodup hFields
      exact .inr ⟨block, hBlocks, hFields, hCustom⟩
    · refine .inl ⟨fun fields hFields => ?_, fun fields hFields => hPlain ⟨fields, hFields⟩⟩
      have hNames : (Entries.names ordered).Nodup := (hPerm.map Prod.fst).nodup_iff.2 hNodup
      obtain ⟨block, -, -, hBack⟩ := reordered_toFields hPerm.symm hNames hFields
      exact hPlain ⟨_, hBack⟩
  auxiliary v := by
    obtain ⟨block, hBlock⟩ := exists_auxiliaryBlocks hNodup v
    refine ⟨block, hBlock, auxiliary_of_blocks typeName' hBlock, ?_⟩
    exact auxiliary_of_blocks typeName fun m hm => hBlock m (hPerm.mem_iff.1 hm)
  toJson v := (reordered_encode hPerm hNodup).guarded _ _
  fromJson_some json w := by
    show (if capabilities.json then _ else _) = _ ↔ (if capabilities.json then _ else _) = _
    split
    · exact reordered_decode_some typeName typeName' hPerm hNodup json w
    · exact ⟨nofun, nofun⟩
  fromJson json := by
    rcases reordered_decode typeName typeName' hPerm hNodup json with hSame | hBoth
    · exact .inl (hSame.guarded _ _)
    · exact .inr hBoth
  check _ := reordered_check hPerm hOutside

/-- An object has documents if its members have, in whatever order. -/
theorem Shape.membersSupportJson_perm {members ordered : List (String × Shape)}
    (hPerm : ordered.Perm members) :
    Shape.membersSupportJson ordered = Shape.membersSupportJson members := by
  rw [Bool.eq_iff_iff, Shape.membersSupportJson_iff, Shape.membersSupportJson_iff]
  exact forall_congr' fun m => imp_congr_left hPerm.mem_iff

/-- The parts of the members of a shape. -/
def Registry.memberParts (r : Registry) (members : List (String × Shape)) : List (String × Part) :=
  members.map fun m => (m.1, m.2.part r.names)

theorem Registry.names_memberParts (r : Registry) (members : List (String × Shape)) :
    Entries.names (r.memberParts members) = Entries.names members := by
  rw [Entries.names, memberParts, List.map_map]
  rfl

theorem Registry.codec_object (r : Registry) (members : List (String × Shape)) :
    r.codec (.structural (.object members)) =
      Codec.ofPart (Part.object (Shape.object members).typeName (r.memberParts members))
        ⟨true, Shape.membersSupportJson members⟩ := by
  rw [codec, Descriptor.codec, Shape.part_object, Shape.supportsJson]
  rfl

/-- The types of two objects that have the same members in different orders. -/
theorem Registry.reorders_object (r : Registry) {members ordered : List (String × Shape)}
    (hPerm : ordered.Perm members) (hNodup : (Entries.names members).Nodup) :
    (r.codec (.structural (.object ordered))).Reorders (r.codec (.structural (.object members)))
      (r.memberParts members) (Entries.names ordered) := by
  rw [codec_object, codec_object, Shape.membersSupportJson_perm hPerm,
    ← r.names_memberParts ordered]
  refine Part.reorders_object (hPerm.map _) (r.names_memberParts members ▸ hNodup) ?_ _
  intro m hm item
  obtain ⟨member, -, rfl⟩ := List.mem_map.1 hm
  have hElementary := Part.compositional_checksElementary
  have hMembers : Part.Compositional.OfMembers Part.ChecksElementary r.names :=
    fun _ => hElementary.membersWithin r _
  exact (hElementary.shapePart hMembers member.2 item).runs_outside

/--
A custom order of keys is accepted for objects only, and there just if it is the keys of the object
in some order. The type that is built has the members of the object in the order that was asked for,
with whatever is nested in them left as it is. Compared to the type that is built without a custom
order, every value is flattened to the same blocks, one a member, in the order of the keys; so are
auxiliary entries. The same values are written, to the same documents, the same documents are read,
to the same values, and outside of circuits the same values are accepted. What is reported on a
document that is not read to a value is the same, unless one of its members does not match and
another one cannot be read at all.
-/
theorem Registry.key_orders (r : Registry) {shape : Shape}
    (hSorted : ∀ members, shape = .object members → Entries.Sorted members) (order : List String) :
    ((∃ d, Descriptor.structural? shape (some order) = .ok d) ↔
      ∃ members, shape = .object members ∧ order.Perm (Entries.names members)) ∧
    ∀ plain custom, Descriptor.structural? shape none = .ok plain →
      Descriptor.structural? shape (some order) = .ok custom →
        ∃ members ordered, shape = .object members ∧ plain = .structural (.object members) ∧
          custom = .structural (.object ordered) ∧ ordered.Perm members ∧
          Entries.names ordered = order ∧
          (r.codec custom).Reorders (r.codec plain) (r.memberParts members) order := by
  refine ⟨⟨?_, ?_⟩, fun plain custom hPlain hCustom => ?_⟩
  · rintro ⟨d, hd⟩
    obtain ⟨members, hShape, hPerm, -⟩ := (Descriptor.structural?_order_iff hSorted).1 hd
    exact ⟨members, hShape, hPerm⟩
  · rintro ⟨members, hShape, hPerm⟩
    exact ⟨_, (Descriptor.structural?_order_iff hSorted).2 ⟨members, hShape, hPerm, rfl⟩⟩
  · obtain ⟨members, rfl, hPerm, rfl⟩ := (Descriptor.structural?_order_iff hSorted).1 hCustom
    cases hPlain
    have hNodup := (hSorted members rfl).nodup
    have hMembers := Entries.reordered_perm hNodup hPerm
    have hNames := Entries.names_reordered hNodup hPerm
    have hReorders := r.reorders_object hMembers hNodup
    rw [hNames] at hReorders
    exact ⟨members, _, rfl, rfl, rfl, hMembers, hNames, hReorders⟩

/-- An account: a balance, two flags and a nonce. -/
private def account : Shape :=
  .object [("balance", .ofLeaf .field), ("flags", .replicate 2 (.ofLeaf .boolean)),
    ("nonce", .ofLeaf .uint32)]

private theorem sorted_account : ∀ members, account = .object members → Entries.Sorted members := by
  rintro members ⟨⟩
  have hSorted : ["balance", "flags", "nonce"].Pairwise (· < ·) := by decide
  exact hSorted

/-- An account with its nonce first. Each key has to be named, and none of them twice. -/
theorem Registry.key_orders_account :
    let order := ["nonce", "flags", "balance"]
    let v := Value.record none [("balance", .ofElement 100),
      ("flags", .array [.ofBool true, .ofBool false]), ("nonce", .ofElement 7)]
    (¬ ∃ d, Descriptor.structural? account (some ["nonce"]) = .ok d) ∧
    (¬ ∃ d, Descriptor.structural? account (some ("nonce" :: order)) = .ok d) ∧
    ∃ custom, Descriptor.structural? account (some order) = .ok custom ∧
      (Registry.empty.codec (.structural account)).toFields v = .ok [.constant 100, .one, .zero,
        .constant 7] ∧
      (Registry.empty.codec custom).toFields v = .ok [.constant 7, .one, .zero, .constant 100] ∧
      SameResult ((Registry.empty.codec custom).toJson v)
        ((Registry.empty.codec (.structural account)).toJson v) := by
  intro order v
  have hShort := (Registry.empty.key_orders sorted_account ["nonce"]).1
  have hTwice := (Registry.empty.key_orders sorted_account ("nonce" :: order)).1
  obtain ⟨hAccepted, hReorders⟩ := Registry.empty.key_orders sorted_account order
  obtain ⟨custom, hCustom⟩ := hAccepted.2 ⟨_, rfl, by decide⟩
  obtain ⟨members, ordered, -, -, -, -, -, hBlocks⟩ := hReorders _ custom rfl hCustom
  refine ⟨fun hSome => ?_, fun hSome => ?_, _, hCustom, rfl, ?_, hBlocks.toJson v⟩
  · obtain ⟨members, hShape, hPerm⟩ := hShort.1 hSome
    cases hShape
    exact absurd hPerm (by decide)
  · obtain ⟨members, hShape, hPerm⟩ := hTwice.1 hSome
    cases hShape
    exact absurd hPerm (by decide)
  · cases hCustom
    rfl

/-- Letters that can be written. -/
private def legibleLetters : Registry := (Registry.empty.register "Letter" "text" (some .field)).1

/-- Letters after they were given a seal, which cannot be written. -/
private def illegibleLetters : Registry :=
  (legibleLetters.register "Letter" "seal" (some .opaqueHost)).1

/-- A count beside a letter that could be written when the shape was made. -/
private def letterCount : Shape :=
  .object [("count", .ofLeaf .field), ("letter", .leaf (legibleLetters.composite "Letter") ⟨1, 0⟩)]

/-- A document with a count that does not match, next to a letter that cannot be read any more. The
order that begins with the count reports that it does not match, the other order fails. -/
theorem Registry.key_orders_report :
    ¬ ∀ (r : Registry) (shape : Shape) (order : List String) (plain custom : Descriptor),
      (∀ members, shape = .object members → Entries.Sorted members) →
      Descriptor.structural? shape none = .ok plain →
      Descriptor.structural? shape (some order) = .ok custom →
        ∀ json, SameResult ((r.codec custom).fromJson json) ((r.codec plain).fromJson json) := by
  intro h
  have hSorted : ∀ members, letterCount = .object members → Entries.Sorted members := by
    rintro members ⟨⟩
    have hNames : ["count", "letter"].Pairwise (· < ·) := by decide
    exact hNames
  have hSame := h illegibleLetters letterCount ["letter", "count"] _ _ hSorted rfl rfl
    (.object [("count", .bool true), ("letter", .object [("text", .nat 5)])])
  exact nomatch (hSame none).2 rfl

end TypedCircuit
