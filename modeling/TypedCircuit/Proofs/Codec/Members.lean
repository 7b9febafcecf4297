import TypedCircuit.Codec.Record
import TypedCircuit.Proofs.Codec.Items
import TypedCircuit.Proofs.Entries

/-!
# Laws of keyed structures

A keyed structure is a sequence of which the items are found by name. An object and a
composite differ in how they find them, in the type of what they rebuild and in what they
refuse; on the values that flatten both do what a `Part.Keyed` describes, and its law is put
together once.

The members a structure rebuilds are found again because their names are distinct.

## Main results

* `Part.Keyed.lawful` — a keyed structure of lawful members is lawful.
* `Part.keyed_object`, `Codec.keyed_composite` — objects and composites are keyed structures.
-/

namespace TypedCircuit

namespace Part

/-! ## Members found by name -/

/-- The items that members find, one for each name. -/
def Finds (lookup : Lookup) (keys : List String) (items : List Value) : Prop :=
  List.Forall₂ (fun key v => lookup key = .ok v) keys items

theorem Finds.length_eq {lookup : Lookup} {keys : List String} {items : List Value}
    (h : Finds lookup keys items) : items.length = keys.length :=
  (List.Forall₂.length_eq h).symm

variable {lookup : Lookup} {members : List (String × Part)} {items : List Value}

theorem flattenMembers_cons (key : String) (p : Part) (rest : List (String × Part)) :
    flattenMembers lookup ((key, p) :: rest) =
      ((lookup key >>= p.flatten) >>= fun front =>
        flattenMembers lookup rest >>= fun fields => pure (front ++ fields)) := by
  unfold flattenMembers
  rw [List.mapM_cons]
  simp only [bind_assoc, pure_bind, List.flatten_cons]

/-- Members flatten when each of them is found and the items that were found flatten. -/
theorem flattenMembers_eq_ok {fields : List Signal} :
    flattenMembers lookup members = .ok fields ↔
      ∃ items, Finds lookup (members.map Prod.fst) items ∧
        flattenAll (members.map Prod.snd) items = .ok fields := by
  induction members generalizing fields with
  | nil =>
      constructor
      · intro h; exact ⟨[], .nil, h⟩
      · rintro ⟨items, hFinds, hFlat⟩; cases hFinds; exact hFlat
  | cons m rest ih =>
      obtain ⟨key, p⟩ := m
      rw [flattenMembers_cons]
      constructor
      · intro h
        obtain ⟨front, hFront, h⟩ := bind_eq_ok.1 h
        obtain ⟨v, hv, hFront⟩ := bind_eq_ok.1 hFront
        obtain ⟨fields, hRest, h⟩ := bind_eq_ok.1 h
        obtain ⟨items, hItems, hFlat⟩ := ih.1 hRest
        cases h
        exact ⟨v :: items, .cons hv hItems,
          flattenAll_cons.2 ⟨front, fields, hFront, hFlat, rfl⟩⟩
      · rintro ⟨items, hFinds, hFlat⟩
        cases hFinds with
        | cons hv hItems =>
            obtain ⟨front, fields, hFront, hRest, rfl⟩ := flattenAll_cons.1 hFlat
            rw [hv, ih.2 ⟨_, hItems, hRest⟩]
            show (p.flatten _ >>= _) = _
            rw [hFront]
            rfl

/-- The checks of members are the checks of the items found. -/
theorem checkMembers_eq (h : Finds lookup (members.map Prod.fst) items) :
    checkMembers lookup members = checkAll (members.map Prod.snd) items := by
  induction members generalizing items with
  | nil => cases h; rfl
  | cons m rest ih =>
      cases h with
      | @cons _ v _ items hv hItems =>
          rw [List.map_cons, checkAll_cons, ← ih hItems]
          show ((liftM (lookup m.1) >>= m.2.check) >>= fun _ => checkMembers lookup rest) = _
          rw [hv]
          rfl

/-- The auxiliary entries of members are those of the items found. -/
theorem auxiliaryMembers_eq {record : Entries Value}
    (h : List.Forall₂ (fun key v => record.find? key = some v) (members.map Prod.fst) items) :
    auxiliaryMembers members record = auxiliaryAll (members.map Prod.snd) items := by
  induction members generalizing items with
  | nil => cases h; rfl
  | cons m rest ih =>
      cases h with
      | @cons _ v _ items hv hItems =>
          rw [List.map_cons, auxiliaryAll_cons, ← ih hItems]
          show ((record.find? m.1).map m.2.auxiliary).getD [] ++ auxiliaryMembers rest record = _
          rw [hv]
          rfl

theorem memberWidths_eq (members : List (String × Part)) :
    memberWidths members = widths (members.map Prod.snd) := by
  rw [widths, List.mapM_map]
  rfl

theorem rebuildNamed_eq (members : List (String × Part))
    (shares : List (List Signal × List Value)) :
    ((members.zip shares).mapM fun ((key, p), share) => do
        return (key, ← p.rebuild share.1 share.2) : Except Error (List (String × Value))) =
      (rebuildAll (members.map Prod.snd) shares).map fun items =>
        (members.map Prod.fst).zip items := by
  induction members generalizing shares with
  | nil => rfl
  | cons m rest ih =>
      cases shares with
      | nil => rfl
      | cons share shares =>
          rw [List.zip_cons_cons, List.mapM_cons, ih, List.map_cons, List.map_cons, rebuildAll_cons]
          show ((m.2.rebuild share.1 share.2 >>= fun v => pure (m.1, v)) >>= _) = _
          cases m.2.rebuild share.1 share.2 with
          | error e => rfl
          | ok v => cases rebuildAll (rest.map Prod.snd) shares <;> rfl

/-- Members are rebuilt as the items of a sequence are, under their names. -/
theorem rebuildMembers_eq {widths : List Width} (hWidths : memberWidths members = .ok widths)
    (fields : List Signal) (aux : List Value) :
    rebuildMembers members fields aux =
      (rebuildAll (members.map Prod.snd) (shares widths fields aux)).map fun items =>
        Entries.ofList ((members.map Prod.fst).zip items) := by
  unfold rebuildMembers
  rw [hWidths]
  show (((members.zip (shares widths fields aux)).mapM fun ((key, p), share) => do
      return (key, ← p.rebuild share.1 share.2)) >>=
    fun rebuilt => pure (Entries.ofList rebuilt)) = _
  rw [rebuildNamed_eq]
  cases rebuildAll (members.map Prod.snd) (shares widths fields aux) <;> rfl

/-! ## Keyed structures -/

/-- A part visits members that it finds by name, and rebuilds records of one type. -/
structure Keyed (p : Part) (members : List (String × Part)) (tag? : Option String)
    (lookup : Value → Lookup) : Prop where
  width_eq : p.width () = (memberWidths members).map Width.sum
  flatten_eq (v : Value) : p.flatten v = flattenMembers (lookup v) members
  visit {v : Value} {items : List Value} (h : Finds (lookup v) (members.map Prod.fst) items) :
    p.auxiliary v = auxiliaryAll (members.map Prod.snd) items ∧
      p.check v = checkAll (members.map Prod.snd) items
  rebuild_eq {widths : List Width} (hWidths : memberWidths members = .ok widths)
    {fields : List Signal} {aux : List Value} (hFields : fields.length = (Width.sum widths).fields)
    (hAux : aux.length = (Width.sum widths).aux) :
    p.rebuild fields aux = (rebuildMembers members fields aux).map (.record tag?)
  lookup_record {record : Entries Value} {key : String} {v : Value}
    (h : record.find? key = some v) : lookup (.record tag? record) key = .ok v

/-- The law of a keyed structure. -/
def Law.keyed (tag? : Option String) (lookup : Value → Lookup) (keys : List String)
    (laws : List Law) : Law where
  width := Width.sum (laws.map Law.width)
  rules := laws.flatMap Law.rules
  canonical v := .record tag? (Entries.ofList (keys.zip
    (List.zipWith Law.canonical laws ((keys.mapM (lookup v)).toOption.getD []))))
  normal v := ∃ items, v = .record tag? (Entries.ofList (keys.zip items)) ∧
    List.Forall₂ Law.normal laws items

theorem Law.keyed_canonical {tag? : Option String} {lookup : Value → Lookup}
    {keys : List String} {laws : List Law} {v : Value} {items : List Value}
    (h : Finds (lookup v) keys items) :
    (Law.keyed tag? lookup keys laws).canonical v =
      .record tag? (Entries.ofList (keys.zip (List.zipWith Law.canonical laws items))) := by
  show Value.record tag? (Entries.ofList (keys.zip (List.zipWith Law.canonical laws
    ((keys.mapM (lookup v)).toOption.getD [])))) = _
  rw [mapM_eq_ok.2 h]
  rfl

/-- The members of a rebuilt record are found again, because their names are distinct. -/
theorem Keyed.finds_rebuilt {p : Part} {members : List (String × Part)} {tag? : Option String}
    {lookup : Value → Lookup} (hp : p.Keyed members tag? lookup)
    (hNodup : (members.map Prod.fst).Nodup) {items : List Value}
    (hItems : (members.map Prod.fst).length = items.length) :
    Finds (lookup (.record tag? (Entries.ofList ((members.map Prod.fst).zip items))))
      (members.map Prod.fst) items := by
  refine (Entries.find?_zip hNodup hItems).imp fun key v hFind => hp.lookup_record ?_
  rwa [Entries.find?_ofList]
  rwa [Entries.names_zip hItems]

/-- A keyed structure of lawful members with distinct names is lawful. -/
theorem Keyed.lawful {p : Part} {members : List (String × Part)} {tag? : Option String}
    {lookup : Value → Lookup} (hp : p.Keyed members tag? lookup) {laws : List Law}
    (h : List.Forall₂ Part.Lawful (members.map Prod.snd) laws)
    (hNodup : (members.map Prod.fst).Nodup) :
    p.Lawful (.keyed tag? lookup (members.map Prod.fst) laws) := by
  have hWidths : memberWidths members = .ok (laws.map Law.width) := by
    rw [memberWidths_eq, widths_eq h]
  -- What flattens has an item for each member.
  have hOpen : ∀ {v fields}, p.flatten v = .ok fields →
      ∃ items, Finds (lookup v) (members.map Prod.fst) items ∧
        items.length = (members.map Prod.snd).length ∧
        flattenAll (members.map Prod.snd) items = .ok fields := by
    intro v fields hFlat
    rw [hp.flatten_eq] at hFlat
    obtain ⟨items, hItems, hAll⟩ := flattenMembers_eq_ok.1 hFlat
    refine ⟨items, hItems, ?_, hAll⟩
    rw [hItems.length_eq, List.length_map, List.length_map]
  refine ⟨?_, rules_flatten_length h, ?_, ?_, ?_, ?_, ?_, ?_⟩
  · rw [hp.width_eq, hWidths]
    rfl
  · intro v fields hFlat
    obtain ⟨items, -, hItems, hFlat⟩ := hOpen hFlat
    exact (length_of_flattenAll h hItems hFlat).1
  · intro v fields hFlat
    obtain ⟨items, hFinds, hItems, hFlat⟩ := hOpen hFlat
    rw [(hp.visit hFinds).1]
    exact (length_of_flattenAll h hItems hFlat).2
  · intro v fields hFlat
    obtain ⟨items, hFinds, hItems, hFlat⟩ := hOpen hFlat
    rw [(hp.visit hFinds).1]
    exact hostData_of_flattenAll h hItems hFlat
  · intro v fields hFlat
    obtain ⟨items, hFinds, hItems, hFlat⟩ := hOpen hFlat
    rw [(hp.visit hFinds).2]
    exact checkAll_eq h hItems hFlat
  · intro v fields hFlat
    obtain ⟨items, hFinds, hItems, hAll⟩ := hOpen hFlat
    obtain ⟨hFields, hAux⟩ := length_of_flattenAll h hItems hAll
    rw [(hp.visit hFinds).1, hp.rebuild_eq hWidths hFields hAux, rebuildMembers_eq hWidths,
      rebuildAll_flattenAll h hItems hAll]
    rw [Law.keyed_canonical hFinds]
    rfl
  · intro fields aux hFields hAux hHost
    obtain ⟨items, hBack, hFlat, hSame, hNormal⟩ := rebuildAll_ok h hFields hAux hHost
    have hItems : (members.map Prod.fst).length = items.length := by
      rw [← hNormal.length_eq, ← h.length_eq, List.length_map, List.length_map]
    have hFinds := hp.finds_rebuilt hNodup hItems
    refine ⟨_, ?_, ?_, ?_, items, rfl, hNormal⟩
    · rw [hp.rebuild_eq hWidths hFields hAux, rebuildMembers_eq hWidths, hBack]
      rfl
    · rw [hp.flatten_eq]
      exact flattenMembers_eq_ok.2 ⟨items, hFinds, hFlat⟩
    · rw [(hp.visit hFinds).1, hSame]

/-! ## Objects and composites -/

theorem record_of_record? {v : Value} {tag? : Option String} {record : Entries Value}
    (h : v.record? = some (tag?, record)) : v = .record tag? record := by
  cases v with
  | record _ _ => cases h; rfl
  | signal | bit | array | primitive | opaqueValue => cases h

theorem lookupKey_eq_ok {typeName : String} {v item : Value} {key : String} :
    lookupKey typeName v key = .ok item ↔
      ∃ (tag? : Option String) (record : Entries Value),
        v = .record tag? record ∧ record.find? key = some item := by
  constructor
  · intro h
    unfold lookupKey at h
    split at h
    · cases h
    · next tag? record hRecord =>
        split at h
        · next found hFind =>
            cases h
            exact ⟨tag?, record, record_of_record? hRecord, hFind⟩
        · cases h
  · rintro ⟨tag?, record, rfl, hFind⟩
    unfold lookupKey
    simp only [Value.record?, hFind]

/-- Items that are found in a value by name are found in the members of a record, if there
are any items. -/
theorem Finds.in_record {lookup : Lookup} {v : Value} {keys : List String}
    {items : List Value} (h : Finds lookup keys items) (hKeys : keys ≠ [])
    (hOpen : ∀ key item, lookup key = .ok item →
      ∃ (tag? : Option String) (record : Entries Value),
        v = .record tag? record ∧ record.find? key = some item) :
    ∃ (tag? : Option String) (record : Entries Value), v = .record tag? record ∧
      List.Forall₂ (fun key item => record.find? key = some item) keys items := by
  cases h with
  | nil => exact absurd rfl hKeys
  | cons hHead hRest =>
      obtain ⟨tag?, record, rfl, hFind⟩ := hOpen _ _ hHead
      refine ⟨tag?, record, rfl, .cons hFind (hRest.imp fun key item hItem => ?_)⟩
      obtain ⟨_, _, hRecord, hFind⟩ := hOpen _ _ hItem
      cases hRecord
      exact hFind

/-- An object is a keyed structure. -/
theorem keyed_object (typeName : String) (members : List (String × Part)) :
    (object typeName members).Keyed members none (lookupKey typeName) where
  width_eq := rfl
  flatten_eq _ := rfl
  visit {v items} h := by
    refine ⟨?_, checkMembers_eq h⟩
    by_cases hKeys : members.map Prod.fst = []
    · obtain rfl := List.map_eq_nil_iff.1 hKeys
      cases h
      show (v.record?.map _).getD [] = []
      cases v <;> rfl
    · obtain ⟨tag?, record, rfl, hFinds⟩ := h.in_record hKeys fun _ _ => lookupKey_eq_ok.1
      exact auxiliaryMembers_eq hFinds
  rebuild_eq _ _ _ _ _ := rfl
  lookup_record h := lookupKey_eq_ok.2 ⟨_, _, rfl, h⟩

end Part

namespace Codec

theorem lookupMember_eq_ok {name key : String} {record : Entries Value} {item : Value} :
    lookupMember name record key = .ok item ↔ record.find? key = some item := by
  unfold lookupMember
  cases record.find? key with
  | none => exact ⟨nofun, nofun⟩
  | some found => exact ⟨fun h => by cases h; rfl, fun h => by cases h; rfl⟩

/-- Looks up a member of a composite in a value. -/
def lookupIn (name : String) (v : Value) : Part.Lookup := fun key => do
  lookupMember name (← expectRecord name v) key

theorem lookupIn_eq_ok {name key : String} {v item : Value} :
    lookupIn name v key = .ok item ↔
      ∃ record, expectRecord name v = .ok record ∧ record.find? key = some item := by
  unfold lookupIn
  rw [bind_eq_ok]
  exact exists_congr fun record => and_congr_right fun _ => lookupMember_eq_ok

theorem record_of_expectRecord {name : String} {v : Value} {record : Entries Value}
    (h : expectRecord name v = .ok record) : ∃ tag?, v = .record tag? record := by
  unfold expectRecord at h
  cases v with
  | record tag? members =>
      cases tag? with
      | none => cases h; exact ⟨none, rfl⟩
      | some other =>
          simp only [Value.record?] at h
          split at h
          · cases h; exact ⟨some other, rfl⟩
          · cases h
  | signal | bit | array | primitive | opaqueValue => cases h

theorem auxiliary_composite_ok {name : String} {json : Bool} {members : List (String × Codec)}
    {v : Value} {record : Entries Value} (h : expectRecord name v = .ok record) :
    (composite name json members).auxiliary v =
      Part.auxiliaryMembers (memberParts members) record := by
  unfold composite
  simp only [h]

/-- What does not stand for a composite has no auxiliary entries. -/
theorem auxiliary_composite_error {name : String} {json : Bool}
    {members : List (String × Codec)} {v : Value} {e : Error} (h : expectRecord name v = .error e) :
    (composite name json members).auxiliary v = [] := by
  unfold composite
  simp only [h]

/-- A composite is a keyed structure. -/
theorem keyed_composite (name : String) (json : Bool) (members : List (String × Codec)) :
    (composite name json members).uncounted.Keyed (memberParts members) (some name)
      (lookupIn name) where
  width_eq := rfl
  flatten_eq v := by
    show onMembers name members []
      (fun lookup => Part.flattenMembers lookup (memberParts members)) v = _
    unfold onMembers
    cases members with
    | nil => rfl
    | cons m rest =>
        cases hRecord : expectRecord name v with
        | error e =>
            have hFirst : lookupIn name v m.1 = .error e := by
              unfold lookupIn
              rw [hRecord]
              rfl
            show Except.error e = _
            unfold Part.flattenMembers memberParts
            rw [List.map_cons, List.mapM_cons]
            show _ = ((((lookupIn name v m.1) >>= _) >>= _) >>= _)
            rw [hFirst]
            rfl
        | ok record =>
            have hLookup : lookupIn name v = lookupMember name record := by
              unfold lookupIn
              rw [hRecord]
              rfl
            rw [hLookup]
            rfl
  visit {v items} h := by
    cases members with
    | nil =>
        cases h
        refine ⟨?_, rfl⟩
        show (composite name json []).auxiliary v = []
        cases hRecord : expectRecord name v with
        | error e => rw [auxiliary_composite_error hRecord]
        | ok record => rw [auxiliary_composite_ok hRecord]; rfl
    | cons m rest =>
        have hHead : ∃ record, expectRecord name v = .ok record := by
          cases h with
          | cons hFirst _ =>
              obtain ⟨record, hRecord, -⟩ := lookupIn_eq_ok.1 hFirst
              exact ⟨record, hRecord⟩
        obtain ⟨record, hRecord⟩ := hHead
        have hLookup : lookupIn name v = lookupMember name record := by
          unfold lookupIn
          rw [hRecord]
          rfl
        constructor
        · show (composite name json (m :: rest)).auxiliary v = _
          rw [auxiliary_composite_ok hRecord]
          refine Part.auxiliaryMembers_eq (h.imp fun key item hItem => ?_)
          obtain ⟨found, hFound, hFind⟩ := lookupIn_eq_ok.1 hItem
          rw [hRecord] at hFound
          cases hFound
          exact hFind
        · rw [hLookup] at h
          rw [← Part.checkMembers_eq h]
          show (liftM (expectRecord name v) >>= _) = _
          rw [hRecord]
          rfl
  rebuild_eq {widths} hWidths {fields aux} hFields hAux := by
    show rebuildComposite name members fields aux = _
    unfold rebuildComposite
    rw [hWidths]
    show (if fields.length < (Width.sum widths).fields then _ else
      if aux.length ≠ (Width.sum widths).aux then _ else _) = _
    rw [if_neg (by omega), if_neg (by omega)]
  lookup_record {record key v} h := by
    refine lookupIn_eq_ok.2 ⟨record, ?_, h⟩
    show (if name = name then _ else _) = _
    rw [if_pos rfl]

end Codec

end TypedCircuit
