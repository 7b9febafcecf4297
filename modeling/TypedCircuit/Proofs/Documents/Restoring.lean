import TypedCircuit.Proofs.Codec.Grounding
import TypedCircuit.Proofs.Documents.Writing

/-!
# Values that documents restore

What a type reads from a document is a value of constants. The type accepts it, writes it, and
reads it again from what it wrote. Nothing is asked of the elements here, so this also holds of
types that have themselves as a part: a document is finite, and reading one goes through as many
names as the document is high.

Operations follow names step by step, and how many steps there are depends on what an operation
is given. A position therefore stands for a family of parts, one for each meaning of names, and
what is said of it is said of all meanings that serve for something of the size at hand
(`Names.Serves`).

## Main results

* `Part.restores_sequence`, `Part.Restores.replicated`, `Part.restores_object` — larger positions
  restore documents if those inside do.
* `Part.restore_record`, `Part.Keyed.accepts_kept`, `Part.Keyed.reads_kept` — the same for whatever
  has members.
* `Part.restores_constant` — constants restore themselves.
-/

namespace TypedCircuit

/-! ## Heights -/

namespace Json

theorem height_pos (json : Json) : 0 < json.height := by
  cases json with
  | array | object => exact Nat.succ_pos _
  | null | bool | number | string => exact Nat.one_pos

theorem height_le_of_mem {items : List Json} {json : Json} (h : json ∈ items) :
    json.height ≤ heightOfItems items := by
  induction items with
  | nil => cases h
  | cons other rest ih =>
      rw [heightOfItems]
      rcases List.mem_cons.1 h with rfl | h
      · exact Nat.le_max_left _ _
      · exact Nat.le_trans (ih h) (Nat.le_max_right _ _)

theorem height_le_of_find? {members : Entries Json} {key : String} {json : Json}
    (h : members.find? key = some json) : json.height ≤ heightOfMembers members := by
  induction members with
  | nil => cases h
  | cons m rest ih =>
      rw [heightOfMembers]
      rw [Entries.find?_cons] at h
      split at h
      · cases h
        exact Nat.le_max_left _ _
      · exact Nat.le_trans (ih h) (Nat.le_max_right _ _)

theorem array?_eq_some {json : Json} {items : List Json} :
    json.array? = some items ↔ json = .array items := by
  cases json with
  | array found =>
      exact ⟨fun h => congrArg Json.array (Option.some.inj h), fun h => by cases h; rfl⟩
  | null | bool | number | string | object => exact ⟨nofun, nofun⟩

theorem object?_eq_some {json : Json} {members : Entries Json} :
    json.object? = some members ↔ json = .object members := by
  cases json with
  | object found =>
      exact ⟨fun h => congrArg Json.object (Option.some.inj h), fun h => by cases h; rfl⟩
  | null | bool | number | string | array => exact ⟨nofun, nofun⟩

end Json

namespace Value

theorem height_pos (v : Value) : 0 < v.height := by
  cases v with
  | array | record => exact Nat.succ_pos _
  | signal | bit | primitive | opaqueValue => exact Nat.one_pos

theorem height_le_of_mem {items : List Value} {v : Value} (h : v ∈ items) :
    v.height ≤ heightOfItems items := by
  induction items with
  | nil => cases h
  | cons other rest ih =>
      rw [heightOfItems]
      rcases List.mem_cons.1 h with rfl | h
      · exact Nat.le_max_left _ _
      · exact Nat.le_trans (ih h) (Nat.le_max_right _ _)

theorem height_le_of_find? {members : Entries Value} {key : String} {v : Value}
    (h : members.find? key = some v) : v.height ≤ heightOfMembers members := by
  induction members with
  | nil => cases h
  | cons m rest ih =>
      rw [heightOfMembers]
      rw [Entries.find?_cons] at h
      split at h
      · cases h
        exact Nat.le_max_left _ _
      · exact Nat.le_trans (ih h) (Nat.le_max_right _ _)

end Value

/-- Every value of a record is found under some name. -/
theorem Entries.exists_find?_zip {α : Type} {keys : List String} {values : List α}
    (hNodup : keys.Nodup) (hLength : keys.length = values.length) {a : α} (ha : a ∈ values) :
    ∃ key, Entries.find? (Entries.ofList (keys.zip values)) key = some a := by
  obtain ⟨i, hi, rfl⟩ := List.getElem_of_mem ha
  have hFind := (List.forall₂_iff_get.1 (Entries.find?_zip hNodup hLength)).2 i (hLength ▸ hi) hi
  refine ⟨_, (Entries.find?_ofList ?_ _).trans hFind⟩
  rwa [Entries.names_zip hLength]

/-! ## Values that are kept -/

/-- A value of constants, with its elements and the document it is written as. -/
structure Kept where
  value : Value
  elements : List Element
  document : Json

namespace Kept

/-- The value, written as its document and read again. -/
def exchange (k : Kept) : Exchange := ⟨k.value, k.document, k.value⟩

/-- The array of values. -/
def array (ks : List Kept) : Kept :=
  ⟨.array (ks.map value), ks.flatMap elements, .array (ks.map document)⟩

/-- The record of values under their names. -/
def record (tag? : Option String) (keys : List String) (ks : List Kept) : Kept :=
  ⟨.record tag? (Entries.ofList (keys.zip (ks.map value))), ks.flatMap elements,
    .ofMembers (keys.zip (ks.map document))⟩

end Kept

namespace Part

variable {p q : Part} {k : Kept} {parts : List Part} {ks : List Kept}

/-- A part accepts a value of constants and writes it. Its elements are counted if the part has a
width. -/
structure Accepts (p : Part) (k : Kept) : Prop where
  flatten_eq {width : Width} (hWidth : p.width () = .ok width) :
    p.flatten k.value = .ok (k.elements.map .constant) ∧ k.elements.length = width.fields
  check_eq (runs : List Run) : p.check k.value runs = (.ok (), runs)
  writes : p.WritesAs k.exchange

/-- A part does to values and documents what another part does, and may count elements. -/
structure Mirrors (q p : Part) : Prop where
  width_eq {width : Width} (h : q.width () = .ok width) : p.width () = .ok width
  flatten_eq {v : Value} {fields : List Signal} {width : Width} (hWidth : q.width () = .ok width)
    (hFlat : p.flatten v = .ok fields) (hLength : fields.length = width.fields) :
    q.flatten v = .ok fields
  check_eq : q.check = p.check
  encode_eq : q.encode = p.encode
  decode_eq : q.decode = p.decode

/-- A part that does to a value what another part does accepts it as well. -/
theorem Accepts.of_agree (h : p.Accepts k)
    (hWidth : ∀ {width}, q.width () = .ok width → p.width () = .ok width)
    (hFlatten : ∀ {fields width}, q.width () = .ok width → p.flatten k.value = .ok fields →
      fields.length = width.fields → q.flatten k.value = .ok fields)
    (hCheck : q.check k.value = p.check k.value)
    (hEncode : q.encode k.value = p.encode k.value) : q.Accepts k where
  flatten_eq hOwn := by
    obtain ⟨hFlat, hLength⟩ := h.flatten_eq (hWidth hOwn)
    exact ⟨hFlatten hOwn hFlat ((List.length_map _).trans hLength), hLength⟩
  check_eq runs := (congrFun hCheck runs).trans (h.check_eq runs)
  writes := hEncode.trans h.writes

theorem Accepts.mirror (h : p.Accepts k) (hMirror : q.Mirrors p) : q.Accepts k :=
  h.of_agree hMirror.width_eq hMirror.flatten_eq (congrFun hMirror.check_eq _)
    (congrFun hMirror.encode_eq _)

/-! ## One part after the other -/

theorem forall₂_exchange {R : Part → Exchange → Prop}
    (h : List.Forall₂ (fun p (k : Kept) => R p k.exchange) parts ks) :
    List.Forall₂ R parts (ks.map Kept.exchange) := List.forall₂_map_right_iff.2 h

theorem flattenAll_kept (h : List.Forall₂ Accepts parts ks) {ws : List Width}
    (hWidths : widths parts = .ok ws) :
    flattenAll parts (ks.map Kept.value) = .ok ((ks.flatMap Kept.elements).map .constant) ∧
      (ks.flatMap Kept.elements).length = (Width.sum ws).fields := by
  have hAll := mapM_eq_ok.1 hWidths
  clear hWidths
  induction h generalizing ws with
  | nil => cases hAll; exact ⟨rfl, rfl⟩
  | @cons p k parts ks hHead _ ih =>
      cases hAll with
      | @cons _ w _ ws hWidth hRest =>
          obtain ⟨hFlat, hLength⟩ := hHead.flatten_eq hWidth
          obtain ⟨hAllFlat, hAllLength⟩ := ih hRest
          rw [List.flatMap_cons, List.map_append, List.length_append, Width.sum_cons,
            Width.add_fields, hLength, hAllLength]
          exact ⟨flattenAll_cons.2 ⟨_, _, hFlat, hAllFlat, rfl⟩, rfl⟩

theorem checkAll_kept (h : List.Forall₂ Accepts parts ks) (runs : List Run) :
    checkAll parts (ks.map Kept.value) runs = (.ok (), runs) := by
  induction h with
  | nil => rfl
  | @cons p k parts ks hHead _ ih =>
      rw [List.map_cons, checkAll_cons, bind_state_ok (hHead.check_eq runs)]
      exact ih

/-- A sequence accepts arrays of what its parts accept. -/
theorem accepts_sequence (h : List.Forall₂ Accepts parts ks) (typeName : String) :
    (sequence typeName parts).Accepts (.array ks) := by
  have hItems : expectItems typeName parts.length (.array (ks.map Kept.value)) =
      .ok (ks.map Kept.value) :=
    expectItems_eq_ok.2 ⟨rfl, (List.length_map _).trans h.length_eq.symm⟩
  refine ⟨fun {width} hWidth => ?_, fun runs => ?_, ?_⟩
  · obtain ⟨ws, hws, rfl⟩ := map_eq_ok.1 hWidth
    obtain ⟨hFlat, hLength⟩ := flattenAll_kept h hws
    exact ⟨bind_eq_ok.2 ⟨_, hItems, hFlat⟩, hLength⟩
  · show (liftM (expectItems typeName parts.length (.array (ks.map Kept.value))) >>= fun items =>
      checkAll parts items : Circuit Unit) runs = _
    rw [hItems]
    exact checkAll_kept h runs
  · have hWrites := writesAs_sequence (forall₂_exchange (h.imp fun _ _ hk => hk.writes)) typeName
      (.array (ks.map Kept.value))
    rw [List.map_map, List.map_map] at hWrites
    exact hWrites

theorem reads_array (h : List.Forall₂ (fun p k => p.ReadsAs k.exchange) parts ks)
    (typeName : String) : (sequence typeName parts).ReadsAs (Kept.array ks).exchange := by
  have hReads := readsAs_sequence (forall₂_exchange h) typeName (.array (ks.map Kept.value))
  rw [List.map_map, List.map_map] at hReads
  exact hReads

section Keyed

variable {members : List (String × Part)} {tag? : Option String} {lookup : Value → Lookup}

/-- A keyed structure accepts records of what its members accept. -/
theorem Keyed.accepts (hp : p.Keyed members tag? lookup)
    (hEncode : ∀ {v items}, Finds (lookup v) (members.map Prod.fst) items →
      p.encode v = encodeMembers (lookup v) members)
    (hNodup : (members.map Prod.fst).Nodup)
    (h : List.Forall₂ Accepts (members.map Prod.snd) ks) :
    p.Accepts (.record tag? (members.map Prod.fst) ks) := by
  have hLength : (members.map Prod.fst).length = (ks.map Kept.value).length := by
    rw [List.length_map, List.length_map, ← h.length_eq, List.length_map]
  have hFinds := hp.finds_rebuilt hNodup hLength
  refine ⟨fun {width} hWidth => ?_, fun runs => ?_, ?_⟩
  · rw [hp.width_eq, memberWidths_eq] at hWidth
    obtain ⟨ws, hws, rfl⟩ := map_eq_ok.1 hWidth
    obtain ⟨hFlat, hCount⟩ := flattenAll_kept h hws
    refine ⟨?_, hCount⟩
    rw [hp.flatten_eq]
    exact flattenMembers_eq_ok.2 ⟨_, hFinds, hFlat⟩
  · show p.check (.record tag? (Entries.ofList ((members.map Prod.fst).zip
      (ks.map Kept.value)))) runs = _
    rw [(hp.visit hFinds).2]
    exact checkAll_kept h runs
  · have hValues : (ks.map Kept.exchange).map Exchange.value = ks.map Kept.value :=
      List.map_map
    have hWrites := Keyed.writesAs (hEncode hFinds)
      (forall₂_exchange (h.imp fun _ _ hk => hk.writes)) (hValues ▸ hFinds)
      (Kept.record tag? (members.map Prod.fst) ks).value
    rw [List.map_map] at hWrites
    exact hWrites

theorem Keyed.reads_record (hDecode : p.decode = decodeRecord tag? members)
    (hNodup : (members.map Prod.fst).Nodup)
    (h : List.Forall₂ (fun p k => p.ReadsAs k.exchange) (members.map Prod.snd) ks) :
    p.ReadsAs (Kept.record tag? (members.map Prod.fst) ks).exchange := by
  have hReads := Keyed.readsAs hDecode hNodup (forall₂_exchange h)
    (Kept.record tag? (members.map Prod.fst) ks).value
  rw [List.map_map, List.map_map] at hReads
  exact hReads

end Keyed

end Part

/-! ## Meanings of names -/

/-- A meaning of names serves for operations on something of up to a size: it has the widths of
the registry, and members for at least as many steps. -/
structure Names.Serves (names : Names) (r : Registry) (size : Nat) : Prop where
  width_eq : names.width = r.widthOf
  members_eq {s : Nat} (h : s ≤ size) (name : String) :
    ∃ k, s ≤ k ∧ names.members s name = r.membersWithin k name

namespace Names

variable {r : Registry} {names : Names} {size : Nat}

theorem Serves.mono (h : names.Serves r size) {s : Nat} (hSize : s ≤ size) : names.Serves r s :=
  ⟨h.width_eq, fun hs => h.members_eq (Nat.le_trans hs hSize)⟩

/-- The registry's own meaning serves for everything. -/
theorem serves_names (r : Registry) (size : Nat) : r.names.Serves r size := by
  refine ⟨rfl, fun {s} _ name => ⟨r.steps s, ?_, rfl⟩⟩
  calc
    s ≤ (s + 1) * 1 := by omega
    _ ≤ r.steps s := Nat.mul_le_mul_left _ (Nat.succ_pos _)

/-- The members of a name have a meaning of names that serves for what is inside. -/
theorem Serves.unroll (h : names.Serves r size) (hPos : 0 < size) (name : String) :
    ∃ inner : Names, inner.Serves r (size - 1) ∧
      names.members size name =
        .ok ((r.schema name).map fun m => (m.1, m.2.codec inner)) := by
  obtain ⟨k, hk, hMembers⟩ := h.members_eq (Nat.le_refl size) name
  cases k with
  | zero => omega
  | succ k =>
      refine ⟨⟨r.widthOf, fun _ => r.membersWithin k⟩, ⟨rfl, fun {s} hs _ => ⟨k, ?_, rfl⟩⟩,
        hMembers⟩
      omega

end Names

/-! ## Families -/

namespace Part

variable {r : Registry} {f g : Names → Part} {k : Kept} {ks : List Kept} {n : Nat}

/-- A family keeps a value: it accepts and writes it, and reads it again. -/
structure Keeps (r : Registry) (f : Names → Part) (k : Kept) : Prop where
  accepts {names : Names} (h : names.Serves r k.value.height) : (f names).Accepts k
  reads {names : Names} (h : names.Serves r k.document.height) : (f names).ReadsAs k.exchange

/-- A family reads every document of up to a height, and keeps what it reads. -/
structure Restores (r : Registry) (f : Names → Part) (n : Nat) : Prop where
  restore {json : Json} (hHeight : json.height ≤ n) {names : Names}
    (h : names.Serves r json.height) :
    ∃ v?, (f names).decode json = .ok v? ∧ ∀ v, v? = some v → ∃ k, k.value = v ∧ Keeps r f k

/-- A document is low enough for families to restore it, and names serve for it. -/
def Within (r : Registry) (names : Names) (n : Nat) (json : Json) : Prop :=
  json.height ≤ n ∧ names.Serves r json.height

theorem Keeps.mirror (h : Keeps r f k)
    (hMirror : ∀ {names size}, Names.Serves names r size → (g names).Mirrors (f names)) :
    Keeps r g k where
  accepts hNames := (h.accepts hNames).mirror (hMirror hNames)
  reads hNames := (congrFun (hMirror hNames).decode_eq _).trans (h.reads hNames)

theorem Restores.mirror (h : Restores r f n)
    (hMirror : ∀ {names size}, Names.Serves names r size → (g names).Mirrors (f names)) :
    Restores r g n where
  restore hHeight names hNames := by
    obtain ⟨v?, hDecode, hKept⟩ := h.restore hHeight hNames
    refine ⟨v?, (congrFun (hMirror hNames).decode_eq _).trans hDecode, fun v hv => ?_⟩
    obtain ⟨k, hValue, hKeeps⟩ := hKept v hv
    exact ⟨k, hValue, hKeeps.mirror hMirror⟩

theorem Restores.total (h : Restores r f n) {json : Json} (hHeight : json.height ≤ n)
    {names : Names} (hNames : names.Serves r json.height) :
    ∃ v?, (f names).decode json = .ok v? := by
  obtain ⟨v?, hDecode, -⟩ := h.restore hHeight hNames
  exact ⟨v?, hDecode⟩

theorem Restores.keeps (h : Restores r f n) {json : Json} (hHeight : json.height ≤ n)
    {names : Names} (hNames : names.Serves r json.height) {v : Value}
    (hDecode : (f names).decode json = .ok (some v)) : ∃ k, k.value = v ∧ Keeps r f k := by
  obtain ⟨v?, hOwn, hKept⟩ := h.restore hHeight hNames
  exact hKept v (Except.ok.inj (hOwn.symm.trans hDecode))

/-! ## Sequences -/

section Sequences

variable {fs : List (Names → Part)} {names : Names}

theorem accepts_all (h : List.Forall₂ (Keeps r) fs ks)
    (hNames : ∀ k ∈ ks, names.Serves r k.value.height) :
    List.Forall₂ Accepts (fs.map (· names)) ks := by
  rw [List.forall₂_map_left_iff]
  induction h with
  | nil => exact .nil
  | cons hHead _ ih =>
      obtain ⟨hFirst, hRest⟩ := List.forall_mem_cons.1 hNames
      exact .cons (hHead.accepts hFirst) (ih hRest)

theorem reads_all (h : List.Forall₂ (Keeps r) fs ks)
    (hNames : ∀ k ∈ ks, names.Serves r k.document.height) :
    List.Forall₂ (fun p k => p.ReadsAs k.exchange) (fs.map (· names)) ks := by
  rw [List.forall₂_map_left_iff]
  induction h with
  | nil => exact .nil
  | cons hHead _ ih =>
      obtain ⟨hFirst, hRest⟩ := List.forall_mem_cons.1 hNames
      exact .cons (hHead.reads hFirst) (ih hRest)

theorem keeps_sequence (h : List.Forall₂ (Keeps r) fs ks) (typeName : String) :
    Keeps r (fun names => sequence typeName (fs.map (· names))) (.array ks) where
  accepts hNames := accepts_sequence (accepts_all h fun _ hk =>
    hNames.mono (Nat.le_succ_of_le (Value.height_le_of_mem (List.mem_map_of_mem hk)))) typeName
  reads hNames := reads_array (reads_all h fun _ hk =>
    hNames.mono (Nat.le_succ_of_le (Json.height_le_of_mem (List.mem_map_of_mem hk)))) typeName

theorem restore_items_total (h : ∀ f ∈ fs, Restores r f n) {documents : List Json}
    (hWithin : ∀ json ∈ documents, Within r names n json) :
    ∃ items?, decodeAll (fs.map (· names)) documents = .ok items? := by
  refine mapM_total fun pair hPair => ?_
  obtain ⟨hPart, hDocument⟩ := List.of_mem_zip hPair
  obtain ⟨f, hf, hEq⟩ := List.mem_map.1 hPart
  obtain ⟨hLow, hNames⟩ := hWithin pair.2 hDocument
  obtain ⟨v?, hDecode⟩ := (h f hf).total hLow hNames
  exact ⟨v?, (congrArg (fun p : Part => p.decode pair.2) hEq.symm).trans hDecode⟩

theorem kept_of_decodeAll (h : ∀ f ∈ fs, Restores r f n) {documents : List Json}
    (hLength : documents.length = fs.length)
    (hWithin : ∀ json ∈ documents, Within r names n json) {items : List Value}
    (hItems : decodeAll (fs.map (· names)) documents = .ok (some items)) :
    ∃ ks, ks.map Kept.value = items ∧ List.Forall₂ (Keeps r) fs ks := by
  have hRead := mapM_eq_some.1 hItems
  clear hItems
  induction fs generalizing documents items with
  | nil =>
      cases hRead
      exact ⟨[], rfl, .nil⟩
  | cons f fs ih =>
      cases documents with
      | nil => cases hLength
      | cons json documents =>
          obtain ⟨hFirst, hRest⟩ := List.forall_mem_cons.1 h
          obtain ⟨⟨hLow, hNames⟩, hOthers⟩ := List.forall_mem_cons.1 hWithin
          cases hRead with
          | cons hv hRead =>
              obtain ⟨k, rfl, hKeeps⟩ := hFirst.keeps hLow hNames hv
              obtain ⟨ks, rfl, hAll⟩ := ih hRest (Nat.succ.inj hLength) hOthers hRead
              exact ⟨k :: ks, rfl, .cons hKeeps hAll⟩

/-- A sequence of families that restore documents restores arrays of documents. -/
theorem restores_sequence (h : ∀ f ∈ fs, Restores r f n) (typeName : String) :
    Restores r (fun names => sequence typeName (fs.map (· names))) n where
  restore {json} hHeight names hNames := by
    show ∃ v?, decodeItems (fs.map (· names)) json = .ok v? ∧ _
    unfold decodeItems
    cases hArray : json.array? with
    | none => exact ⟨none, rfl, nofun⟩
    | some documents =>
        obtain rfl := Json.array?_eq_some.1 hArray
        dsimp only
        rw [List.length_map]
        by_cases hLength : documents.length = fs.length
        · have hWithin : ∀ json ∈ documents, Within r names n json := fun json hj => by
            have hLow := Nat.le_succ_of_le (Json.height_le_of_mem hj)
            exact ⟨Nat.le_trans hLow hHeight, hNames.mono hLow⟩
          obtain ⟨items?, hDecode⟩ := restore_items_total h hWithin
          rw [if_pos hLength, hDecode]
          refine ⟨items?.map Value.array, rfl, fun v hv => ?_⟩
          obtain ⟨items, rfl, rfl⟩ := Option.map_eq_some_iff.1 hv
          obtain ⟨ks, rfl, hAll⟩ := kept_of_decodeAll h hLength hWithin hDecode
          exact ⟨.array ks, rfl, keeps_sequence hAll typeName⟩
        · rw [if_neg hLength]
          exact ⟨none, rfl, nofun⟩

end Sequences

/-- Copies of a part do what the sequence of the copies does. -/
theorem replicated_mirrors (p : Part) (typeName : String) (count : Nat) :
    (replicated typeName p count).Mirrors (sequence typeName (List.replicate count p)) where
  width_eq {width} h := by
    obtain ⟨w, hw, -⟩ := map_eq_ok.1 h
    exact (replicated_width hw typeName count).symm.trans h
  flatten_eq _ hFlat _ := (replicated_flatten p typeName count _).trans hFlat
  check_eq := funext (replicated_check p typeName count)
  encode_eq := funext (replicated_encode p typeName count)
  decode_eq := replicated_decode p typeName count

theorem Restores.replicated (h : Restores r f n) (typeName : String) (count : Nat) :
    Restores r (fun names => replicated typeName (f names) count) n := by
  have hAll : Restores r
      (fun names => sequence typeName ((List.replicate count f).map (· names))) n :=
    restores_sequence (fun g hg => List.eq_of_mem_replicate hg ▸ h) typeName
  refine hAll.mirror fun {names _} _ => ?_
  rw [List.map_replicate]
  exact replicated_mirrors (f names) typeName count

/-! ## Members -/

section Members

variable {ms : List (String × (Names → Part))} {names : Names}

/-- The parts of members, by a meaning of names. -/
def partsOf (names : Names) (ms : List (String × (Names → Part))) : List (String × Part) :=
  ms.map fun m => (m.1, m.2 names)

theorem restore_members_total (h : ∀ m ∈ ms, Restores r m.2 n) {document : Entries Json}
    (hWithin : ∀ {key json}, document.find? key = some json → Within r names n json) :
    ∃ record?, decodeMembers (partsOf names ms) document = .ok record? := by
  refine bind_total (mapM_total fun m hm => ?_) fun _ => ⟨_, rfl⟩
  obtain ⟨m, hMem, rfl⟩ := List.mem_map.1 hm
  dsimp only
  cases hFind : document.find? m.1 with
  | none => exact ⟨none, rfl⟩
  | some json =>
      obtain ⟨hLow, hNames⟩ := hWithin hFind
      show ∃ entry?, (OptionT.mk ((m.2 names).decode json) >>= fun v => pure (m.1, v)).run =
        .ok entry?
      exact bind_total ((h m hMem).total hLow hNames) fun _ => ⟨_, rfl⟩

/-- The members that come of a document are kept, and stand under their names. -/
theorem kept_of_decodeMembers (h : ∀ m ∈ ms, Restores r m.2 n) {document : Entries Json}
    (hWithin : ∀ {key json}, document.find? key = some json → Within r names n json)
    {record : Entries Value}
    (hRecord : decodeMembers (partsOf names ms) document = .ok (some record)) :
    ∃ ks, List.Forall₂ (Keeps r) (ms.map Prod.snd) ks ∧
      record = Entries.ofList ((ms.map Prod.fst).zip (ks.map Kept.value)) := by
  obtain ⟨decoded, hDecoded, hEq⟩ := bind_eq_some.1 hRecord
  cases hEq
  suffices hAll : ∃ ks, List.Forall₂ (Keeps r) (ms.map Prod.snd) ks ∧
      decoded = (ms.map Prod.fst).zip (ks.map Kept.value) by
    obtain ⟨ks, hKeeps, rfl⟩ := hAll
    exact ⟨ks, hKeeps, rfl⟩
  have hRead := mapM_eq_some.1 hDecoded
  rw [partsOf, List.forall₂_map_left_iff] at hRead
  clear hDecoded hRecord
  induction hRead with
  | nil => exact ⟨[], .nil, rfl⟩
  | @cons m entry ms decoded hHead _ ih =>
      obtain ⟨hFirst, hRest⟩ := List.forall_mem_cons.1 h
      obtain ⟨ks, hKeeps, rfl⟩ := ih hRest
      obtain ⟨json, hFind, hHead⟩ := bind_eq_some.1 hHead
      obtain ⟨v, hv, hEntry⟩ := bind_eq_some.1 hHead
      cases hEntry
      obtain ⟨hLow, hNames⟩ := hWithin (Except.ok.inj hFind)
      obtain ⟨k, rfl, hKeep⟩ := hFirst.keeps hLow hNames hv
      exact ⟨k :: ks, .cons hKeep hKeeps, rfl⟩

/-- The members of a record are no higher than what is inside the record. -/
theorem heights_of_record (hNodup : (ms.map Prod.fst).Nodup)
    (h : List.Forall₂ (Keeps r) (ms.map Prod.snd) ks) (tag? : Option String) (hk : k ∈ ks) :
    k.value.height < (Kept.record tag? (ms.map Prod.fst) ks).value.height ∧
      k.document.height < (Kept.record tag? (ms.map Prod.fst) ks).document.height := by
  have hLength : (ms.map Prod.fst).length = ks.length := by
    rw [List.length_map, ← h.length_eq, List.length_map]
  constructor
  · obtain ⟨key, hFind⟩ := Entries.exists_find?_zip hNodup
      (hLength.trans (List.length_map _).symm) (List.mem_map_of_mem hk)
    exact Nat.lt_succ_of_le (Value.height_le_of_find? hFind)
  · obtain ⟨key, hFind⟩ := Entries.exists_find?_zip hNodup
      (hLength.trans (List.length_map _).symm) (List.mem_map_of_mem hk)
    exact Nat.lt_succ_of_le (Json.height_le_of_find? hFind)

theorem names_partsOf (names : Names) (ms : List (String × (Names → Part))) :
    (partsOf names ms).map Prod.fst = ms.map Prod.fst := List.map_map

theorem parts_partsOf (names : Names) (ms : List (String × (Names → Part))) :
    (partsOf names ms).map Prod.snd = (ms.map Prod.snd).map (· names) := by
  rw [partsOf, List.map_map, List.map_map]
  rfl

variable {p : Part} {tag? : Option String} {lookup : Value → Lookup}

/-- A keyed structure of parts of families accepts records of what the families keep. -/
theorem Keyed.accepts_kept (hp : p.Keyed (partsOf names ms) tag? lookup)
    (hEncode : ∀ {v items}, Finds (lookup v) ((partsOf names ms).map Prod.fst) items →
      p.encode v = encodeMembers (lookup v) (partsOf names ms))
    (hNodup : (ms.map Prod.fst).Nodup) (h : List.Forall₂ (Keeps r) (ms.map Prod.snd) ks)
    (hNames : ∀ k ∈ ks, names.Serves r k.value.height) :
    p.Accepts (.record tag? (ms.map Prod.fst) ks) := by
  have hAll := accepts_all h hNames
  rw [← parts_partsOf] at hAll
  rw [← names_partsOf names] at hNodup ⊢
  exact hp.accepts hEncode hNodup hAll

/-- A keyed structure of parts of families reads records of what the families keep. -/
theorem Keyed.reads_kept (hDecode : p.decode = decodeRecord tag? (partsOf names ms))
    (hNodup : (ms.map Prod.fst).Nodup) (h : List.Forall₂ (Keeps r) (ms.map Prod.snd) ks)
    (hNames : ∀ k ∈ ks, names.Serves r k.document.height) :
    p.ReadsAs (Kept.record tag? (ms.map Prod.fst) ks).exchange := by
  have hAll := reads_all h hNames
  rw [← parts_partsOf] at hAll
  rw [← names_partsOf names] at hNodup ⊢
  exact Keyed.reads_record hDecode hNodup hAll

/-- Members that restore documents restore the documents inside an object. -/
theorem restore_record (h : ∀ m ∈ ms, Restores r m.2 n) {json : Json}
    (hHeight : json.height ≤ n + 1) (hNames : names.Serves r (json.height - 1))
    (tag? : Option String) :
    ∃ v?, decodeRecord tag? (partsOf names ms) json = .ok v? ∧
      ∀ v, v? = some v → ∃ ks, (Kept.record tag? (ms.map Prod.fst) ks).value = v ∧
        List.Forall₂ (Keeps r) (ms.map Prod.snd) ks := by
  unfold decodeRecord
  cases hObject : json.object? with
  | none => exact ⟨none, rfl, nofun⟩
  | some document =>
      obtain rfl := Json.object?_eq_some.1 hObject
      have hWithin : ∀ {key json}, document.find? key = some json → Within r names n json :=
        fun hFind => by
          have hLow := Json.height_le_of_find? hFind
          exact ⟨Nat.le_trans hLow (Nat.le_of_succ_le_succ hHeight), hNames.mono hLow⟩
      obtain ⟨record?, hDecode⟩ := restore_members_total h hWithin
      dsimp only
      rw [hDecode]
      refine ⟨record?.map (Value.record tag?), rfl, fun v hv => ?_⟩
      obtain ⟨record, rfl, rfl⟩ := Option.map_eq_some_iff.1 hv
      obtain ⟨ks, hAll, rfl⟩ := kept_of_decodeMembers h hWithin hDecode
      exact ⟨ks, rfl, hAll⟩

/-- An object of families that restore documents restores documents. -/
theorem restores_object (hNodup : (ms.map Prod.fst).Nodup) (h : ∀ m ∈ ms, Restores r m.2 n)
    (typeName : String) : Restores r (fun names => object typeName (partsOf names ms)) n where
  restore hHeight names hNames := by
    obtain ⟨v?, hDecode, hKept⟩ :=
      restore_record h (Nat.le_succ_of_le hHeight) (hNames.mono (Nat.sub_le _ 1)) none
    refine ⟨v?, hDecode, fun v hv => ?_⟩
    obtain ⟨ks, hValue, hAll⟩ := hKept v hv
    refine ⟨_, hValue, fun {names} hNames => ?_, fun {names} hNames => ?_⟩
    · refine (keyed_object typeName _).accepts_kept (fun _ => rfl) hNodup hAll fun k hk => ?_
      exact hNames.mono (Nat.le_of_lt (heights_of_record hNodup hAll none hk).1)
    · refine Keyed.reads_kept (p := object typeName (partsOf names ms)) rfl hNodup hAll ?_
      intro k hk
      exact hNames.mono (Nat.le_of_lt (heights_of_record hNodup hAll none hk).2)

end Members

/-- A constant restores itself, and nothing else is read. -/
theorem restores_constant (typeName : String) (json : Json) :
    Restores r (fun _ => constant typeName json) n where
  restore _ _ _ := by
    refine ⟨_, rfl, fun v hv => ?_⟩
    obtain ⟨-, hv⟩ := Option.ite_none_right_eq_some.1 hv
    cases hv
    have hFound : expectConstant typeName json (.primitive json) = .ok () :=
      if_pos (beq_self_eq_true json)
    have hAccepts : (constant typeName json).Accepts ⟨.primitive json, [], json⟩ := by
      refine ⟨fun hWidth => ?_, fun runs => ?_, ?_⟩
      · cases hWidth
        exact ⟨map_eq_ok.2 ⟨(), hFound, rfl⟩, rfl⟩
      · show (liftM (expectConstant typeName json _) : Circuit Unit) runs = _
        rw [hFound]
        rfl
      · exact map_eq_ok.2 ⟨(), hFound, rfl⟩
    exact ⟨_, rfl, fun _ => hAccepts, fun _ =>
      congrArg Except.ok (if_pos (beq_self_eq_true json))⟩

end Part

end TypedCircuit
