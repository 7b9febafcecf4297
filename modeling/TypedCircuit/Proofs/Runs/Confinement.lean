import TypedCircuit.Proofs.Passes.Codecs
import TypedCircuit.Proofs.Runs.Tracing

/-!
# Values of one run

A value belongs to a run if all its signals do. Types make no signals up: a value flattens to its
own signals, what is rebuilt is made of the signals and auxiliary entries that it is rebuilt
from, and a check asserts rules of the signals of the value that it checks. So what is done with
values of a run through any type, whatever is registered, is done with signals of the run.

A check may be refused half way. What it asserted before stays asserted, and is a history.

## Main results

* `Part.confining_sequence`, `Part.confining_replicated`, `Part.confining_object` — positions of
  confining parts.
* `Registry.confining_codec` — the codec of a type is confining.
-/

namespace TypedCircuit

/-! ## Values -/

mutual

/-- Whether a value belongs to the innermost run, if that is of the level that is followed. -/
def Value.Confined (level : Nat) (runs : List Run) : Value → Prop
  | .signal s => TypedCircuit.Confined level runs s
  | .bit b => b.Confined level runs
  | .array items => Value.ItemsConfined level runs items
  | .record _ members => Value.MembersConfined level runs members
  | .primitive _ | .opaqueValue _ => True

/-- Whether all items belong to the innermost run. -/
def Value.ItemsConfined (level : Nat) (runs : List Run) : List Value → Prop
  | [] => True
  | v :: rest => v.Confined level runs ∧ Value.ItemsConfined level runs rest

/-- Whether all members belong to the innermost run. -/
def Value.MembersConfined (level : Nat) (runs : List Run) : List (String × Value) → Prop
  | [] => True
  | (_, v) :: rest => v.Confined level runs ∧ Value.MembersConfined level runs rest

end

section

variable {level : Nat} {runs runs' : List Run}

namespace Value

theorem itemsConfined_iff {items : List Value} :
    ItemsConfined level runs items ↔ ∀ v ∈ items, v.Confined level runs := by
  induction items with
  | nil => exact ⟨fun _ => List.forall_mem_nil _, fun _ => trivial⟩
  | cons v rest ih => rw [ItemsConfined, ih, List.forall_mem_cons]

theorem membersConfined_iff {members : List (String × Value)} :
    MembersConfined level runs members ↔ ∀ m ∈ members, m.2.Confined level runs := by
  induction members with
  | nil => exact ⟨fun _ => List.forall_mem_nil _, fun _ => trivial⟩
  | cons m rest ih => rw [MembersConfined, ih, List.forall_mem_cons]

mutual

/-- What belongs to a run belongs to it ever after. -/
theorem Confined.mono (h : RunsReach level runs runs') :
    ∀ {v : Value}, v.Confined level runs → v.Confined level runs'
  | .signal _, hv => h.confined hv
  | .bit b, hv => h.confined (show TypedCircuit.Confined level runs b.signal from hv)
  | .array _, hv => ItemsConfined.mono h hv
  | .record _ _, hv => MembersConfined.mono h hv
  | .primitive _, _ => trivial
  | .opaqueValue _, _ => trivial

theorem ItemsConfined.mono (h : RunsReach level runs runs') :
    ∀ {items : List Value}, ItemsConfined level runs items → ItemsConfined level runs' items
  | [], _ => trivial
  | _ :: _, hItems => ⟨hItems.1.mono h, ItemsConfined.mono h hItems.2⟩

theorem MembersConfined.mono (h : RunsReach level runs runs') :
    ∀ {members : List (String × Value)}, MembersConfined level runs members →
      MembersConfined level runs' members
  | [], _ => trivial
  | (_, _) :: _, hMembers => ⟨hMembers.1.mono h, MembersConfined.mono h hMembers.2⟩

end

/-- Host data belongs to every run. -/
theorem HostData.confined {v : Value} (h : v.HostData) : v.Confined level runs := by
  rcases h.form with rfl | ⟨identity, rfl⟩ <;> trivial

theorem MembersConfined.find? {record : Entries Value} (h : MembersConfined level runs record)
    {name : String} {v : Value} (hFound : record.find? name = some v) : v.Confined level runs := by
  have hRelated : EntriesRelated (fun v _ => v.Confined level runs) record record :=
    List.forall₂_same.2 fun m hm => ⟨rfl, membersConfined_iff.1 h m hm⟩
  have hRel := hRelated.find? name
  rw [hFound] at hRel
  cases hRel with
  | some hv => exact hv

theorem MembersConfined.ofList {members : List (String × Value)}
    (h : MembersConfined level runs members) :
    MembersConfined level runs (Entries.ofList members) := by
  have hRelated : EntriesRelated (fun v _ => v.Confined level runs) members members :=
    List.forall₂_same.2 fun m hm => ⟨rfl, membersConfined_iff.1 h m hm⟩
  exact membersConfined_iff.2 fun m hm => (List.forall₂_same.1 hRelated.ofList m hm).2

end Value

/-- Signals that belong to the innermost run. -/
abbrev SignalsConfined (level : Nat) (runs : List Run) (fields : List Signal) : Prop :=
  ∀ s ∈ fields, Confined level runs s

/-- Values that belong to the innermost run. -/
abbrev ValuesConfined (level : Nat) (runs : List Run) (items : List Value) : Prop :=
  ∀ v ∈ items, v.Confined level runs

theorem SignalsConfined.mono (h : RunsReach level runs runs') {fields : List Signal}
    (hFields : SignalsConfined level runs fields) : SignalsConfined level runs' fields :=
  fun s hs => h.confined (hFields s hs)

theorem ValuesConfined.mono (h : RunsReach level runs runs') {items : List Value}
    (hItems : ValuesConfined level runs items) : ValuesConfined level runs' items :=
  fun v hv => (hItems v hv).mono h

theorem shares_confined (widths : List Width) {fields : List Signal} {aux : List Value}
    (hFields : SignalsConfined level runs fields) (hAux : ValuesConfined level runs aux) :
    ∀ share ∈ shares widths fields aux,
      SignalsConfined level runs share.1 ∧ ValuesConfined level runs share.2 := by
  induction widths generalizing fields aux with
  | nil => exact List.forall_mem_nil _
  | cons w widths ih =>
      rw [shares_cons]
      refine List.forall_mem_cons.2 ⟨⟨?_, ?_⟩, ih ?_ ?_⟩
      · exact fun s hs => hFields s (List.mem_of_mem_take hs)
      · exact fun v hv => hAux v (List.mem_of_mem_take hv)
      · exact fun s hs => hFields s (List.mem_of_mem_drop hs)
      · exact fun v hv => hAux v (List.mem_of_mem_drop hv)

/-- An operation that looks something up first, and is refused where that fails. -/
theorem reaches_lift_bind {α β : Type} {x : Except Error α} {f : α → Circuit β}
    (h : ∀ a, x = .ok a → RunsReach level runs (f a runs).2) :
    RunsReach level runs ((liftM x >>= f : Circuit β) runs).2 :=
  (Leads.lift_bind fun a ha => .of_reaches (h a ha) : Leads _ Anything _ _).1

/-- What only looks at values leaves open runs as they are. -/
theorem reaches_lift {α : Type} (x : Except Error α) :
    RunsReach level runs ((liftM x : Circuit α) runs).2 := by
  cases x <;> exact .refl runs

end

/-! ## Parts -/

/-- A part makes no signals up. -/
structure Part.Confining (p : Part) : Prop where
  flatten {level : Nat} {runs : List Run} {v : Value} {fields : List Signal}
    (hv : v.Confined level runs) (h : p.flatten v = .ok fields) :
    SignalsConfined level runs fields
  rebuild {level : Nat} {runs : List Run} {fields : List Signal} {aux : List Value} {v : Value}
    (hFields : SignalsConfined level runs fields) (hAux : ValuesConfined level runs aux)
    (h : p.rebuild fields aux = .ok v) : v.Confined level runs
  check {level : Nat} {runs : List Run} {v : Value} (hv : v.Confined level runs) :
    RunsReach level runs (p.check v runs).2

namespace Part

section

variable {parts : List Part} {items : List Value} {level : Nat} {runs : List Run}

/-! ## Items -/

theorem flattenAll_confined (h : ∀ p ∈ parts, p.Confining)
    (hItems : ValuesConfined level runs items) {fields : List Signal}
    (hOk : flattenAll parts items = .ok fields) : SignalsConfined level runs fields := by
  obtain ⟨chunks, hChunks, hEq⟩ := bind_eq_ok.1 hOk
  cases hEq
  intro s hs
  obtain ⟨chunk, hChunk, hs⟩ := List.mem_flatten.1 hs
  obtain ⟨⟨p, v⟩, hMem, hFlat⟩ := exists_of_mem_mapM_ok hChunks hChunk
  obtain ⟨hp, hv⟩ := List.of_mem_zip hMem
  exact (h p hp).flatten (hItems v hv) hFlat s hs

theorem rebuildAll_confined (h : ∀ p ∈ parts, p.Confining)
    {shares : List (List Signal × List Value)}
    (hShares : ∀ share ∈ shares,
      SignalsConfined level runs share.1 ∧ ValuesConfined level runs share.2)
    (hOk : rebuildAll parts shares = .ok items) : ValuesConfined level runs items := by
  intro v hv
  obtain ⟨⟨p, share⟩, hMem, hBack⟩ := exists_of_mem_mapM_ok hOk hv
  obtain ⟨hp, hShare⟩ := List.of_mem_zip hMem
  exact (h p hp).rebuild (hShares share hShare).1 (hShares share hShare).2 hBack

theorem checkAll_reaches (h : ∀ p ∈ parts, p.Confining)
    (hItems : ValuesConfined level runs items) :
    RunsReach level runs (checkAll parts items runs).2 := by
  refine Leads.forM fun entry hMem runs' hReach => ?_
  obtain ⟨hp, hv⟩ := List.of_mem_zip hMem
  exact (h entry.1 hp).check ((hItems entry.2 hv).mono hReach)

theorem expectItems_confined {typeName : String} {count : Nat} {v : Value}
    (hv : v.Confined level runs) (hOk : expectItems typeName count v = .ok items) :
    ValuesConfined level runs items := by
  obtain ⟨rfl, -⟩ := expectItems_eq_ok.1 hOk
  exact Value.itemsConfined_iff.1 hv

/-- A position that lists confining parts is confining. -/
theorem confining_sequence (typeName : String) (h : ∀ p ∈ parts, p.Confining) :
    (sequence typeName parts).Confining where
  flatten hv hOk := by
    obtain ⟨items, hItems, hAll⟩ := bind_eq_ok.1 hOk
    exact flattenAll_confined h (expectItems_confined hv hItems) hAll
  rebuild hFields hAux hOk := by
    obtain ⟨widths, -, hOk⟩ := bind_eq_ok.1 hOk
    obtain ⟨items, hItems, hEq⟩ := bind_eq_ok.1 hOk
    cases hEq
    exact Value.itemsConfined_iff.2
      (rebuildAll_confined h (shares_confined widths hFields hAux) hItems)
  check hv := reaches_lift_bind fun _ hItems =>
    checkAll_reaches h (expectItems_confined hv hItems)

/-- A position that holds items of one confining part is confining. -/
theorem confining_replicated (typeName : String) {p : Part} (h : p.Confining) (count : Nat) :
    (replicated typeName p count).Confining := by
  have hCopies : ∀ q ∈ List.replicate count p, q.Confining := fun q hq =>
    List.eq_of_mem_replicate hq ▸ h
  have hSequence := confining_sequence typeName hCopies
  refine ⟨fun {level runs v fields} hv hOk => ?_,
    fun {level runs fields aux v} hFields hAux hOk => ?_, fun {level runs v} hv => ?_⟩
  · rw [replicated_flatten] at hOk
    exact hSequence.flatten hv hOk
  · rw [replicated_rebuild_eq] at hOk
    obtain ⟨width, -, hOk⟩ := bind_eq_ok.1 hOk
    obtain ⟨items, hItems, hEq⟩ := bind_eq_ok.1 hOk
    cases hEq
    exact Value.itemsConfined_iff.2
      (rebuildAll_confined hCopies (shares_confined _ hFields hAux) hItems)
  · rw [replicated_check]
    exact hSequence.check hv

end

/-! ## Members -/

section

variable {members : List (String × Part)} {lookup : Lookup} {level : Nat} {runs : List Run}

/-- What a look-up finds belongs to the innermost run. -/
def FindsConfined (level : Nat) (runs : List Run) (lookup : Lookup) : Prop :=
  ∀ name v, lookup name = .ok v → v.Confined level runs

theorem flattenMembers_confined (h : ∀ m ∈ members, m.2.Confining)
    (hLookup : FindsConfined level runs lookup) {fields : List Signal}
    (hOk : flattenMembers lookup members = .ok fields) : SignalsConfined level runs fields := by
  obtain ⟨chunks, hChunks, hEq⟩ := bind_eq_ok.1 hOk
  cases hEq
  intro s hs
  obtain ⟨chunk, hChunk, hs⟩ := List.mem_flatten.1 hs
  obtain ⟨m, hm, hFlat⟩ := exists_of_mem_mapM_ok hChunks hChunk
  obtain ⟨v, hFound, hFlat⟩ := bind_eq_ok.1 hFlat
  exact (h m hm).flatten (hLookup m.1 v hFound) hFlat s hs

theorem rebuildMembers_confined (h : ∀ m ∈ members, m.2.Confining) {fields : List Signal}
    {aux : List Value} {record : Entries Value} (hFields : SignalsConfined level runs fields)
    (hAux : ValuesConfined level runs aux) (hOk : rebuildMembers members fields aux = .ok record) :
    Value.MembersConfined level runs record := by
  obtain ⟨widths, -, hOk⟩ := bind_eq_ok.1 hOk
  obtain ⟨rebuilt, hRebuilt, hEq⟩ := bind_eq_ok.1 hOk
  cases hEq
  refine Value.MembersConfined.ofList (Value.membersConfined_iff.2 fun m hm => ?_)
  obtain ⟨⟨member, share⟩, hMem, hBack⟩ := exists_of_mem_mapM_ok hRebuilt hm
  obtain ⟨hMember, hShare⟩ := List.of_mem_zip hMem
  obtain ⟨v, hv, hEq⟩ := bind_eq_ok.1 hBack
  cases hEq
  have hConfined := shares_confined widths hFields hAux share hShare
  exact (h member hMember).rebuild hConfined.1 hConfined.2 hv

theorem checkMembers_reaches (h : ∀ m ∈ members, m.2.Confining)
    (hLookup : FindsConfined level runs lookup) :
    RunsReach level runs (checkMembers lookup members runs).2 :=
  Leads.forM fun m hm _ hReach => reaches_lift_bind fun v hFound =>
    (h m hm).check ((hLookup m.1 v hFound).mono hReach)

theorem lookupKey_confined {typeName : String} {v : Value} (hv : v.Confined level runs) :
    FindsConfined level runs (lookupKey typeName v) := by
  intro name item hItem
  obtain ⟨tag?, record, rfl, hFound⟩ := lookupKey_eq_ok.1 hItem
  exact Value.MembersConfined.find? hv hFound

/-- An object of confining parts is confining. -/
theorem confining_object (typeName : String) (h : ∀ m ∈ members, m.2.Confining) :
    (object typeName members).Confining where
  flatten hv hOk := flattenMembers_confined h (lookupKey_confined hv) hOk
  rebuild hFields hAux hOk := by
    obtain ⟨record, hRecord, rfl⟩ := map_eq_ok.1 hOk
    exact rebuildMembers_confined h hFields hAux hRecord
  check hv := checkMembers_reaches h (lookupKey_confined hv)

/-- A fixed primitive is confining. -/
theorem confining_constant (typeName : String) (json : Json) :
    (constant typeName json).Confining where
  flatten _ hOk := by
    obtain ⟨_, -, rfl⟩ := map_eq_ok.1 hOk
    exact List.forall_mem_nil _
  rebuild _ _ hOk := by
    cases hOk
    trivial
  check _ := reaches_lift _

end

end Part

/-! ## Codecs -/

namespace Codec

/-- A codec makes no signals up. -/
def Confining (c : Codec) : Prop := c.uncounted.Confining

variable {c : Codec} {v : Value} {fields : List Signal} {aux : List Value} {level : Nat}
  {runs : List Run}

theorem toFields_confined (h : c.Confining) (hv : v.Confined level runs)
    (hOk : c.toFields v = .ok fields) : SignalsConfined level runs fields := by
  obtain ⟨out, hFlat, hOk⟩ := bind_eq_ok.1 hOk
  obtain ⟨width, -, hOk⟩ := bind_eq_ok.1 hOk
  have hOut : SignalsConfined level runs out := h.flatten hv hFlat
  split at hOk
  · cases hOk
    exact hOut
  · cases hOk

theorem ofFieldsWithAux_confined (h : c.Confining) (hFields : SignalsConfined level runs fields)
    (hAux : ValuesConfined level runs aux) (hOk : c.ofFieldsWithAux fields aux = .ok v) :
    v.Confined level runs := by
  obtain ⟨width, -, -, hOk⟩ := ofFieldsWithAux_eq_ok.1 hOk
  exact h.rebuild hFields hAux hOk

theorem check_reaches (h : c.Confining) (hv : v.Confined level runs) :
    RunsReach level runs (c.check v runs).2 := h.check hv

/-- A confining codec is confining at a position. -/
theorem confining_part (h : c.Confining) : c.part.Confining where
  flatten hv := toFields_confined h hv
  rebuild hFields hAux := ofFieldsWithAux_confined h hFields hAux
  check := h.check

/-- The type that takes exactly the counts of a confining part is confining. -/
theorem confining_ofPart {p : Part} (h : p.Confining) (capabilities : Capabilities) :
    (ofPart p capabilities).Confining where
  flatten := h.flatten
  rebuild hFields hAux hOk := by
    obtain ⟨width, -, hOk⟩ := bind_eq_ok.1 hOk
    split at hOk
    · cases hOk
    · split at hOk
      · cases hOk
      · exact h.rebuild hFields hAux hOk
  check := h.check

/-! ## The built-in types and types of the user -/

theorem single_confined {typeName : String} {s : Signal}
    (hFields : SignalsConfined level runs fields) (hOk : single typeName fields = .ok s) :
    Confined level runs s := by
  unfold single at hOk
  split at hOk
  · cases hOk
    exact hFields _ (List.mem_singleton_self _)
  · cases hOk

theorem expectSignal_confined {typeName : String} {s : Signal} (hv : v.Confined level runs)
    (hOk : expectSignal typeName v = .ok s) : Confined level runs s := by
  rw [expectSignal_eq_ok.1 hOk] at hv
  exact hv

theorem expectBit_confined {b : Bit} (hv : v.Confined level runs) (hOk : expectBit v = .ok b) :
    b.Confined level runs := by
  rw [expectBit_eq_ok.1 hOk] at hv
  exact hv

theorem confining_leaf (type : Leaf) : type.codec.Confining where
  flatten hv hOk := by
    cases Leaf.flattens_of_eq_ok hOk with
    | field | boolean | uint32 => exact List.forall_mem_singleton.2 hv
    | opaqueHost => exact List.forall_mem_nil _
  rebuild {level runs fields aux v} hFields hAux hOk := by
    cases type with
    | field | boolean | uint32 =>
        obtain ⟨s, hs, rfl⟩ := map_eq_ok.1 hOk
        exact single_confined hFields hs
    | opaqueHost =>
        have hBack : rebuildOpaque fields aux = .ok v := hOk
        unfold rebuildOpaque at hBack
        split at hBack
        · split at hBack
          · cases hBack
            exact hAux _ (List.mem_singleton_self _)
          · cases hBack
        · cases hBack
  check hv := by
    cases type with
    | field => exact .refl _
    | boolean =>
        exact reaches_lift_bind fun _ hb => Rule.boolean.assert_reaches (expectBit_confined hv hb)
    | uint32 =>
        exact reaches_lift_bind fun _ hs =>
          (Rule.range 32).assert_reaches (expectSignal_confined hv hs)
    | opaqueHost => exact reaches_lift _

theorem confining_plain (typeName : String) (h : c.Confining) :
    (plain typeName c).Confining where
  flatten hv := toFields_confined h hv
  rebuild hFields hAux := ofFieldsWithAux_confined h hFields hAux
  check := h.check

theorem confining_misdeclared (typeName : String) (claims produces : Nat) :
    (misdeclared typeName claims produces).Confining where
  flatten _ hOk := by
    cases hOk
    exact fun s hs => List.eq_of_mem_replicate hs ▸ confined_constant 0
  rebuild _ _ hOk := by
    cases hOk
    trivial
  check _ := .refl _

/-! ## Composites -/

theorem lookupMember_confined {name : String} {record : Entries Value} (hv : v.Confined level runs)
    (hRecord : expectRecord name v = .ok record) :
    Part.FindsConfined level runs (lookupMember name record) := by
  intro field item hItem
  have hMembers : Value.MembersConfined level runs record := by
    unfold expectRecord at hRecord
    cases v with
    | record tag? members =>
        dsimp only [Value.record?] at hRecord
        rcases tag? with _ | other
        · cases hRecord
          exact hv
        · dsimp only at hRecord
          split at hRecord
          · cases hRecord
            exact hv
          · cases hRecord
    | signal | bit | array | primitive | opaqueValue => cases hRecord
  exact hMembers.find? (lookupMember_eq_ok.1 hItem)

/-- A composite with confining members is confining. -/
theorem confining_composite (name : String) (json : Bool) {members : List (String × Codec)}
    (h : ∀ m ∈ members, m.2.Confining) : (composite name json members).Confining := by
  have hParts : ∀ m ∈ memberParts members, m.2.Confining := by
    intro m hm
    obtain ⟨member, hMember, rfl⟩ := List.mem_map.1 hm
    exact confining_part (h member hMember)
  exact {
    flatten := fun {level runs v fields} hv hOk => by
      have hVisit : onMembers name members [] (fun lookup =>
        Part.flattenMembers lookup (memberParts members)) v = .ok fields := hOk
      unfold onMembers at hVisit
      split at hVisit
      · cases hVisit
        exact List.forall_mem_nil _
      · obtain ⟨record, hRecord, hVisit⟩ := bind_eq_ok.1 hVisit
        exact Part.flattenMembers_confined hParts (lookupMember_confined hv hRecord) hVisit
    rebuild := fun hFields hAux hOk => by
      obtain ⟨widths, -, hOk⟩ := bind_eq_ok.1 hOk
      dsimp only at hOk
      split at hOk
      · cases hOk
      · split at hOk
        · cases hOk
        · obtain ⟨record, hRecord, rfl⟩ := map_eq_ok.1 hOk
          exact Part.rebuildMembers_confined hParts hFields hAux hRecord
    check := fun {level runs v} hv => by
      show RunsReach level runs ((if members.isEmpty then pure () else _ : Circuit Unit) runs).2
      split
      · exact .refl runs
      · exact reaches_lift_bind fun record hRecord =>
          Part.checkMembers_reaches hParts (lookupMember_confined hv hRecord) }

/-- A codec that is built when it is used is confining if what is built is. -/
theorem confining_deferred (typeName : String) (width : Unit → Except Error Width)
    (capabilities : Capabilities) {build : Nat → Except Error Codec}
    (h : ∀ size c, build size = .ok c → c.Confining) :
    (deferred typeName width capabilities build).Confining where
  flatten hv hOk := by
    obtain ⟨c, hc, hOk⟩ := bind_eq_ok.1 hOk
    exact (h _ c hc).flatten hv hOk
  rebuild hFields hAux hOk := by
    obtain ⟨c, hc, hOk⟩ := bind_eq_ok.1 hOk
    exact (h _ c hc).rebuild hFields hAux hOk
  check hv := reaches_lift_bind fun c hc => (h _ c hc).check hv

end Codec

/-! ## Types -/

/-- Everything that codecs are assembled with keeps them confining. -/
theorem Part.compositional_confining : Part.Compositional Part.Confining where
  leaf := Codec.confining_leaf
  part h := Codec.confining_part h
  withWidth h _ := { flatten := h.flatten, rebuild := h.rebuild, check := h.check }
  ofPart h := Codec.confining_ofPart h
  sequence typeName _ h := Part.confining_sequence typeName h
  replicated typeName _ h := Part.confining_replicated typeName h
  object typeName _ h := Part.confining_object typeName h
  constant := Part.confining_constant
  composite name json _ h := Codec.confining_composite name json h
  deferred typeName width capabilities _ h :=
    Codec.confining_deferred typeName width capabilities h
  plain typeName _ h := Codec.confining_plain typeName h
  misdeclared := Codec.confining_misdeclared

/-- The codec of a type is confining, whatever is registered. -/
theorem Registry.confining_codec (r : Registry) (d : Descriptor) : (r.codec d).Confining :=
  Part.compositional_confining.codec r d

end TypedCircuit
