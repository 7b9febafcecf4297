import TypedCircuit.Proofs.Circuit.Checked
import TypedCircuit.Proofs.Memo.Growth

/-!
# What a slot says of a value

The contents of a value are what is known of its elements, and its auxiliary data. A slot holds
contents, and the value of a memoized witness has the contents of its slot, whether the slot was
filled by the witness itself or before.

A slot *fits* a type if its elements and auxiliary data are as many as the type takes, and it
*serves* a type in a pass if moreover the check of the type accepts its elements, which only a
prove pass asks for. With a slot that serves, a witness needs nothing else to succeed.

## Main results

* `Construction.memoizedWitness_filled` — a witness whose slot is filled and serves.
* `Construction.memoizedWitness_ok` — a witness that succeeded and has filled its slot.
* `Construction.memoizedWitness_compile` — a witness that nothing is computed for.
-/

namespace TypedCircuit

variable {host : Type}

/-! ## Contents -/

/-- What is known of elements, and auxiliary data. -/
abbrev Contents := List (Option Element) × List Value

/-- What a value consists of as a value of a type. -/
def Codec.contents (c : Codec) (v : Value) : Except Error Contents := do
  let fields ← c.toFields v
  return (fields.map Signal.known?, c.auxiliary v)

theorem Codec.contents_eq_ok {c : Codec} {v : Value} {fields : List Signal}
    (h : c.toFields v = .ok fields) :
    c.contents v = .ok (fields.map Signal.known?, c.auxiliary v) := by
  unfold contents
  rw [h]
  rfl

namespace Slot

/-- What a slot holds. -/
def contents (slot : Slot) : Contents := (slot.fields.map some, slot.aux)

theorem contents_injective {slot slot' : Slot} (h : slot.contents = slot'.contents) :
    slot = slot' := by
  obtain ⟨fields, aux⟩ := slot
  obtain ⟨fields', aux'⟩ := slot'
  obtain ⟨hFields, rfl⟩ := Prod.mk.inj h
  obtain rfl : fields = fields' := List.map_injective_iff.2 (fun _ _ => Option.some.inj) hFields
  rfl

/-- A slot has what a value of a type can be made of. -/
structure Fits (slot : Slot) (law : Part.Law) : Prop where
  fields_length : slot.fields.length = law.width.fields
  aux_length : slot.aux.length = law.width.aux
  hostData : ∀ a ∈ slot.aux, a.HostData

/-- In a pass of a mode a slot has what a value of a type can be made of that is accepted. -/
def Serves (slot : Slot) (c : Codec) (mode? : Option Mode) : Prop :=
  ∃ law, c.part.Lawful law ∧ slot.Fits law ∧
    (mode? = some .prove → RulesHold law.rules slot.fields)

end Slot

namespace Construction

variable {s s' between : Session host} {ctx : MemoContext} {outer : List MemoContext}
  {d : Descriptor} {compute : Construction host Value} {law : Part.Law} {slot : Slot}

/-! ## Slots that fit -/

/-- What was computed for a lawful type fits it. -/
theorem fits_of_computeSlot (hLaw : (s'.registry.codec d).part.Lawful law)
    (h : computeSlot d compute s = (.ok slot, s')) : slot.Fits law := by
  obtain ⟨v, fields, -, hFields, hValues, hAux⟩ := computeSlot_ok h
  refine ⟨?_, ?_, hostData_of_computeSlot h⟩
  · rw [← (mapM_eq_ok.1 hValues).length_eq]
    exact hLaw.fields_length hFields
  · rw [hAux]
    exact hLaw.aux_length hFields

theorem replayed_eq_ok {c : Codec} {v : Value} :
    replayed c slot = .ok v ↔ ∃ width, c.width () = .ok width ∧
      slot.fields.length = width.fields ∧
      c.ofFieldsWithAux (slot.fields.map .constant) slot.aux = .ok v := by
  unfold replayed
  rw [TypedCircuit.bind_eq_ok]
  refine exists_congr fun width => and_congr_right fun _ => ?_
  split
  · next hLength => exact ⟨fun h => ⟨hLength, h⟩, fun h => h.2⟩
  · next hLength => exact ⟨nofun, fun h => absurd h.1 hLength⟩

/-- What can be replayed for a lawful type fits it. -/
theorem fits_of_replayed {c : Codec} (hLaw : c.part.Lawful law)
    (hHost : ∀ a ∈ slot.aux, a.HostData) {v : Value} (h : replayed c slot = .ok v) :
    slot.Fits law := by
  have hWidth : c.width () = .ok law.width := hLaw.width_eq
  obtain ⟨width, hFieldsWidth, hFields, hBack⟩ := replayed_eq_ok.1 h
  obtain rfl := Except.ok.inj (hWidth.symm.trans hFieldsWidth)
  obtain ⟨width, hAuxWidth, hAux, -⟩ := Codec.ofFieldsWithAux_eq_ok.1 hBack
  obtain rfl := Except.ok.inj (hWidth.symm.trans hAuxWidth)
  exact ⟨hFields, hAux, hHost⟩

/-- A slot that fits a lawful type is replayed by constants. -/
theorem replayed_ok {c : Codec} (hLaw : c.part.Lawful law) (hFits : slot.Fits law) :
    ∃ u, replayed c slot = .ok u ∧ c.toFields u = .ok (slot.fields.map .constant) ∧
      c.auxiliary u = slot.aux := by
  have hLength : (slot.fields.map Signal.constant).length = law.width.fields := by
    rw [List.length_map, hFits.fields_length]
  obtain ⟨u, hBack, hFlat, hSame, -⟩ :=
    hLaw.rebuild_ok hLength hFits.aux_length hFits.hostData
  exact ⟨u, replayed_eq_ok.2 ⟨law.width, hLaw.width_eq, hFits.fields_length, hBack⟩, hFlat, hSame⟩

/-! ## Witnesses of what is replayed -/

theorem exists_run {runs : List Run} {mode : Mode} (h : activeMode? runs = some mode) :
    ∃ run outer, runs = run :: outer ∧ run.mode = mode := by
  cases runs with
  | nil => cases h
  | cons run outer => exact ⟨run, outer, rfl, Option.some.inj h⟩

theorem known_slot (slot : Slot) (index : Nat) :
    (inputsFrom .prove index (slot.fields.map some)).map Signal.known? = slot.fields.map some := by
  rw [known_inputsFrom, List.map_map]
  rfl

/-- In a prove pass the elements of a slot that is replayed become variables. -/
theorem witness_replayed (hCompute : compute s = (replayed (s.registry.codec d) slot, between))
    (hRegistry : between.registry = s.registry) (hProve : activeMode? s.runs = some .prove)
    (hMode : activeMode? between.runs = activeMode? s.runs)
    (hLaw : (s.registry.codec d).part.Lawful law) (hFits : slot.Fits law) :
    ∃ index runs, activeMode? runs = some .prove ∧ witness d compute s =
      checkedValue (s.registry.codec d) (inputsFrom .prove index (slot.fields.map some)) slot.aux
        { between with runs } := by
  obtain ⟨u, hReplayed, hFlat, hAux⟩ := replayed_ok hLaw hFits
  rw [hReplayed] at hCompute
  obtain ⟨run, outer, hRuns, hRun⟩ := exists_run hProve
  obtain ⟨run', outer', hAfter, hRun'⟩ := exists_run (hMode.trans hProve)
  refine ⟨run'.values.size, (run'.introduce (slot.fields.map some)).2 :: outer', ?_, ?_⟩
  · rw [Run.introduce_eq]
    exact congrArg some hRun'
  · rw [witness_constants hRuns hRun hCompute hRegistry hAfter hLaw hFlat, hAux,
      Run.introduce_eq, hRun']

/-- A witness whose computation replays a slot that serves has the contents of the slot. -/
theorem witness_serving (hCompute : compute s = (replayed (s.registry.codec d) slot, between))
    (hRegistry : between.registry = s.registry)
    (hMode : activeMode? between.runs = activeMode? s.runs)
    (hValued : activeMode? s.runs ≠ some .compile)
    (hServes : slot.Serves (s.registry.codec d) (activeMode? s.runs)) :
    ∃ v runs, witness d compute s = (.ok v, { between with runs }) ∧
      activeMode? runs = activeMode? s.runs ∧
      (s.registry.codec d).contents v = .ok slot.contents := by
  obtain ⟨law, hLaw, hFits, hAccepted⟩ := hServes
  cases hRuns : s.runs with
  | nil =>
      obtain ⟨u, hReplayed, hFlat, hAux⟩ := replayed_ok hLaw hFits
      rw [witness_unchecked hRuns, hCompute, hReplayed]
      refine ⟨u, between.runs, rfl, hMode.trans (congrArg activeMode? hRuns), ?_⟩
      rw [Codec.contents_eq_ok hFlat, hAux, List.map_map]
      rfl
  | cons run outer =>
      have hProve : activeMode? s.runs = some .prove := by
        rw [hRuns] at hValued ⊢
        cases hRun : run.mode with
        | compile => exact absurd (congrArg some hRun) hValued
        | prove => exact congrArg some hRun
      obtain ⟨index, runs, hRunsMode, hWitness⟩ :=
        witness_replayed hCompute hRegistry hProve hMode hLaw hFits
      have hFields : (inputsFrom .prove index (slot.fields.map some)).length =
          law.width.fields := by
        rw [inputsFrom_length, List.length_map, hFits.fields_length]
      obtain ⟨v, hChecked, hFlat, hAux⟩ := checkedValue_ok hLaw hFields hFits.aux_length
        hFits.hostData ((passes_inputsFrom_prove index).2 (hAccepted hProve))
        { between with runs }
      refine ⟨v, _, hWitness.trans hChecked, ?_, ?_⟩
      · rw [← hRuns, hProve, ← hRunsMode]
        cases runs <;> rfl
      · rw [Codec.contents_eq_ok hFlat, hAux, known_slot]
        rfl

/-- If a witness whose computation replays a slot that fits has succeeded, the slot serves. -/
theorem serves_of_witness_ok
    (hCompute : compute s = (replayed (s.registry.codec d) slot, between))
    (hRegistry : between.registry = s.registry)
    (hMode : activeMode? between.runs = activeMode? s.runs)
    (hLaw : (s.registry.codec d).part.Lawful law) (hFits : slot.Fits law) {v : Value}
    (h : witness d compute s = (.ok v, s')) :
    slot.Serves (s.registry.codec d) (activeMode? s.runs) := by
  refine ⟨law, hLaw, hFits, fun hProve => ?_⟩
  by_contra hRefused
  obtain ⟨index, runs, -, hWitness⟩ :=
    witness_replayed hCompute hRegistry hProve hMode hLaw hFits
  have hFields : (inputsFrom .prove index (slot.fields.map some)).length = law.width.fields := by
    rw [inputsFrom_length, List.length_map, hFits.fields_length]
  obtain ⟨e, after, hFails⟩ := checkedValue_error hLaw hFields hFits.aux_length hFits.hostData
    (fun hPasses => hRefused ((passes_inputsFrom_prove index).1 hPasses)) { between with runs }
  rw [hWitness, hFails] at h
  cases h

/-! ## Memoized witnesses -/

theorem memoizedWitness_pinned (h : s.contexts = ctx :: outer) (d : Descriptor)
    (compute : Construction host Value) :
    memoizedWitness d compute s = witness d (pinned d compute) s := by
  rw [memoizedWitness_eq, h]
  rfl

/-- With a filled slot a memoized witness does nothing else than to replay the slot. -/
theorem pinned_replayed (h : s.contexts = ctx :: outer) (hSlot : ctx.slot? ctx.cursor = some slot)
    (d : Descriptor) (compute : Construction host Value) :
    pinned d compute s =
      (replayed (s.registry.codec d) slot, { s with contexts := ctx.reserve.2 :: outer }) := by
  rw [pinned_filled h hSlot, replay_eq]

/-- A memoized witness whose slot is filled and serves has the contents of the slot, whatever its
computation is. -/
theorem memoizedWitness_filled (h : s.contexts = ctx :: outer)
    (hSlot : ctx.slot? ctx.cursor = some slot)
    (hValued : activeMode? s.runs ≠ some .compile)
    (hServes : slot.Serves (s.registry.codec d) (activeMode? s.runs)) :
    ∃ v runs, (∀ compute : Construction host Value, memoizedWitness d compute s =
        (.ok v, { s with runs, contexts := ctx.reserve.2 :: outer })) ∧
      activeMode? runs = activeMode? s.runs ∧
      (s.registry.codec d).contents v = .ok slot.contents := by
  have hPinned (compute : Construction host Value) := pinned_replayed h hSlot d compute
  obtain ⟨v, runs, hWitness, hMode, hContents⟩ :=
    witness_serving (hPinned (pure .null)) rfl rfl hValued hServes
  refine ⟨v, runs, fun compute => ?_, hMode, hContents⟩
  rw [memoizedWitness_pinned h,
    witness_congr ((hPinned compute).trans (hPinned (pure .null)).symm), hWitness]

/-- A memoized witness that has succeeded although its computation fails has found a slot that
serves. -/
theorem exists_slot_of_failing (h : s.contexts = ctx :: outer) (hSound : ctx.Sound)
    (hValued : activeMode? s.runs ≠ some .compile)
    (hLaw : (s.registry.codec d).part.Lawful law) {e : Error} {v : Value}
    (hOk : memoizedWitness d (throw e) s = (.ok v, s')) :
    ∃ slot, ctx.slot? ctx.cursor = some slot ∧
      slot.Serves (s.registry.codec d) (activeMode? s.runs) := by
  rw [memoizedWitness_pinned h] at hOk
  cases hSlot : ctx.slot? ctx.cursor with
  | none =>
      have hFailed : computeSlot d (throw e) { s with contexts := ctx.reserve.2 :: outer } =
          (.error e, { s with contexts := ctx.reserve.2 :: outer }) := rfl
      have hPinned := pinned_empty h hSlot d (throw e)
      rw [bind_error hFailed] at hPinned
      obtain ⟨e', after, hFails⟩ := witness_fails hValued hPinned d
      rw [hFails] at hOk
      cases hOk
  | some slot =>
      have hPinned := pinned_replayed h hSlot d (throw e)
      refine ⟨slot, rfl, ?_⟩
      cases hReplayed : replayed (s.registry.codec d) slot with
      | error e' =>
          obtain ⟨e', after, hFails⟩ :=
            witness_fails hValued (hPinned.trans (congrArg (·, _) hReplayed)) d
          rw [hFails] at hOk
          cases hOk
      | ok u =>
          have hFits := fits_of_replayed hLaw (hSound _ _ hSlot) hReplayed
          exact serves_of_witness_ok hPinned rfl rfl hLaw hFits hOk

/-- A memoized witness that has succeeded on an empty slot has filled it with its contents. If its
computation leaves the contexts alone, it has taken no other slot. -/
theorem memoizedWitness_ok (h : s.contexts = ctx :: outer) (hEmpty : ctx.slot? ctx.cursor = none)
    (hValued : activeMode? s.runs ≠ some .compile) (hSteady : Steady ContextsExtend compute)
    (hLaw : (s.registry.codec d).part.Lawful law) {v : Value}
    (hOk : memoizedWitness d compute s = (.ok v, s')) :
    ∃ slot ctx', s'.contexts = ctx' :: outer ∧ ctx'.slot? ctx.cursor = some slot ∧
      slot.Serves (s.registry.codec d) (activeMode? s.runs) ∧
      (s.registry.codec d).contents v = .ok slot.contents ∧
      (Steady Eq compute → ctx'.cursor = ctx.cursor + 1) := by
  rw [memoizedWitness_pinned h] at hOk
  rcases hSlot : computeSlot d compute { s with contexts := ctx.reserve.2 :: outer } with
    ⟨e | slot, after⟩
  · have hPinned := pinned_empty h hEmpty d compute
    rw [bind_error hSlot] at hPinned
    obtain ⟨e', after, hFails⟩ := witness_fails hValued hPinned d
    rw [hFails] at hOk
    cases hOk
  · have hEvolves := (evolves_reserve h).trans (hSteady.computeSlot d _)
    rw [hSlot] at hEvolves
    obtain ⟨ctx', hExtends, hContexts, hPinned⟩ := pinned_computed h hEmpty hSteady hSlot
    have hFits : slot.Fits law := by
      rw [← hEvolves.registry_eq] at hLaw
      exact fits_of_computeSlot hLaw hSlot
    have hReplayed : pinned d compute s = (replayed (s.registry.codec d) slot,
        { after with contexts := ctx'.fill ctx.cursor slot :: outer }) := by
      rw [hPinned, replay_eq]
      exact congrArg (fun r : Registry => (replayed (r.codec d) slot, _)) hEvolves.registry_eq
    have hServes := serves_of_witness_ok hReplayed hEvolves.registry_eq hEvolves.mode_eq hLaw
      hFits hOk
    obtain ⟨w, runs, hWitness, -, hContents⟩ :=
      witness_serving hReplayed hEvolves.registry_eq hEvolves.mode_eq hValued hServes
    obtain ⟨hValue, hSession⟩ := Prod.mk.inj (hOk.symm.trans hWitness)
    obtain rfl := Except.ok.inj hValue
    refine ⟨slot, _, congrArg Session.contexts hSession, ?_, hServes, hContents, fun hAlone => ?_⟩
    · exact MemoContext.slot?_fill_reserved hExtends slot
    · have hSame := (hAlone.computeSlot d { s with contexts := ctx.reserve.2 :: outer }).contexts
      rw [hSlot, hContexts] at hSame
      exact congrArg MemoContext.cursor (List.cons.inj hSame).1.symm

/-- In a compile pass a memoized witness reserves no slot and has no computation executed. -/
theorem memoizedWitness_compile (hMode : activeMode? s.runs = some .compile)
    (hLaw : (s.registry.codec d).part.Lawful law) :
    ∃ v runs, (∀ compute : Construction host Value,
        memoizedWitness d compute s = (.ok v, { s with runs })) ∧
      activeMode? runs = activeMode? s.runs ∧
      (s.registry.codec d).contents v = .ok (List.replicate law.width.fields none,
        List.replicate law.width.aux Value.null) := by
  obtain ⟨run, outer, hRuns, hRun⟩ := exists_run hMode
  obtain ⟨v, hWitness, hFlat, hAux⟩ := witness_blank hRuns hRun hLaw rfl
  refine ⟨v, _, fun compute => (memoizedWitness_eq d compute s).trans (hWitness _), ?_, ?_⟩
  · rw [Run.introduce_eq, hRuns]
    rfl
  · rw [Codec.contents_eq_ok hFlat, hAux, known_inputsFrom, List.map_replicate]
    rfl

end Construction

end TypedCircuit
