import TypedCircuit.Proofs.Circuit.Acceptance
import TypedCircuit.Proofs.Memo.Replay

/-!
# Calls that consult a context

Two operations consult the innermost memoization context: a memoized witness, which asks for the
next slot, and the blinding value. Outside every circuit such a call pins what it asks for, and
returns it as constants. In a prove pass a call that finds what it asks for returns new variables
of the same contents and moves nothing but the cursor.

What a call adds to a circuit depends on its type alone, since neither the variables of private
inputs nor the gates of their rules tell anything of values. A compile pass, which consults no
context, adds the same.

## Main results

* `Run.constraintSystem_withInputs` — what private inputs of a type add to a circuit.
* `MemoCall.pins_of_run` — a call outside every circuit pins what it asks for.
* `MemoCall.prove_of_held`, `MemoCall.run_compile` — a call in a prove pass and in a compile pass.
-/

namespace TypedCircuit

variable {host : Type}

/-! ## Calls -/

/-- A call that consults the innermost context. -/
inductive MemoCall (host : Type) where
  /-- A memoized witness of a type. -/
  | witness (d : Descriptor) (compute : Construction host Value)
  /-- The blinding value. -/
  | blinding

/-- What a call asks for. -/
inductive Request where
  /-- The next slot, for a value of a type. -/
  | slot (d : Descriptor)
  /-- The blinding value. -/
  | blinding

namespace Request

/-- The type of what is asked for. -/
def type : Request → Descriptor
  | slot d => d
  | blinding => .field

/-- What a context holds of it, with the cursor at a slot. -/
def held? (ctx : MemoContext) (index : Nat) : Request → Option Slot
  | slot _ => ctx.slot? index
  | blinding => ctx.blinding?.map fun x => ⟨[x], []⟩

/-- Where the cursor is afterwards. -/
def next (index : Nat) : Request → Nat
  | slot _ => index + 1
  | blinding => index

end Request

namespace MemoCall

/-- What the call asks for. -/
def request : MemoCall host → Request
  | witness d _ => .slot d
  | blinding => .blinding

/-- Executes a call. -/
def run : MemoCall host → Construction host Value
  | witness d compute => Construction.memoizedWitness d compute
  | blinding => return .signal (← Construction.blindingValue)

end MemoCall

/-- The types of what is asked for have the same codecs in two registries. -/
def Registry.AgreeOn (requests : List Request) (r r' : Registry) : Prop :=
  ∀ request ∈ requests, r'.codec request.type = r.codec request.type

namespace Registry.AgreeOn

variable {requests : List Request} {r r' r'' : Registry}

theorem refl (requests : List Request) (r : Registry) : AgreeOn requests r r := fun _ _ => rfl

/-- Types that mention no names have the same codecs in all registries. -/
theorem of_nameless (h : ∀ request ∈ requests, request.type.mentions = []) (r r' : Registry) :
    AgreeOn requests r r' := by
  intro request hRequest
  refine request.type.codec_congr fun name hName => ?_
  rw [h request hRequest] at hName
  cases hName

theorem trans (h : AgreeOn requests r r') (h' : AgreeOn requests r' r'') :
    AgreeOn requests r r'' := fun request hRequest =>
  (h' request hRequest).trans (h request hRequest)

theorem tail {request : Request} (h : AgreeOn (request :: requests) r r') :
    AgreeOn requests r r' := fun other hOther => h other (List.mem_cons_of_mem _ hOther)

theorem head {request : Request} (h : AgreeOn (request :: requests) r r') :
    r'.codec request.type = r.codec request.type := h request List.mem_cons_self

end Registry.AgreeOn

/-- A computation that touches neither circuits nor contexts, nor the codecs of what is asked
for. -/
def Construction.Apart (requests : List Request) (compute : Construction host Value) : Prop :=
  ∀ s : Session host, (compute s).2.runs = s.runs ∧ (compute s).2.contexts = s.contexts ∧
    Registry.AgreeOn requests s.registry (compute s).2.registry

/-- A call whose computation touches neither circuits nor contexts. -/
def MemoCall.Apart (requests : List Request) : MemoCall host → Prop
  | witness _ compute => compute.Apart requests
  | blinding => True

/-! ## Contexts -/

namespace MemoContext

/-- The context with the cursor at a slot. -/
def seek (ctx : MemoContext) (index : Nat) : MemoContext := { ctx with cursor := index }

/-- What is pinned in a context is pinned in another one. -/
structure Kept (ctx ctx' : MemoContext) : Prop where
  slot?_some {index : Nat} {slot : Slot} (h : ctx.slot? index = some slot) :
    ctx'.slot? index = some slot
  blinding?_some {x : Element} (h : ctx.blinding? = some x) : ctx'.blinding? = some x

theorem Kept.refl (ctx : MemoContext) : ctx.Kept ctx := ⟨id, id⟩

theorem Kept.trans {ctx between ctx' : MemoContext} (h : ctx.Kept between)
    (h' : between.Kept ctx') : ctx.Kept ctx' :=
  ⟨fun hSlot => h'.slot?_some (h.slot?_some hSlot),
    fun hBlinding => h'.blinding?_some (h.blinding?_some hBlinding)⟩

theorem Kept.held? {ctx ctx' : MemoContext} (h : ctx.Kept ctx') {request : Request} {index : Nat}
    {slot : Slot} (hHeld : request.held? ctx index = some slot) :
    request.held? ctx' index = some slot := by
  cases request with
  | slot d => exact h.slot?_some hHeld
  | blinding =>
      obtain ⟨x, hBlinding, rfl⟩ := Option.map_eq_some_iff.1 hHeld
      exact congrArg (Option.map _) (h.blinding?_some hBlinding)

/-- Reserving a slot that there is moves the cursor on. -/
theorem reserve_seek {ctx : MemoContext} {index : Nat} {slot : Slot}
    (h : ctx.slot? index = some slot) : (ctx.seek index).reserve.2 = ctx.seek (index + 1) := by
  have hBound : index < ctx.slots.size := by
    by_contra hAbove
    rw [slot?, Array.getElem?_eq_none (Nat.not_lt.1 hAbove)] at h
    cases h
  have hMissing : index + 1 - ctx.slots.size = 0 := by omega
  show MemoContext.mk (ctx.slots ++ Array.replicate (index + 1 - ctx.slots.size) none) _ _ = _
  rw [hMissing, Array.replicate_zero, Array.append_empty]
  rfl

end MemoContext

/-! ## Private inputs of a type -/

/-- The circuit with one more value of a lawful type as private inputs. -/
def ConstraintSystem.withInputs (cs : ConstraintSystem) (law : Part.Law) : ConstraintSystem :=
  ⟨cs.variableCount + law.width.fields, cs.witnessCount + law.width.fields,
    cs.gates ++ assertedGates law.rules
      (inputsFrom .compile cs.variableCount (List.replicate law.width.fields none))⟩

/-- The run after private inputs are introduced and rules are asserted of them. -/
def Run.withInputs (run : Run) (values : List (Option Element)) (rules : List Rule) : Run :=
  { (run.introduce values).2 with
    gates := run.gates ++
      (assertedGates rules (inputsFrom run.mode run.values.size values)).toArray }

theorem Run.recordAll_inputs (run : Run) (values : List (Option Element)) (rules : List Rule)
    (outer : List Run) :
    recordAll ((run.introduce values).2 :: outer)
        (assertedGates rules (inputsFrom run.mode run.values.size values)) =
      run.withInputs values rules :: outer := by
  unfold withInputs
  rw [introduce_eq]
  rfl

theorem Run.withInputs_mode (run : Run) (values : List (Option Element)) (rules : List Rule) :
    (run.withInputs values rules).mode = run.mode := by
  unfold withInputs
  rw [introduce_eq]

/-- What private inputs of a lawful type add to a circuit depends neither on their values nor on
the mode of the pass. -/
theorem Run.constraintSystem_withInputs (run : Run) {law : Part.Law}
    {values : List (Option Element)} (h : values.length = law.width.fields) :
    (run.withInputs values law.rules).constraintSystem = run.constraintSystem.withInputs law := by
  have hBlank : values.length =
      (List.replicate law.width.fields (none : Option Element)).length := by
    rw [h, List.length_replicate]
  have hGates := assertedGates_inputsFrom law.rules run.mode .compile run.values.size hBlank
  unfold withInputs
  rw [introduce_eq, hGates]
  simp [constraintSystem, ConstraintSystem.withInputs, h]

namespace Construction

variable {s s' : Session host} {run : Run} {outer : List Run} {d : Descriptor} {law : Part.Law}

/-- In a prove pass a witness that succeeds has the contents of the constants that were computed for
it, and adds private inputs to the circuit. -/
theorem witness_of_constants {contexts : List MemoContext} {compute : Construction host Value}
    {u v : Value} {slot : Slot} (hRuns : s.runs = run :: outer) (hMode : run.mode = .prove)
    (hCompute : compute s = (.ok u, { s with contexts }))
    (hLaw : (s.registry.codec d).part.Lawful law) (hFits : slot.Fits law)
    (hFlat : (s.registry.codec d).toFields u = .ok (slot.fields.map .constant))
    (hAux : (s.registry.codec d).auxiliary u = slot.aux) (hOk : witness d compute s = (.ok v, s')) :
    (s.registry.codec d).contents v = .ok slot.contents ∧
      s' = { s with
        contexts, runs := run.withInputs (slot.fields.map some) law.rules :: outer } := by
  have hWitness := witness_constants hRuns hMode hCompute rfl hRuns hLaw hFlat
  have hInputs : (run.introduce (slot.fields.map some)).1 =
      inputsFrom .prove run.values.size (slot.fields.map some) := by
    rw [Run.introduce_eq, hMode]
  have hFields : (inputsFrom .prove run.values.size (slot.fields.map some)).length =
      law.width.fields := by
    rw [inputsFrom_length, List.length_map, hFits.fields_length]
  rw [hWitness, hInputs, hAux] at hOk
  by_cases hHold : RulesHold law.rules slot.fields
  · obtain ⟨w, hChecked, hFlatW, hAuxW⟩ := checkedValue_ok hLaw hFields hFits.aux_length
      hFits.hostData ((passes_inputsFrom_prove run.values.size).2 hHold)
      { s with contexts, runs := (run.introduce (slot.fields.map some)).2 :: outer }
    obtain ⟨hValue, hSession⟩ := Prod.mk.inj (hOk.symm.trans hChecked)
    obtain rfl := Except.ok.inj hValue
    refine ⟨?_, ?_⟩
    · rw [Codec.contents_eq_ok hFlatW, hAuxW, known_slot]
      rfl
    · rw [hSession, ← hMode, Run.recordAll_inputs]
  · obtain ⟨e, after, hFails⟩ := checkedValue_error hLaw hFields hFits.aux_length hFits.hostData
      (fun hPasses => hHold ((passes_inputsFrom_prove run.values.size).1 hPasses))
      { s with contexts, runs := (run.introduce (slot.fields.map some)).2 :: outer }
    cases hOk.symm.trans hFails

/-- In a compile pass a witness adds private inputs to the circuit and touches no context. -/
theorem witness_adds (hRuns : s.runs = run :: outer) (hMode : run.mode = .compile)
    (hLaw : (s.registry.codec d).part.Lawful law) :
    ∃ v, (∀ compute : Construction host Value, witness d compute s =
        (.ok v, { s with
          runs := run.withInputs (List.replicate law.width.fields none) law.rules :: outer })) ∧
      ∃ fields, (s.registry.codec d).toFields v = .ok fields := by
  obtain ⟨v, hWitness, hFlat, -⟩ := witness_blank hRuns hMode hLaw rfl
  refine ⟨v, fun compute => ?_, _, hFlat⟩
  rw [hWitness compute, ← hMode, Run.recordAll_inputs]

end Construction

/-! ## One call -/

namespace MemoCall

open Construction

variable {s s' : Session host} {call : MemoCall host} {v : Value}

/-- What the witness of a call is computed by, in a context. -/
def source : MemoCall host → Construction host Value
  | witness d compute => pinned d compute
  | blinding => return .ofElement (← blindingElement)

/-- In a context a call that succeeds is a witness of what the context pins for it. -/
theorem witness_of_run {ctx : MemoContext} {contexts : List MemoContext}
    (hContexts : s.contexts = ctx :: contexts) (h : call.run s = (.ok v, s')) :
    Construction.witness call.request.type call.source s = (.ok v, s') := by
  cases call with
  | witness d compute => rwa [run, memoizedWitness_pinned hContexts] at h
  | blinding =>
      obtain ⟨x, between, hBlinding, h⟩ := Construction.bind_eq_ok h
      cases h
      obtain ⟨w, after, hWitness, h⟩ := Construction.bind_eq_ok hBlinding
      cases hExpect : Codec.expectSignal "Field" w with
      | error e =>
          rw [hExpect] at h
          cases h
      | ok y =>
          rw [hExpect] at h
          cases h
          obtain rfl := Codec.expectSignal_eq_ok.1 hExpect
          exact hWitness

/-- A call that finds what it asks for computes the constants of it and moves the cursor on. -/
theorem source_of_held {ctx : MemoContext} {contexts : List MemoContext} {index : Nat}
    {slot : Slot} {law : Part.Law} (hContexts : s.contexts = ctx.seek index :: contexts)
    (hHeld : call.request.held? ctx index = some slot)
    (hLaw : (s.registry.codec call.request.type).part.Lawful law) (hFits : slot.Fits law) :
    ∃ u, call.source s = (.ok u, { s with
        contexts := ctx.seek (call.request.next index) :: contexts }) ∧
      (s.registry.codec call.request.type).toFields u = .ok (slot.fields.map .constant) ∧
      (s.registry.codec call.request.type).auxiliary u = slot.aux := by
  cases call with
  | witness d compute =>
      obtain ⟨u, hReplayed, hFlat, hAux⟩ := replayed_ok hLaw hFits
      have hPinned := pinned_replayed hContexts hHeld d compute
      rw [MemoContext.reserve_seek hHeld] at hPinned
      exact ⟨u, hPinned.trans (congrArg (·, _) hReplayed), hFlat, hAux⟩
  | blinding =>
      obtain ⟨x, hBlinding, rfl⟩ := Option.map_eq_some_iff.1 hHeld
      refine ⟨.ofElement x, ?_, rfl, rfl⟩
      have hRead := updateContext_eq hContexts fun ctx => (ctx.blinding?, ctx)
      rw [show (ctx.seek index).blinding? = some x from hBlinding] at hRead
      have hElement : blindingElement s =
          (.ok x, { s with contexts := ctx.seek index :: contexts }) := bind_ok hRead
      exact bind_ok hElement

/-- In a prove pass a call that finds what it asks for, and succeeds, has a value of the same
contents, moves nothing in the context but the cursor, and adds private inputs to the circuit. -/
theorem prove_of_held {run : Run} {outer : List Run} {ctx : MemoContext}
    {contexts : List MemoContext} {index : Nat} {slot : Slot} {law : Part.Law}
    (hContexts : s.contexts = ctx.seek index :: contexts) (hRuns : s.runs = run :: outer)
    (hMode : run.mode = .prove) (hHeld : call.request.held? ctx index = some slot)
    (hLaw : (s.registry.codec call.request.type).part.Lawful law) (hFits : slot.Fits law)
    (hOk : call.run s = (.ok v, s')) :
    (s.registry.codec call.request.type).contents v = .ok slot.contents ∧
      s' = { s with
        contexts := ctx.seek (call.request.next index) :: contexts
        runs := run.withInputs (slot.fields.map some) law.rules :: outer } := by
  obtain ⟨u, hSource, hFlat, hAux⟩ := source_of_held hContexts hHeld hLaw hFits
  exact witness_of_constants hRuns hMode hSource hLaw hFits hFlat hAux
    (witness_of_run hContexts hOk)

/-- In a compile pass a call adds private inputs of its type to the circuit. -/
theorem run_compile {run : Run} {outer : List Run} {law : Part.Law} (hRuns : s.runs = run :: outer)
    (hMode : run.mode = .compile) (hLaw : (s.registry.codec call.request.type).part.Lawful law) :
    ∃ v, call.run s = (.ok v, { s with
      runs := run.withInputs (List.replicate law.width.fields none) law.rules :: outer }) := by
  obtain ⟨v, hWitness, fields, hFlat⟩ := witness_adds hRuns hMode hLaw
  refine ⟨v, ?_⟩
  cases call with
  | witness d compute => exact (memoizedWitness_eq d compute s).trans (hWitness _)
  | blinding =>
      obtain ⟨out, hOut, -⟩ := TypedCircuit.bind_eq_ok.1 hFlat
      obtain ⟨x, hExpect, -⟩ := map_eq_ok.1 hOut
      have hBlinding : blindingValue s = (.ok x, _) :=
        (bind_ok (hWitness _)).trans (lift_ok hExpect _)
      obtain rfl := Codec.expectSignal_eq_ok.1 hExpect
      exact bind_ok hBlinding

/-- What a call of a plain pass has done that succeeded: it has pinned what it asked for, and has
taken no other slot. -/
structure Pins (requests : List Request) (request : Request) (law : Part.Law)
    (s s' : Session host) (ctx ctx' : MemoContext) (v : Value) : Prop where
  runs_eq : s'.runs = []
  agree : Registry.AgreeOn requests s.registry s'.registry
  kept : ctx.Kept ctx'
  size_eq : ctx'.slots.size = ctx'.cursor
  cursor_eq : ctx'.cursor = request.next ctx.cursor
  held : ∃ slot, request.held? ctx' ctx.cursor = some slot ∧ slot.Fits law ∧
    (s.registry.codec request.type).contents v = .ok slot.contents

/-- A memoized witness of a plain pass fills the slot after the last one. -/
theorem pins_witness {requests : List Request} {d : Descriptor}
    {compute : Construction host Value} {law : Part.Law} {ctx : MemoContext}
    {contexts : List MemoContext} (hApart : compute.Apart requests)
    (hMem : Request.slot d ∈ requests) (hRuns : s.runs = [])
    (hContexts : s.contexts = ctx :: contexts) (hSize : ctx.slots.size = ctx.cursor)
    (hLaw : (s.registry.codec d).part.Lawful law)
    (hOk : memoizedWitness d compute s = (.ok v, s')) :
    ∃ ctx', s'.contexts = ctx' :: contexts ∧ Pins requests (.slot d) law s s' ctx ctx' v := by
  have hEmpty : ctx.slot? ctx.cursor = none := by
    rw [MemoContext.slot?, Array.getElem?_eq_none (Nat.le_of_eq hSize)]
    rfl
  rw [memoizedWitness_pinned hContexts, witness_unchecked hRuns,
    pinned_empty hContexts hEmpty] at hOk
  obtain ⟨slot, after, hSlot, hOk⟩ := Construction.bind_eq_ok hOk
  obtain ⟨u, -, hCompute, -⟩ := computeSlot_ok hSlot
  obtain ⟨hAfterRuns, hAfterContexts, hAgree⟩ :=
    hApart { s with contexts := ctx.reserve.2 :: contexts }
  rw [hCompute] at hAfterRuns hAfterContexts hAgree
  have hCodec : after.registry.codec d = s.registry.codec d := hAgree _ hMem
  have hFits : slot.Fits law := by
    rw [← hCodec] at hLaw
    exact fits_of_computeSlot hLaw hSlot
  obtain ⟨w, hReplayed, hFlat, hAux⟩ := replayed_ok hLaw hFits
  rw [bind_ok (updateContext_eq hAfterContexts _), replay_eq] at hOk
  obtain ⟨hValue, rfl⟩ := Prod.mk.inj hOk
  have hSame : replayed (after.registry.codec d) slot = .ok v := hValue
  rw [hCodec, hReplayed] at hSame
  obtain rfl := Except.ok.inj hSame
  have hFilled : (ctx.reserve.2.fill ctx.cursor slot).slot? ctx.cursor = some slot :=
    MemoContext.slot?_fill_reserved (.refl _) slot
  refine ⟨ctx.reserve.2.fill ctx.cursor slot, rfl, hAfterRuns.trans hRuns, hAgree, ⟨?_, id⟩, ?_,
    rfl, slot, hFilled, hFits, ?_⟩
  · exact (MemoContext.extends_fill hEmpty (.refl _) hFits.hostData).slot?_some
  · show ((ctx.slots ++
      Array.replicate (ctx.cursor + 1 - ctx.slots.size) none).setIfInBounds _ _).size = ctx.cursor + 1
    rw [Array.size_setIfInBounds, Array.size_append, Array.size_replicate]
    omega
  · show (s.registry.codec d).contents w = _
    rw [Codec.contents_eq_ok hFlat, hAux, List.map_map]
    rfl

/-- The blinding value is the one of the context, or is drawn for it. -/
theorem blindingElement_ok {ctx : MemoContext} {contexts : List MemoContext} {x : Element}
    (hContexts : s.contexts = ctx :: contexts) (hOk : blindingElement s = (.ok x, s')) :
    s'.contexts = { ctx with blinding? := some x } :: contexts ∧ s'.runs = s.runs ∧
      s'.registry = s.registry ∧ ∀ y, ctx.blinding? = some y → y = x := by
  have hRead := updateContext_eq hContexts fun ctx => (ctx.blinding?, ctx)
  cases hBlinding : ctx.blinding? with
  | some y =>
      rw [hBlinding] at hRead
      have hElement : blindingElement s = (.ok y, { s with contexts := ctx :: contexts }) :=
        bind_ok hRead
      rw [hElement] at hOk
      cases hOk
      refine ⟨?_, rfl, rfl, fun z hz => (Option.some.inj hz).symm⟩
      rw [← hBlinding]
  | none =>
      rw [hBlinding] at hRead
      have hElement : blindingElement s =
          (.ok (Element.sample s.entropy).1, { s with
            contexts := { ctx with blinding? := some (Element.sample s.entropy).1 } :: contexts
            entropy := (Element.sample s.entropy).2.1 }) := bind_ok hRead
      rw [hElement] at hOk
      cases hOk
      exact ⟨rfl, rfl, rfl, nofun⟩

/-- The blinding value of a plain pass is pinned. -/
theorem pins_blinding {requests : List Request} {law : Part.Law} {ctx : MemoContext}
    {contexts : List MemoContext} (hRuns : s.runs = []) (hContexts : s.contexts = ctx :: contexts)
    (hSize : ctx.slots.size = ctx.cursor)
    (hLaw : (s.registry.codec Request.blinding.type).part.Lawful law)
    (hOk : Construction.witness .field (source .blinding) s = (.ok v, s')) :
    ∃ ctx', s'.contexts = ctx' :: contexts ∧ Pins requests .blinding law s s' ctx ctx' v := by
  rw [witness_unchecked hRuns] at hOk
  obtain ⟨x, between, hElement, hValue⟩ := Construction.bind_eq_ok hOk
  cases hValue
  obtain ⟨hContexts', hRuns', hRegistry, hSame⟩ := blindingElement_ok hContexts hElement
  have hWidth : law.width = ⟨1, 0⟩ := (Except.ok.inj hLaw.width_eq).symm
  refine ⟨{ ctx with blinding? := some x }, hContexts', hRuns'.trans hRuns, ?_, ⟨id, ?_⟩, hSize,
    rfl, ⟨[x], []⟩, rfl, ⟨?_, ?_, List.forall_mem_nil _⟩, rfl⟩
  · rw [hRegistry]
    exact .refl _ _
  · intro y hy
    exact congrArg some (hSame y hy).symm
  · rw [hWidth]
    rfl
  · rw [hWidth]
    rfl

/-- A call of a plain pass pins what it asks for. -/
theorem pins_of_run {requests : List Request} {law : Part.Law} {ctx : MemoContext}
    {contexts : List MemoContext} (hApart : call.Apart requests) (hMem : call.request ∈ requests)
    (hRuns : s.runs = []) (hContexts : s.contexts = ctx :: contexts)
    (hSize : ctx.slots.size = ctx.cursor)
    (hLaw : (s.registry.codec call.request.type).part.Lawful law) (hOk : call.run s = (.ok v, s')) :
    ∃ ctx', s'.contexts = ctx' :: contexts ∧
      Pins requests call.request law s s' ctx ctx' v := by
  cases call with
  | witness d compute => exact pins_witness hApart hMem hRuns hContexts hSize hLaw hOk
  | blinding =>
      have hWitness := witness_of_run hContexts hOk
      exact pins_blinding hRuns hContexts hSize hLaw hWitness

end MemoCall

end TypedCircuit
