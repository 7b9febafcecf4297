import TypedCircuit.Proofs.Circuit.Steps
import TypedCircuit.Proofs.Passes.Codecs
import TypedCircuit.Script.Evaluation

/-!
# Witnesses in two passes

The computation of a witness is *passive* if it performs no operation of a circuit, registers
nothing, and saves nothing that later steps read. Nothing else is asked of it: it may draw random
words, use memoization contexts, and return another value in every pass, or it may not be run at
all.

Whatever it does, a witness allocates as many variables as its type has elements, and checks a
value that is made of these variables and of host data. Two passes therefore get alike values,
also if one of them is a compile pass, and also if only one of them is in a memoization context.

## Main results

* `Construction.witness_agree`, `Construction.memoizedWitness_agree`,
  `Construction.blindingValue_agree` — witnesses of passive computations.
-/

namespace TypedCircuit

open Script (Action Workspace)

variable {α β : Type}

/-- Two workspaces in which the same types and alike values and hash inputs are saved. -/
structure Script.Workspace.Alike (w x : Workspace) : Prop where
  values : Value.MembersAlike w.values x.values
  types_eq : w.types = x.types
  inputs : EntriesRelated HashInput.Alike w.inputs x.inputs

/-- Two sessions that know the same types, and of which circuits and workspaces are alike. -/
structure SessionsAlike (s t : Session Workspace) : Prop where
  runs : RunsAlike s.runs t.runs
  registry_eq : s.registry = t.registry
  host : s.host.Alike t.host

section

variable {x : Circuit α} {y : Circuit β} {s s' : Session Workspace}

/-- In a session, a circuit works on the open runs. -/
theorem lift_circuit_eq {result : Except Error α} {runs : List Run}
    (h : x s.runs = (result, runs)) : (liftM x : Action α) s = (result, { s with runs }) :=
  congrArg (fun r : Except Error α × List Run =>
    (r.1, ({ s with runs := r.2 } : Session Workspace))) h

theorem lift_circuit_eq_ok {a : α} (h : (liftM x : Action α) s = (.ok a, s')) :
    ∃ runs, x s.runs = (.ok a, runs) ∧ s' = { s with runs } := by
  rcases hx : x s.runs with ⟨result, runs⟩
  rw [lift_circuit_eq hx] at h
  cases h
  exact ⟨runs, rfl, rfl⟩

/-- What agrees on open runs agrees in sessions. -/
theorem Agree.ofCircuit {R : α → β → Prop} (h : Agree RunsAlike R x y) :
    Agree SessionsAlike R (liftM x : Action α) (liftM y : Action β) := by
  intro s t hState a b s' t' ha hb
  obtain ⟨runs, hx, rfl⟩ := lift_circuit_eq_ok ha
  obtain ⟨runs', hy, rfl⟩ := lift_circuit_eq_ok hb
  obtain ⟨hab, hRuns⟩ := h _ _ hState.runs a b _ _ hx hy
  exact ⟨hab, hRuns, hState.registry_eq, hState.host⟩

end

/-! ## Passive computations -/

/-- From one session to another, nothing happened to types and saved things. -/
structure Session.Undisturbed (s s' : Session Workspace) : Prop where
  registry_eq : s'.registry = s.registry
  values_eq : s'.host.values = s.host.values
  types_eq : s'.host.types = s.host.types
  inputs_eq : s'.host.inputs = s.host.inputs

theorem Session.Undisturbed.refl (s : Session Workspace) : s.Undisturbed s :=
  ⟨rfl, rfl, rfl, rfl⟩

theorem Session.Undisturbed.trans {s t u : Session Workspace} (h : s.Undisturbed t)
    (h' : t.Undisturbed u) : s.Undisturbed u :=
  ⟨h'.registry_eq.trans h.registry_eq, h'.values_eq.trans h.values_eq,
    h'.types_eq.trans h.types_eq, h'.inputs_eq.trans h.inputs_eq⟩

/-- Sessions stay alike when only alike things happen to their circuits. -/
theorem SessionsAlike.of_undisturbed {s s' t t' : Session Workspace} (h : SessionsAlike s t)
    (hs : s.Undisturbed s') (ht : t.Undisturbed t') (hRuns : RunsAlike s'.runs t'.runs) :
    SessionsAlike s' t' where
  runs := hRuns
  registry_eq := by rw [hs.registry_eq, ht.registry_eq, h.registry_eq]
  host := {
    values := by rw [hs.values_eq, ht.values_eq]; exact h.host.values
    types_eq := by rw [hs.types_eq, ht.types_eq, h.host.types_eq]
    inputs := by rw [hs.inputs_eq, ht.inputs_eq]; exact h.host.inputs }

namespace Construction

/-- A computation performs no operation of a circuit and disturbs nothing, if it succeeds. -/
def Passive (x : Action α) : Prop :=
  ∀ s a s', x s = (.ok a, s') → s'.runs = s.runs ∧ s.Undisturbed s'

namespace Passive

theorem pure (a : α) : Passive (Pure.pure a : Action α) := by
  intro s _ _ h
  cases h
  exact ⟨rfl, .refl s⟩

theorem bind {x : Action α} {f : α → Action β} (h : Passive x) (hNext : ∀ a, Passive (f a)) :
    Passive (x >>= f) := by
  intro s b s' hb
  obtain ⟨a, between, ha, hb⟩ := bind_eq_ok hb
  obtain ⟨hRuns, hSame⟩ := h s a between ha
  obtain ⟨hRuns', hSame'⟩ := hNext a between b s' hb
  exact ⟨hRuns'.trans hRuns, hSame.trans hSame'⟩

theorem lift (x : Except Error α) : Passive (liftM x : Action α) := by
  intro s a s' h
  cases x with
  | error e => cases h
  | ok a => cases h; exact ⟨rfl, .refl s⟩

theorem read (f : Session Workspace → α) : Passive (Construction.read f) := by
  intro s _ _ h
  cases h
  exact ⟨rfl, .refl s⟩

theorem updateContext (f : MemoContext → α × MemoContext) :
    Passive (Construction.updateContext f : Action (Option α)) := by
  rintro ⟨runs, _ | ⟨ctx, outer⟩, registry, entropy, data⟩ _ _ h <;> cases h <;>
    exact ⟨rfl, rfl, rfl, rfl, rfl⟩

theorem drawElement : Passive (Construction.drawElement : Action Element) := by
  intro s _ _ h
  cases h
  exact ⟨rfl, rfl, rfl, rfl, rfl⟩

theorem mapM_lift (f : α → Except Error β) (xs : List α) :
    Passive (xs.mapM fun x => (liftM (f x) : Action β)) := by
  induction xs with
  | nil => exact pure []
  | cons x xs ih =>
      rw [List.mapM_cons]
      exact (lift _).bind fun _ => ih.bind fun _ => pure _

theorem elementsOf (d : Descriptor) (v : Value) :
    Passive (Construction.elementsOf d v : Action (List Element)) :=
  (read _).bind fun _ => (lift _).bind fun _ => mapM_lift _ _

theorem replay (d : Descriptor) (slot : Slot) :
    Passive (Construction.replay d slot : Action Value) := by
  refine (read _).bind fun c => (lift _).bind fun width => ?_
  split
  · exact lift _
  · exact lift (.error _)

theorem pin (d : Descriptor) (index : Nat) {compute : Action Value}
    (h : Passive compute) : Passive (Construction.pin d index compute) :=
  h.bind fun _ => (elementsOf d _).bind fun _ => (read _).bind fun _ =>
    (updateContext _).bind fun _ => pure _

/-- Pinning a passive computation is passive. -/
theorem pinned (d : Descriptor) {compute : Action Value} (h : Passive compute) :
    Passive (Construction.pinned d compute) := by
  refine (updateContext _).bind ?_
  rintro (_ | ⟨index, _ | slot⟩)
  · exact h
  · exact (pin d index h).bind fun _ => replay d _
  · exact replay d slot

theorem blindingElement : Passive (Construction.blindingElement : Action Element) := by
  refine (updateContext _).bind ?_
  rintro (_ | _ | x)
  · exact drawElement
  · exact drawElement.bind fun _ => (updateContext _).bind fun _ => pure _
  · exact pure x

end Passive

/-! ## Private inputs -/

variable {s s' : Session Workspace} {run : Run} {outer : List Run}

/-- Where a run is open, private inputs are as many variables as were asked for, and what comes
with them is what the computation returned. -/
theorem introduce_ok (hRuns : s.runs = run :: outer) {size : Nat}
    {compute : Action (List Element × α)} (hPassive : Passive compute)
    {fields : List Signal} {a? : Option α}
    (h : introduce size compute s = (.ok (fields, a?), s')) :
    ∃ values : List (Option Element), values.length = size ∧
      fields = (run.introduce values).1 ∧ s'.runs = (run.introduce values).2 :: outer ∧
      s.Undisturbed s' ∧ ∀ a ∈ a?, ∃ elements between, compute s = (.ok (elements, a), between) := by
  cases hMode : run.mode with
  | compile =>
      rw [introduce_compile hRuns hMode] at h
      cases h
      exact ⟨_, List.length_replicate, rfl, rfl, ⟨rfl, rfl, rfl, rfl⟩, nofun⟩
  | prove =>
      unfold introduce at h
      rw [bind_ok (mode?_eq hRuns), hMode] at h
      obtain ⟨⟨elements, a⟩, between, hCounted, h⟩ := bind_eq_ok h
      obtain ⟨⟨_, _⟩, after, hCompute, hCounted⟩ := bind_eq_ok hCounted
      dsimp only at hCounted
      split at hCounted
      · next hLength =>
          cases hCounted
          obtain ⟨hStill, hSame⟩ := hPassive _ _ _ hCompute
          dsimp only at h
          rw [bind_ok (allocateInputs_eq (hStill.trans hRuns) _)] at h
          cases h
          refine ⟨elements.map some, (List.length_map _).trans hLength, rfl, rfl,
            ⟨hSame.registry_eq, hSame.values_eq, hSame.types_eq, hSame.inputs_eq⟩, ?_⟩
          rintro _ ⟨⟩
          exact ⟨_, _, hCompute⟩
      · cases hCounted

theorem introduce_agree (size : Nat) {compute : Action (List Element × α)}
    {compute' : Action (List Element × β)} (h : Passive compute) (h' : Passive compute') :
    Agree SessionsAlike (fun x y => SignalsAlike x.1 y.1) (introduce size compute)
      (introduce size compute') := by
  rintro s t hState ⟨fields, a?⟩ ⟨fields', b?⟩ s' t' hs ht
  obtain ⟨run, run', hRun, outer, outer', hOpen, hOpen'⟩ := hState.runs.exists_eq
  obtain ⟨values, hLength, rfl, hRuns, hSame, -⟩ := introduce_ok hOpen h hs
  obtain ⟨values', hLength', rfl, hRuns', hSame', -⟩ := introduce_ok hOpen' h' ht
  obtain ⟨hFields, hNext⟩ := hRun.introduce (hLength.trans hLength'.symm)
  refine ⟨hFields, hState.of_undisturbed hSame hSame' ?_⟩
  rw [hRuns, hRuns']
  exact .intro hNext outer outer'

/-! ## Witnesses -/

/-- What a computed value is replaced by when it becomes a witness. -/
def encoded (d : Descriptor) (compute : Action Value) :
    Action (List Element × List Value) := do
  let v ← compute
  let aux := (← codecOf d).auxiliary v
  return (← elementsOf d v, aux)

theorem Passive.encoded (d : Descriptor) {compute : Action Value}
    (h : Passive compute) : Passive (Construction.encoded d compute) :=
  h.bind fun _ => (Passive.read _).bind fun _ => (Passive.elementsOf d _).bind fun _ => .pure _

theorem hostData_of_encoded {d : Descriptor} {compute : Action Value}
    {elements : List Element} {aux : List Value}
    (h : encoded d compute s = (.ok (elements, aux), s')) : ∀ a ∈ aux, a.HostData := by
  obtain ⟨v, between, -, h⟩ := bind_eq_ok h
  rw [bind_ok (codecOf_eq d between)] at h
  obtain ⟨_, _, hElements, h⟩ := bind_eq_ok h
  cases h
  unfold elementsOf at hElements
  rw [bind_ok (codecOf_eq d between)] at hElements
  obtain ⟨fields, hFields, -⟩ := lift_bind_eq_ok hElements
  exact Codec.hostData_of_toFields (between.registry.uniform_codec d) hFields

/-- Where a run is open, a witness of a passive computation is the checked value of new
variables and of host data. -/
theorem witness_ok (hRuns : s.runs = run :: outer) {d : Descriptor}
    {compute : Action Value} (hPassive : Passive compute) {v : Value}
    (h : witness d compute s = (.ok v, s')) :
    ∃ (width : Width) (values : List (Option Element)) (aux : List Value)
      (between : Session Workspace), (s.registry.codec d).width () = .ok width ∧
      values.length = width.fields ∧ (∀ a ∈ aux, a.HostData) ∧
      between.runs = (run.introduce values).2 :: outer ∧ s.Undisturbed between ∧
      checkedValue (s.registry.codec d) (run.introduce values).1 aux between = (.ok v, s') := by
  unfold witness at h
  rw [bind_ok (isChecked_eq hRuns)] at h
  have hOpen : (do
      let width ← (← codecOf d).width ()
      let inputs ← introduce width.fields (encoded d compute)
      let c ← codecOf d
      let width ← c.width ()
      checkedValue c inputs.1 (inputs.2.getD (List.replicate width.aux Value.null)) :
        Action Value) s = (.ok v, s') := h
  rw [bind_ok (codecOf_eq d s)] at hOpen
  obtain ⟨width, hWidth, hOpen⟩ := lift_bind_eq_ok hOpen
  obtain ⟨⟨fields, aux?⟩, between, hInputs, hOpen⟩ := bind_eq_ok hOpen
  obtain ⟨values, hLength, rfl, hAfter, hSame, hAux⟩ :=
    introduce_ok hRuns (hPassive.encoded d) hInputs
  dsimp only at hOpen
  rw [bind_ok (codecOf_eq d between), hSame.registry_eq] at hOpen
  obtain ⟨_, hAgain, hOpen⟩ := lift_bind_eq_ok hOpen
  rw [hWidth] at hAgain
  cases hAgain
  refine ⟨width, values, _, between, hWidth, hLength, ?_, hAfter, hSame, hOpen⟩
  intro a ha
  cases aux? with
  | none => exact Value.hostData_nulls _ a ha
  | some aux =>
      obtain ⟨_, _, hEncoded⟩ := hAux aux rfl
      exact hostData_of_encoded hEncoded a ha

theorem valuesAlike_of_hostData {aux aux' : List Value} (hLength : aux.length = aux'.length)
    (hAux : ∀ a ∈ aux, a.HostData) (hAux' : ∀ a ∈ aux', a.HostData) : ValuesAlike aux aux' := by
  refine List.forall₂_iff_zip.2 ⟨hLength, fun hab => ?_⟩
  obtain ⟨ha, hb⟩ := List.of_mem_zip hab
  exact .hostData (hAux _ ha) (hAux' _ hb)

theorem checkedValue_agree {c : Codec} (h : c.Uniform) {fields fields' : List Signal}
    {aux aux' : List Value} (hFields : SignalsAlike fields fields')
    (hAux : ∀ a ∈ aux, a.HostData) (hAux' : ∀ a ∈ aux', a.HostData) :
    Agree SessionsAlike Value.Alike (checkedValue c fields aux : Action Value)
      (checkedValue c fields' aux' : Action Value) := by
  refine (Agree.lift (Codec.ofFieldsWithAux_agree h hFields fun hLength =>
    valuesAlike_of_hostData hLength hAux hAux')).bind fun v w hAlike => ?_
  exact (h.check hAlike).ofCircuit.bind fun _ _ _ => .pure hAlike

/-- Witnesses of passive computations are alike, whatever is computed. -/
theorem witness_agree (d : Descriptor) {compute compute' : Action Value} (h : Passive compute)
    (h' : Passive compute') :
    Agree SessionsAlike Value.Alike (witness d compute) (witness d compute') := by
  intro s t hState v w s' t' hs ht
  obtain ⟨run, run', hRun, outer, outer', hOpen, hOpen'⟩ := hState.runs.exists_eq
  obtain ⟨width, values, aux, between, hWidth, hLength, hAux, hRuns, hSame, hs⟩ :=
    witness_ok hOpen h hs
  obtain ⟨width', values', aux', between', hWidth', hLength', hAux', hRuns', hSame', ht⟩ :=
    witness_ok hOpen' h' ht
  rw [hState.registry_eq] at hWidth hs
  rw [hWidth] at hWidth'
  cases hWidth'
  obtain ⟨hFields, hNext⟩ := hRun.introduce (hLength.trans hLength'.symm)
  refine checkedValue_agree (t.registry.uniform_codec d) hFields hAux hAux' between between'
    (hState.of_undisturbed hSame hSame' ?_) v w s' t' hs ht
  rw [hRuns, hRuns']
  exact .intro hNext outer outer'

theorem memoizedWitness_agree (d : Descriptor) {compute compute' : Action Value}
    (h : Passive compute) (h' : Passive compute') :
    Agree SessionsAlike Value.Alike (memoizedWitness d compute)
      (memoizedWitness d compute') := by
  intro s t hState v w s' t' hs ht
  rw [memoizedWitness_eq] at hs ht
  refine witness_agree d ?_ ?_ s t hState v w s' t' hs ht
  · split
    · exact h
    · exact .pinned d h
  · split
    · exact h'
    · exact .pinned d h'

theorem blindingValue_agree :
    Agree SessionsAlike Signal.Alike (blindingValue : Action Signal)
      (blindingValue : Action Signal) := by
  refine Agree.bind (witness_agree .field ?_ ?_) fun v w hAlike =>
    Agree.lift (Codec.expectSignal_agree "Field" hAlike)
  · exact Passive.blindingElement.bind fun _ => .pure _
  · exact Passive.blindingElement.bind fun _ => .pure _

end Construction

end TypedCircuit
