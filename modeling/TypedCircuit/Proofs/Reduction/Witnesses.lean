import TypedCircuit.Proofs.Passes.Witnesses
import TypedCircuit.Proofs.Reduction.Selections

/-!
# Witnesses in a pass that lacks something

Without a loss of values, private inputs are the same variables if the same elements are computed
for them. In a compile pass they are variables without values, as many of them, and nothing is
computed.

A witness is a value of new variables and of the auxiliary entries that were computed with them. A
compile pass has nulls for them. These are the entries of every value that has nothing but nulls in
place of host data.

## Main results

* `Construction.witness_follows` — witnesses of computations that follow.
* `Construction.witness_compile_follows` — a witness of a value without host data, and a witness in
  a compile pass.
-/

namespace TypedCircuit

open Script (Action Workspace)

variable {loss : Loss} {α β γ : Type}

/-! ## Sessions -/

/-- A session of a prove pass, and one of a pass with a loss: they know the same types, and the
second one has saved what is left of the values. -/
structure SessionsReduce (loss : Loss) (s t : Session Workspace) : Prop where
  runs : RunsReduce loss s.runs t.runs
  registry_eq : s.registry = t.registry
  values : Value.MembersReduce loss s.host.values t.host.values
  types_eq : s.host.types = t.host.types

section

variable {x : Circuit α} {y : Circuit β} {z : Circuit γ}

/-- Only the open runs change where a circuit is wired. -/
theorem SessionsReduce.withRuns {s t : Session Workspace} (h : SessionsReduce loss s t)
    {runs runs' : List Run} (hRuns : RunsReduce loss runs runs') :
    SessionsReduce loss { s with runs } { t with runs := runs' } :=
  ⟨hRuns, h.registry_eq, h.values, h.types_eq⟩

/-- What follows on open runs follows in sessions. -/
theorem Follows.ofCircuit {R : α → β → Prop} (h : Follows (RunsReduce loss) R x y) :
    Follows (SessionsReduce loss) R (liftM x : Action α) (liftM y : Action β) := by
  intro s t hState a s' ha
  obtain ⟨runs, hx, rfl⟩ := lift_circuit_eq_ok ha
  obtain ⟨b, runs', hy, hab, hRuns⟩ := h _ _ hState.runs a runs hx
  exact ⟨b, _, lift_circuit_eq hy, hab, hState.withRuns hRuns⟩

/-- What ends together on open runs ends together in sessions. -/
theorem EndTogether.ofCircuit {loss' : Loss} {R : α → β → Prop} {Q : β → γ → Prop}
    (h : EndTogether (RunsReduce loss) (RunsReduce loss') R Q x y z) :
    EndTogether (SessionsReduce loss) (SessionsReduce loss') R Q (liftM x : Action α)
      (liftM y : Action β) (liftM z : Action γ) := by
  intro s t u hState hState' a s' ha
  obtain ⟨runs, hx, rfl⟩ := lift_circuit_eq_ok ha
  rcases h _ _ _ hState.runs hState'.runs a runs hx with
    ⟨b, c, runs', runs'', hy, hz, hab, hbc, hRuns, hRuns'⟩ | ⟨name, hy, hz⟩
  · exact .inl ⟨b, c, _, _, lift_circuit_eq hy, lift_circuit_eq hz, hab, hbc,
      hState.withRuns hRuns, hState'.withRuns hRuns'⟩
  · exact .inr ⟨name, hy, hz⟩

end

theorem read_follows {R : α → β → Prop} {f : Session Workspace → α} {g : Session Workspace → β}
    (h : ∀ s t, SessionsReduce loss s t → R (f s) (g t)) :
    Follows (SessionsReduce loss) R (Construction.read f) (Construction.read g) := by
  rintro s t hState _ _ ⟨⟩
  exact ⟨_, t, rfl, h s t hState, hState⟩

namespace Construction

/-- A type has one codec in both sessions, and the codec is uniform and robust. -/
theorem codecOf_follows (d : Descriptor) :
    Follows (SessionsReduce loss) (fun c c' => c = c' ∧ c.Uniform ∧ c.Robust)
      (codecOf d : Action Codec) (codecOf d) :=
  read_follows fun s _ hState =>
    ⟨congrArg (Registry.codec · d) hState.registry_eq, s.registry.uniform_codec d,
      s.registry.robust_codec d⟩

/-! ## Private inputs -/

theorem mode_introduce (run : Run) (values : List (Option Element)) :
    (run.introduce values).2.mode = run.mode := by rw [Run.introduce_eq]

theorem erased_inputsFrom (index : Nat) (values : List (Option Element)) :
    ∀ s ∈ inputsFrom .compile index values, s.erased = s := by
  induction values generalizing index with
  | nil => exact List.forall_mem_nil _
  | cons value? rest ih => exact List.forall_mem_cons.2 ⟨rfl, ih (index + 1)⟩

/-- The same private inputs, or as many without values. -/
theorem allocateInputs_follows {values values' : List (Option Element)}
    (hSame : ¬ loss.values → values' = values) (hLength : values.length = values'.length) :
    WiringsFollow loss (SignalsReduce loss) (allocateInputs values) (allocateInputs values') := by
  intro runs runs' hRuns
  cases hRuns with
  | same h hMode =>
      rw [hSame h]
      cases runs with
      | nil => cases hMode
      | cons run outer =>
          exact ⟨.refl _, .same h ((congrArg some (mode_introduce run values)).trans hMode)⟩
  | erased h hAlike hMode hMode' =>
      obtain ⟨run, run', hRun, outer, outer', rfl, rfl⟩ := hAlike.exists_eq
      obtain ⟨hFields, hNext⟩ := hRun.introduce hLength
      refine ⟨.of_alike hFields ?_ h, .erased h (.intro hNext outer outer') ?_ ?_⟩
      · have hCompile : run'.mode = .compile := Option.some.inj hMode'
        show ∀ s ∈ (run'.introduce values').1, s.erased = s
        rw [Run.introduce_eq, hCompile]
        exact erased_inputsFrom run'.values.size values'
      · exact (congrArg some (mode_introduce run values)).trans hMode
      · exact (congrArg some (mode_introduce run' values')).trans hMode'

theorem counted_follows (size : Nat) {R : α → β → Prop}
    {compute : Action (List Element × α)} {compute' : Action (List Element × β)}
    (h : Follows (SessionsReduce loss) (fun x y => x.1 = y.1 ∧ R x.2 y.2) compute compute') :
    Follows (SessionsReduce loss) (fun x y => x.1 = y.1 ∧ R x.2 y.2) (counted size compute)
      (counted size compute') := by
  refine h.bind ?_
  rintro ⟨values, a⟩ ⟨_, b⟩ ⟨rfl, hab⟩
  dsimp only
  split
  · exact .pure ⟨rfl, hab⟩
  · exact Follows.lift .error

/-- Without a loss of values, the same elements become the same private inputs. -/
theorem introduce_follows (size : Nat) {R : α → β → Prop} (hKept : ¬ loss.values)
    {compute : Action (List Element × α)} {compute' : Action (List Element × β)}
    (h : Follows (SessionsReduce loss) (fun x y => x.1 = y.1 ∧ R x.2 y.2) compute compute') :
    Follows (SessionsReduce loss)
      (fun x y => SignalsReduce loss x.1 y.1 ∧ Option.Rel R x.2 y.2) (introduce size compute)
      (introduce size compute') := by
  have hMode : Follows (SessionsReduce loss) (fun m m' => m = some .prove ∧ m' = some .prove)
      (mode? : Action (Option Mode)) mode? := read_follows fun s t hState => by
    have hProve := hState.runs.mode_eq
    exact ⟨hProve, (congrArg activeMode? (hState.runs.eq hKept)).trans hProve⟩
  refine hMode.bind ?_
  rintro _ _ ⟨rfl, rfl⟩
  refine (counted_follows size h).bind ?_
  rintro ⟨values, a⟩ ⟨_, b⟩ ⟨rfl, hab⟩
  exact (allocateInputs_follows (fun _ => rfl) rfl).lift.ofCircuit.bind fun _ _ hFields =>
    .pure ⟨hFields, .some hab⟩

/-- In a compile pass private inputs have no values, and nothing is computed. -/
theorem introduce_compile_follows (size : Nat) {P : α → Prop} (hLost : loss.values)
    {compute : Action (List Element × α)} (hPassive : Passive compute)
    (hCompute' : ∀ s x s', compute s = (.ok x, s') → P x.2)
    (compute' : Action (List Element × β)) :
    Follows (SessionsReduce loss)
      (fun x y => SignalsReduce loss x.1 y.1 ∧ (∀ a ∈ x.2, P a) ∧ y.2 = none)
      (introduce size compute) (introduce size compute') := by
  rintro s t hState ⟨fields, a?⟩ s' hOk
  obtain ⟨hAlike, hMode'⟩ := hState.runs.erased_mode hLost
  obtain ⟨run, run', hRun, outer, outer', hOpen, hOpen'⟩ := hAlike.exists_eq
  obtain ⟨values, hLength, rfl, hRuns, hSame, hAux⟩ := introduce_ok hOpen hPassive hOk
  have hCompile : run'.mode = .compile := by
    rw [hOpen'] at hMode'
    exact Option.some.inj hMode'
  have hBlank : values.length = (List.replicate size (none : Option Element)).length :=
    hLength.trans List.length_replicate.symm
  have hRead := hState.runs
  rw [hOpen, hOpen'] at hRead
  obtain ⟨hFields, hNext⟩ := allocateInputs_follows (fun h => absurd hLost h) hBlank _ _ hRead
  refine ⟨_, _, introduce_compile hOpen' hCompile size compute', ⟨hFields, ?_, rfl⟩, ?_⟩
  · intro a ha
    obtain ⟨elements, between, hCompute⟩ := hAux a ha
    exact hCompute' _ _ _ hCompute
  · exact {
      runs := hRuns ▸ hNext
      registry_eq := hSame.registry_eq.trans hState.registry_eq
      values := hSame.values_eq ▸ hState.values
      types_eq := hSame.types_eq.trans hState.types_eq }

/-! ## Witnesses -/

/-- What may be left of private inputs and the auxiliary entries that come with them. They are
nulls where nothing was computed, as many as are asked for. -/
def InputsReduce (loss : Loss) (x y : List Signal × Option (List Value)) : Prop :=
  SignalsReduce loss x.1 y.1 ∧
    ∀ count, (x.2.getD (List.replicate count .null)).length = count →
      ValuesReduce loss (x.2.getD (List.replicate count .null))
        (y.2.getD (List.replicate count .null))

theorem isChecked_follows :
    Follows (SessionsReduce loss) (fun a b => a = true ∧ b = true)
      (isChecked : Action Bool) isChecked := by
  refine read_follows fun s t hState => ?_
  obtain ⟨run, outer, run', outer', hRuns, hRuns'⟩ := hState.runs.exists_eq
  exact ⟨by rw [hRuns]; rfl, by rw [hRuns']; rfl⟩

/-- A witness follows if its private inputs do. -/
theorem witness_follows_of_introduce (d : Descriptor) {compute compute' : Action Value}
    (h : ∀ size, Follows (SessionsReduce loss) (InputsReduce loss)
      (introduce size (encoded d compute)) (introduce size (encoded d compute'))) :
    Follows (SessionsReduce loss) (Value.Reduces loss) (witness d compute)
      (witness d compute') := by
  refine isChecked_follows.bind ?_
  rintro _ _ ⟨rfl, rfl⟩
  show Follows _ _ (codecOf d >>= _) (codecOf d >>= _)
  refine (codecOf_follows d).bind ?_
  rintro c _ ⟨rfl, -⟩
  refine (Follows.lift (.refl (c.width ()))).bind ?_
  rintro width _ rfl
  refine (h width.fields).bind ?_
  rintro ⟨fields, aux?⟩ ⟨fields', aux?'⟩ ⟨hFields, hAux⟩
  refine (codecOf_follows d).bind ?_
  rintro c _ ⟨rfl, -, hc⟩
  have hWidth : ResultFollows (fun w w' => w = w' ∧ c.width () = .ok w) (c.width ())
      (c.width ()) := fun w hw => ⟨w, hw, rfl, hw⟩
  refine (Follows.lift hWidth).bind ?_
  rintro width _ ⟨rfl, hWidth⟩
  refine (Follows.lift (Codec.ofFieldsWithAux_follows hc hFields ?_)).bind fun v w hValue =>
    (hc.check hValue).ofCircuit.bind fun _ _ _ => .pure hValue
  intro width' hWidth' hLength
  rw [hWidth] at hWidth'
  cases hWidth'
  exact hAux width.aux hLength

theorem elementsOf_follows (hKept : ¬ loss.values) (d : Descriptor) {v w : Value}
    (hValue : v.Reduces loss w) :
    Follows (SessionsReduce loss) (· = ·) (elementsOf d v : Action (List Element))
      (elementsOf d w) := by
  refine (codecOf_follows d).bind ?_
  rintro c _ ⟨rfl, -, hc⟩
  refine (Follows.lift (Codec.toFields_follows hc hValue)).bind fun fields fields' hFields => ?_
  rw [hFields.eq hKept]
  refine (Follows.mapM (List.forall₂_same.2 fun _ _ => rfl) ?_).imp fun _ _ hSame =>
    List.forall₂_eq_eq_eq ▸ hSame
  rintro s _ rfl
  exact Follows.lift (.refl s.value)

theorem encoded_follows (hKept : ¬ loss.values) (d : Descriptor)
    {compute compute' : Action Value}
    (h : Follows (SessionsReduce loss) (Value.Reduces loss) compute compute') :
    Follows (SessionsReduce loss) (fun x y => x.1 = y.1 ∧ ValuesReduce loss x.2 y.2)
      (encoded d compute) (encoded d compute') := by
  refine h.bind fun v w hValue => (codecOf_follows d).bind ?_
  rintro c _ ⟨rfl, -, hc⟩
  exact (elementsOf_follows hKept d hValue).bind fun _ _ hSame =>
    .pure ⟨hSame, hc.auxiliary hValue⟩

/-- Without a loss of values, witnesses follow if their computations do. -/
theorem witness_follows (hKept : ¬ loss.values) (d : Descriptor) {compute compute' : Action Value}
    (h : Follows (SessionsReduce loss) (Value.Reduces loss) compute compute') :
    Follows (SessionsReduce loss) (Value.Reduces loss) (witness d compute)
      (witness d compute') := by
  refine witness_follows_of_introduce d fun size => (introduce_follows size hKept
    (encoded_follows hKept d h)).imp ?_
  rintro ⟨fields, aux?⟩ ⟨fields', aux?'⟩ ⟨hFields, hAux⟩
  refine ⟨hFields, fun count _ => ?_⟩
  cases hAux with
  | none => exact Value.nulls_reduce count
  | some hAux => exact hAux

/-- The auxiliary entries of a value without host data are nulls. -/
theorem null_of_encoded {d : Descriptor} {w : Value} (hBlank : w.blank = w)
    {s s' : Session Workspace} {x : List Element × List Value}
    (h : encoded d (pure w) s = (.ok x, s')) : ∀ a ∈ x.2, a = .null := by
  have hHostData := hostData_of_encoded h
  obtain ⟨_, between, hPure, h⟩ := bind_eq_ok h
  cases hPure
  rw [bind_ok (codecOf_eq d _)] at h
  obtain ⟨elements, after, -, h⟩ := bind_eq_ok h
  cases h
  have hLost : w.Reduces ⟨False, False, True⟩ w.blank := Value.reduces_blank trivial w
  rw [hBlank] at hLost
  exact Value.eq_null_of_reduces ((s.registry.robust_codec d).auxiliary hLost) hHostData id

/-- The witness of a value without host data is followed by a witness in a compile pass. -/
theorem witness_compile_follows (hLost : loss.values) (d : Descriptor) {w : Value}
    (hBlank : w.blank = w) (compute : Action Value) :
    Follows (SessionsReduce loss) (Value.Reduces loss) (witness d (pure w))
      (witness d compute) := by
  refine witness_follows_of_introduce d fun size =>
    (introduce_compile_follows (P := fun aux => ∀ a ∈ aux, a = .null) size hLost
      (Passive.encoded d (.pure w)) (fun _ _ _ => null_of_encoded hBlank) _).imp ?_
  rintro ⟨fields, aux?⟩ ⟨fields', _⟩ ⟨hFields, hNulls, rfl⟩
  refine ⟨hFields, fun count hLength => ?_⟩
  cases aux? with
  | none => exact Value.nulls_reduce count
  | some aux =>
      have hAux : aux = List.replicate count .null :=
        List.eq_replicate_iff.2 ⟨hLength, hNulls aux rfl⟩
      rw [hAux]
      exact Value.nulls_reduce count

end Construction

end TypedCircuit
