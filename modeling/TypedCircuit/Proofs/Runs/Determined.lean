import TypedCircuit.Proofs.Runs.Honest

/-!
# Determined circuits

A variable is handed out in one of two ways: as a private input, or as the result of an
operation, and then the gate that derives it is recorded at once. So the variables of a run are
its private inputs and the outputs of its gates, each of them once, and a gate derives its output
from variables that were handed out before.

It follows that a circuit leaves no freedom but the choice of the private inputs. Whoever
satisfies all gates, with whatever assignment, has no choice for a derived variable: the values
that it is derived from have no alternative, because their indices are smaller.

## Main results

* `Run.Ordered.step`, `Run.Reaches.ordered` — the variables of a run in every history.
* `Run.Reaches.determined` — what a run leaves behind is determined by its private inputs.
-/

namespace TypedCircuit

/-! ## The order of variables -/

/-- The variable that a gate derives, if it derives one. -/
def Gate.output? : Gate → Option Nat
  | .derived _ _ _ output => some output
  | .assertEqual _ _ | .boolean _ | .range _ _ => none

/-- Whether a gate derives a variable. -/
def Gate.derives (gate : Gate) : Bool := gate.output?.isSome

/-- Whether a wire needs no variable but those below an index. -/
def Wire.Below (index : Nat) : Wire → Prop
  | .constant _ => True
  | .variable i => i < index

/-- Whether a gate derives its output from variables of smaller indices. -/
def Gate.Ordered : Gate → Prop
  | .derived _ left right output => left.Below output ∧ right.Below output
  | .assertEqual _ _ | .boolean _ | .range _ _ => True

theorem Rule.output?_eq_none {rule : Rule} {wire : Wire} {gate : Gate}
    (h : gate ∈ rule.gates wire) : gate.output? = none := by
  cases rule with
  | free => cases h
  | boolean | range => rw [List.mem_singleton.1 h]; rfl

theorem Gate.ordered_of_output? {gate : Gate} (h : gate.output? = none) : gate.Ordered := by
  cases gate with
  | derived => cases h
  | assertEqual | boolean | range => trivial

theorem Wire.value?_congr {values values' : Nat → Option Element} {index : Nat} {wire : Wire}
    (hBelow : wire.Below index) (h : ∀ i < index, values i = values' i) :
    wire.value? values = wire.value? values' := by
  rcases wire with x | i
  · rfl
  · exact h i hBelow

/--
The circuit has no more freedom than its private inputs, which are the variables of the given
indices.
-/
structure ConstraintSystem.Determined (cs : ConstraintSystem) (inputs : List Nat) : Prop where
  /-- The private inputs are counted. -/
  inputs_length : inputs.length = cs.witnessCount
  inputs_nodup : inputs.Nodup
  /-- A private input is a variable that no gate derives. -/
  given : ∀ i ∈ inputs, i < cs.variableCount ∧ ∀ gate ∈ cs.gates, gate.output? ≠ some i
  /-- There are as many other variables as there are gates that derive one. -/
  variableCount_eq : cs.variableCount = cs.witnessCount + cs.gates.countP Gate.derives
  /-- Every other variable is derived by exactly one gate, from variables before it. -/
  derived : ∀ i < cs.variableCount, i ∉ inputs → ∃ operation left right,
    cs.gates.filter (·.output? = some i) = [.derived operation left right i] ∧
      left.Below i ∧ right.Below i
  /-- Assignments that satisfy the circuit differ in private inputs or not at all. -/
  agree : ∀ values values' : Nat → Option Element, cs.Satisfied values → cs.Satisfied values' →
    (∀ i ∈ inputs, values i = values' i) → ∀ i < cs.variableCount, values i = values' i

/-- The private inputs are the variables that no gate derives, so the circuit says which they
are. -/
theorem ConstraintSystem.Determined.mem_iff {cs : ConstraintSystem} {inputs : List Nat}
    (h : cs.Determined inputs) {i : Nat} : i ∈ inputs ↔
      i < cs.variableCount ∧ ∀ gate ∈ cs.gates, gate.output? ≠ some i := by
  refine ⟨h.given i, fun ⟨hIndex, hNone⟩ => ?_⟩
  by_contra hInput
  obtain ⟨operation, left, right, hGate, -⟩ := h.derived i hIndex hInput
  have hMem : Gate.derived operation left right i ∈ cs.gates :=
    List.mem_of_mem_filter (hGate ▸ List.mem_singleton_self _)
  exact hNone _ hMem rfl

namespace Run

variable {run run' : Run} {inputs more : List Nat}

/-- The variables that gates derive, in the order of the gates. -/
def outputs (run : Run) : List Nat := run.gates.toList.filterMap Gate.output?

/-- The variables of a run are its private inputs and the outputs of its gates, each of them
once, and gates derive their outputs from variables before. -/
structure Ordered (run : Run) (inputs : List Nat) : Prop where
  inputs_length : inputs.length = run.witnessCount
  once : (run.outputs ++ inputs).Perm (List.range run.values.size)
  ordered : ∀ gate ∈ run.gates, gate.Ordered

theorem ordered_start (mode : Mode) : (start mode).Ordered [] where
  inputs_length := rfl
  once := .refl []
  ordered := nofun

theorem outputs_record (run : Run) (gate : Gate) :
    (run.record gate).outputs = run.outputs ++ gate.output?.toList := by
  show (run.gates.push gate).toList.filterMap Gate.output? = _
  rw [Array.toList_push, List.filterMap_append]
  cases hOutput : gate.output? <;> simp [hOutput, outputs]

/-- A wire of a signal of a run is no further than the run has come. -/
theorem Owns.below {s : Signal} (h : run.Owns s) : s.wire.Below run.values.size := by
  rcases s with x | v
  · trivial
  · exact (Array.getElem?_eq_some_iff.1 (show run.values[v.index]? = _ from h)).1

namespace Ordered

theorem record (h : run.Ordered inputs) {gate : Gate} (hGate : gate.output? = none) :
    (run.record gate).Ordered inputs where
  inputs_length := h.inputs_length
  once := by
    rw [outputs_record, hGate, Option.toList_none, List.append_nil]
    exact h.once
  ordered gate' hMem := by
    rcases Array.mem_push.1 hMem with hMem | rfl
    · exact h.ordered gate' hMem
    · exact Gate.ordered_of_output? hGate

theorem derive (h : run.Ordered inputs) (value? : Option Element) (operation : Gate.Operation)
    {left right : Wire} (hLeft : left.Below run.values.size)
    (hRight : right.Below run.values.size) :
    ((run.allocate value?).2.record (.derived operation left right run.values.size)).Ordered
      inputs where
  inputs_length := h.inputs_length
  once := by
    rw [outputs_record]
    show (run.outputs ++ [run.values.size] ++ inputs).Perm (List.range (run.values.push _).size)
    rw [Array.size_push, List.range_succ]
    refine List.Perm.trans ?_ (h.once.append_right [run.values.size])
    rw [List.append_assoc, List.append_assoc]
    exact List.perm_append_comm.append_left run.outputs
  ordered gate hMem := by
    rcases Array.mem_push.1 hMem with hMem | rfl
    · exact h.ordered gate hMem
    · exact ⟨hLeft, hRight⟩

theorem introduce (h : run.Ordered inputs) (values : List (Option Element)) :
    (run.introduce values).2.Ordered
      (inputs ++ List.range' run.values.size values.length) := by
  rw [introduce_eq]
  refine ⟨?_, ?_, h.ordered⟩
  · rw [List.length_append, List.length_range', h.inputs_length]
  · show (run.outputs ++ (inputs ++ _)).Perm (List.range (run.values ++ _).size)
    have hSize : (run.values ++ (values.map (keptValue run.mode)).toArray).size =
        run.values.size + values.length := by simp
    rw [hSize, ← List.append_assoc, List.range_add, List.range'_eq_map_range]
    exact h.once.append_right _

/-- A step keeps the order of variables. -/
theorem step (h : run.Ordered inputs) (hStep : run.Step more run') :
    run'.Ordered (inputs ++ more) := by
  cases hStep with
  | introduce values _ => exact h.introduce values
  | derive operation ha hb =>
      rw [List.append_nil]
      exact h.derive _ operation ha.below hb.below
  | assertEqual =>
      rw [List.append_nil]
      exact h.record rfl
  | assertRule _ _ hGate =>
      rw [List.append_nil]
      exact h.record (Rule.output?_eq_none hGate)

/-! ## What is left behind -/

theorem nodup (h : run.Ordered inputs) : (run.outputs ++ inputs).Nodup :=
  h.once.nodup_iff.2 List.nodup_range

theorem mem_iff (h : run.Ordered inputs) {i : Nat} :
    i ∈ run.outputs ∨ i ∈ inputs ↔ i < run.values.size := by
  rw [← List.mem_append, h.once.mem_iff, List.mem_range]

/-- A variable that is no private input is derived by exactly one gate. -/
theorem derived (h : run.Ordered inputs) {i : Nat} (hIndex : i < run.values.size)
    (hInput : i ∉ inputs) : ∃ operation left right,
      run.gates.toList.filter (·.output? = some i) = [.derived operation left right i] ∧
        left.Below i ∧ right.Below i := by
  have hMem : i ∈ run.outputs := (h.mem_iff.2 hIndex).resolve_right hInput
  have hCount : (run.gates.toList.filter (·.output? = some i)).length = 1 := by
    rw [← List.countP_eq_length_filter, ← List.count_eq_one_of_mem h.nodup.of_append_left hMem,
      outputs, List.count_filterMap]
    exact List.countP_congr fun gate _ => by simp
  obtain ⟨gate, hGate⟩ := List.length_eq_one_iff.1 hCount
  have hFound : gate ∈ run.gates.toList.filter (·.output? = some i) :=
    hGate ▸ List.mem_singleton_self gate
  obtain ⟨hRecorded, hOutput⟩ := List.mem_filter.1 hFound
  have hOrdered := h.ordered gate (Array.mem_toList_iff.1 hRecorded)
  cases gate with
  | derived operation left right output =>
      obtain rfl : output = i := Option.some.inj (of_decide_eq_true hOutput)
      exact ⟨operation, left, right, hGate, hOrdered⟩
  | assertEqual | boolean | range => cases of_decide_eq_true hOutput

/-- Two assignments that satisfy a run and agree on its private inputs agree on all variables. -/
theorem agree (h : run.Ordered inputs) {values values' : Nat → Option Element}
    (hValues : run.constraintSystem.Satisfied values)
    (hValues' : run.constraintSystem.Satisfied values')
    (hInputs : ∀ i ∈ inputs, values i = values' i) {i : Nat} (hIndex : i < run.values.size) :
    values i = values' i := by
  induction i using Nat.strongRecOn with
  | _ i ih =>
    by_cases hInput : i ∈ inputs
    · exact hInputs i hInput
    · obtain ⟨operation, left, right, hGate, hLeft, hRight⟩ := h.derived hIndex hInput
      have hMem : Gate.derived operation left right i ∈ run.constraintSystem.gates :=
        List.mem_of_mem_filter (hGate ▸ List.mem_singleton_self _)
      have hBelow : ∀ j < i, values j = values' j := fun j hj => ih j hj (Nat.lt_trans hj hIndex)
      obtain ⟨x, y, hx, hy, hz⟩ := Gate.holds?_derived_iff.1 (hValues _ hMem)
      obtain ⟨x', y', hx', hy', hz'⟩ := Gate.holds?_derived_iff.1 (hValues' _ hMem)
      rw [Wire.value?_congr hLeft hBelow, hx'] at hx
      rw [Wire.value?_congr hRight hBelow, hy'] at hy
      cases hx; cases hy
      rw [hz, hz']

theorem determined (h : run.Ordered inputs) : run.constraintSystem.Determined inputs where
  inputs_length := h.inputs_length
  inputs_nodup := h.nodup.of_append_right
  given i hInput := by
    refine ⟨h.mem_iff.1 (.inr hInput), fun gate hGate hOutput => ?_⟩
    exact List.disjoint_of_nodup_append h.nodup
      (List.mem_filterMap.2 ⟨gate, hGate, hOutput⟩) hInput
  variableCount_eq := by
    have hLength := h.once.length_eq
    rw [List.length_append, List.length_range, h.inputs_length, Nat.add_comm, outputs,
      List.length_filterMap_eq_countP] at hLength
    exact hLength.symm
  derived _ := h.derived
  agree _ _ hValues hValues' hInputs _ := h.agree hValues hValues' hInputs

end Ordered

theorem Reaches.ordered {between : Run} (h : between.Reaches more run)
    (hStart : between.Ordered inputs) : run.Ordered (inputs ++ more) := by
  induction h with
  | refl =>
      rw [List.append_nil]
      exact hStart
  | step _ hStep ih =>
      rw [← List.append_assoc]
      exact ih.step hStep

/-- What a run leaves behind is determined by the private inputs of its history. -/
theorem Reaches.determined {mode : Mode} (h : (start mode).Reaches inputs run) :
    run.constraintSystem.Determined inputs :=
  (h.ordered (ordered_start mode)).determined

end Run

end TypedCircuit
