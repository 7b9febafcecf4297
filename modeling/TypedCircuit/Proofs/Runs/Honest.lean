import TypedCircuit.Proofs.Circuit.Acceptance
import TypedCircuit.Proofs.Runs.History

/-!
# Honest runs

A prove pass knows the value of every variable that it hands out, and refuses an assertion that
is wrong of the values it knows before anything is recorded. So whatever its history is, every
gate of it holds under its own values: also if a sequence of assertions was refused half way, and
the body went on.

Values are never taken back, so a gate that holds when it is recorded holds ever after. What is
left to be seen is that it holds when it is recorded.

## Main results

* `Run.Honest.step` — a step of a prove pass leaves an honest run honest.
* `Run.Reaches.honest` — every prove pass is honest.
* `Run.Honest.verify_eq` — an honest run is accepted when it ends.
-/

namespace TypedCircuit

/-! ## Gates under assignments -/

theorem Gate.holds?_derived_iff {values : Nat → Option Element} {operation : Gate.Operation}
    {left right : Wire} {output : Nat} :
    (Gate.derived operation left right output).holds? values = some true ↔
      ∃ x y, left.value? values = some x ∧ right.value? values = some y ∧
        values output = some (operation.apply x y) := by
  simp only [holds?, Option.bind_eq_bind, Option.bind_eq_some_iff, Option.pure_def,
    Option.some.injEq, beq_iff_eq]
  constructor
  · rintro ⟨z, hz, x, hx, y, hy, rfl⟩
    exact ⟨x, y, hx, hy, hz⟩
  · rintro ⟨x, y, hx, hy, hz⟩
    exact ⟨_, hz, x, hx, y, hy, rfl⟩

theorem Gate.holds?_assertEqual_iff {values : Nat → Option Element} {left right : Wire} :
    (Gate.assertEqual left right).holds? values = some true ↔
      ∃ x, left.value? values = some x ∧ right.value? values = some x := by
  simp only [holds?, Option.bind_eq_bind, Option.bind_eq_some_iff, Option.pure_def,
    Option.some.injEq, beq_iff_eq]
  constructor
  · rintro ⟨x, hx, y, hy, rfl⟩
    exact ⟨x, hx, hy⟩
  · rintro ⟨x, hx, hy⟩
    exact ⟨x, hx, x, hy, rfl⟩

section

variable {values values' : Nat → Option Element}

theorem Wire.value?_mono (h : ∀ i x, values i = some x → values' i = some x) {wire : Wire}
    {x : Element} (hx : wire.value? values = some x) : wire.value? values' = some x := by
  rcases wire with y | index
  · exact hx
  · exact h index x hx

/-- A gate that holds goes on to hold when more is assigned. -/
theorem Gate.holds?_mono (h : ∀ i x, values i = some x → values' i = some x) {gate : Gate}
    (hHolds : gate.holds? values = some true) : gate.holds? values' = some true := by
  cases gate with
  | derived =>
      obtain ⟨x, y, hLeft, hRight, hOutput⟩ := holds?_derived_iff.1 hHolds
      exact holds?_derived_iff.2
        ⟨x, y, Wire.value?_mono h hLeft, Wire.value?_mono h hRight, h _ _ hOutput⟩
  | assertEqual =>
      obtain ⟨x, hLeft, hRight⟩ := holds?_assertEqual_iff.1 hHolds
      exact holds?_assertEqual_iff.2 ⟨x, Wire.value?_mono h hLeft, Wire.value?_mono h hRight⟩
  | boolean | range =>
      obtain ⟨x, hx, hTest⟩ := Option.map_eq_some_iff.1 hHolds
      exact Option.map_eq_some_iff.2 ⟨x, Wire.value?_mono h hx, hTest⟩

end

/-! ## Honesty -/

namespace Run

variable {run run' : Run}

/-- Every variable of a run has a value, and every gate holds under these values. -/
structure Honest (run : Run) : Prop where
  valued : ∀ index < run.values.size, (run.valueOf? index).isSome = true
  holds : ∀ gate ∈ run.gates, gate.holds? run.valueOf? = some true

theorem honest_start (mode : Mode) : (start mode).Honest where
  valued := nofun
  holds := nofun

/-- What a run says of a signal that belongs to it is what the signal says of itself. -/
theorem Owns.value?_eq {s : Signal} (h : run.Owns s) :
    s.wire.value? run.valueOf? = s.known? := by
  rcases s with x | v
  · rfl
  · show (run.values[v.index]?).join = v.value?
    rw [show run.values[v.index]? = some v.value? from h]
    rfl

theorem valueOf?_mono {more : Array (Option Element)} (h : run'.values = run.values ++ more)
    (index : Nat) (x : Element) (hx : run.valueOf? index = some x) :
    run'.valueOf? index = some x := by
  have hFound : run.values[index]? = some (some x) := Option.join_eq_some_iff.1 hx
  obtain ⟨hIndex, -⟩ := Array.getElem?_eq_some_iff.1 hFound
  rw [valueOf?, h, Array.getElem?_append_left hIndex, hFound]
  rfl

namespace Honest

/-- What is known of a signal of an honest run. -/
theorem known (h : run.Honest) {s : Signal} (hs : run.Owns s) : ∃ x, s.known? = some x := by
  rcases s with x | v
  · exact ⟨x, rfl⟩
  · obtain ⟨hIndex, -⟩ := Array.getElem?_eq_some_iff.1 (show run.values[v.index]? = _ from hs)
    have hValued := h.valued v.index hIndex
    rw [show run.valueOf? v.index = v.value? from hs.value?_eq] at hValued
    exact Option.isSome_iff_exists.1 hValued

/-- Variables with values keep a run honest. -/
theorem append (h : run.Honest) {more : Array (Option Element)}
    (hValues : run'.values = run.values ++ more) (hGates : run'.gates = run.gates)
    (hMore : ∀ value? ∈ more, value?.isSome = true) : run'.Honest where
  valued index hIndex := by
    rw [hValues, Array.size_append] at hIndex
    rw [valueOf?, hValues]
    by_cases hOld : index < run.values.size
    · have hValued := h.valued index hOld
      rwa [valueOf?, ← Array.getElem?_append_left hOld] at hValued
    · have hNew : index - run.values.size < more.size := by omega
      rw [Array.getElem?_append_right (Nat.not_lt.1 hOld), Array.getElem?_eq_getElem hNew]
      exact hMore _ (Array.getElem_mem hNew)
  holds gate hGate := by
    rw [hGates] at hGate
    exact Gate.holds?_mono (valueOf?_mono hValues) (h.holds gate hGate)

theorem record (h : run.Honest) {gate : Gate} (hGate : gate.holds? run.valueOf? = some true) :
    (run.record gate).Honest where
  valued := h.valued
  holds gate' hMem := by
    rcases Array.mem_push.1 hMem with hMem | rfl
    · exact h.holds gate' hMem
    · exact hGate

/-- The result of an operation has the value that its gate asks for. -/
theorem derive (h : run.Honest) (hMode : run.mode = .prove) (operation : Gate.Operation)
    {a b : Signal} (ha : run.Owns a) (hb : run.Owns b) :
    ((run.allocate (Signal.combined? operation a b)).2.record
      (.derived operation a.wire b.wire run.values.size)).Honest := by
  obtain ⟨x, hx⟩ := h.known ha
  obtain ⟨y, hy⟩ := h.known hb
  have hKept : keptValue run.mode (Signal.combined? operation a b) =
      some (operation.apply x y) := by
    rw [hMode, Signal.combined?, hx, hy]
    rfl
  have hValues : (run.allocate (Signal.combined? operation a b)).2.values =
      run.values ++ #[some (operation.apply x y)] := by
    rw [Array.append_singleton, ← hKept]
    rfl
  refine (h.append hValues rfl fun value? hMem => ?_).record (Gate.holds?_derived_iff.2 ?_)
  · rw [List.mem_singleton.1 (Array.mem_toList_iff.2 hMem)]
    rfl
  · refine ⟨x, y, ?_, ?_, ?_⟩
    · exact Wire.value?_mono (valueOf?_mono hValues) (ha.value?_eq.trans hx)
    · exact Wire.value?_mono (valueOf?_mono hValues) (hb.value?_eq.trans hy)
    · rw [valueOf?, hValues, Array.getElem?_append_right (Nat.le_refl _), Nat.sub_self]
      rfl

/-- A step of a prove pass leaves an honest run honest. -/
theorem step (hMode : run.mode = .prove) (h : run.Honest) {inputs : List Nat}
    (hStep : run.Step inputs run') : run'.Honest := by
  cases hStep with
  | introduce values hValues =>
      rw [introduce_eq]
      refine h.append rfl rfl fun value? hMem => ?_
      obtain ⟨given?, hGiven, rfl⟩ := List.mem_map.1 (List.mem_toArray.1 hMem)
      rw [hMode]
      exact hValues hMode given? hGiven
  | derive operation ha hb => exact h.derive hMode operation ha hb
  | assertEqual ha hb hEqual =>
      obtain ⟨x, hx⟩ := h.known ha
      obtain ⟨y, hy⟩ := h.known hb
      cases hEqual x y hx hy
      exact h.record (Gate.holds?_assertEqual_iff.2
        ⟨x, ha.value?_eq.trans hx, hb.value?_eq.trans hy⟩)
  | assertRule hs hPasses hGate =>
      obtain ⟨x, hx⟩ := h.known hs
      have hGates := (Rule.gates_hold (hs.value?_eq.trans hx) _).2 ((Rule.passes_iff hx).1 hPasses)
      exact h.record (hGates _ hGate)

/-- An honest run is accepted when it ends. -/
theorem verify_eq (h : run.Honest) : run.verify = .ok () :=
  (verify_eq_ok_iff run).2 fun gate hGate => h.holds gate (Array.mem_toList_iff.1 hGate)

end Honest

/-- A prove pass is honest, whatever happened in it. -/
theorem Reaches.honest {inputs : List Nat} (h : (start .prove).Reaches inputs run) : run.Honest :=
  h.invariant (fun hMode hHonest hStep => hHonest.step hMode hStep) (honest_start .prove)

end Run

end TypedCircuit
