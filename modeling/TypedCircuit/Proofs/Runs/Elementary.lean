import TypedCircuit.Proofs.Runs.Programs

/-!
# Elementary operations

All that is ever done to a run is done by four elementary operations: combining two signals,
asserting that two signals are equal, asserting a rule of a signal, and allocating private inputs.
A body is written out in elementary operations as a tree, with nested passes as subtrees. Between
the operations it does whatever leaves the open runs as they are.

An elementary operation either records something in the innermost run or leaves it as it is, and
which of the two depends on its operands alone. Runs only grow.

## Main results

* `Elementary.run_andThen` — trees are put one after another.
* `Primitive.runs_perform` — what an elementary operation does to the open runs.
* `Elementary.runs_grow` — a body only grows the innermost run.
-/

namespace TypedCircuit

variable {host α β γ : Type}

/-! ## Operations -/

/-- An elementary operation on the innermost run. -/
inductive Primitive : Type → Type where
  | combine (operation : Gate.Operation) (a b : Signal) : Primitive Signal
  | assertEqual (a b : Signal) : Primitive Unit
  | assertRule (rule : Rule) (a : Signal) : Primitive Unit
  | allocate (values : List (Option Element)) : Primitive (List Signal)

namespace Primitive

/-- Performs an operation. -/
def perform : Primitive β → Circuit β
  | combine operation a b => (a.combine operation b : Wiring Signal)
  | assertEqual a b => a.assertEqual b
  | assertRule rule a => rule.assert a
  | allocate values => (Construction.allocateInputs values : Wiring (List Signal))

/-- Whether an operation records something, where a run is open: it is not folded, not refused and
not empty. -/
def Records : Primitive β → Prop
  | combine _ a b => ¬ (a.isConstant ∧ b.isConstant)
  | assertEqual a b => Signal.refuseUnequal a b = .ok () ∧ ¬ (a.isConstant ∧ b.isConstant)
  | assertRule rule a => rule.Passes a ∧ rule ≠ .free ∧ ¬ a.isConstant
  | allocate values => values ≠ []

/-- A run after an operation has recorded something. -/
def advance (run : Run) : Primitive β → Run
  | combine operation a b =>
    (run.allocate (Signal.combined? operation a b)).2.record
      (.derived operation a.wire b.wire run.values.size)
  | assertEqual a b => run.record (.assertEqual a.wire b.wire)
  | assertRule rule a => { run with gates := run.gates ++ (rule.gates a.wire).toArray }
  | allocate values => (run.introduce values).2

end Primitive

/-! ## Bodies -/

/-- A body that is written out in elementary operations. -/
inductive Elementary (host : Type) : Type → Type 1 where
  /-- The end, with a value or an error. -/
  | returns {α : Type} (result : Except Error α) : Elementary host α
  /-- Anything that leaves the open runs as they are. -/
  | does {α β : Type} (x : Construction host β) (h : ∀ s, (x s).2.runs = s.runs)
    (next : Except Error β → Elementary host α) : Elementary host α
  /-- An elementary operation. -/
  | performs {α β : Type} (op : Primitive β) (next : Except Error β → Elementary host α) :
    Elementary host α
  /-- A nested pass. -/
  | opens {α β : Type} (mode : Mode) (body : Elementary host β)
    (next : Except Error (β × Run) → Elementary host α) : Elementary host α

namespace Elementary

/-- Executes a body. -/
def run : {α : Type} → Elementary host α → Construction host α
  | _, returns result => liftM result
  | _, does x _ next => fun s => (next (x s).1).run (x s).2
  | _, performs op next => fun s =>
    (next ((liftM op.perform : Construction host _) s).1).run
      ((liftM op.perform : Construction host _) s).2
  | _, opens mode body next => fun s =>
    (next (Construction.inRun mode body.run s).1).run (Construction.inRun mode body.run s).2

/-- Goes on after a body, whether it succeeded or failed. -/
def andThen : {α : Type} → Elementary host α → (Except Error α → Elementary host β) →
    Elementary host β
  | _, returns result, f => f result
  | _, does x h next, f => .does x h fun result => (next result).andThen f
  | _, performs op next, f => .performs op fun result => (next result).andThen f
  | _, opens mode body next, f => .opens mode body fun result => (next result).andThen f

theorem run_andThen (e : Elementary host α) (f : Except Error α → Elementary host β)
    (s : Session host) : (e.andThen f).run s = (f (e.run s).1).run (e.run s).2 := by
  induction e generalizing s with
  | returns result => cases result <;> rfl
  | does x h next ih => exact ih _ f _
  | performs op next ih => exact ih _ f _
  | opens mode body next _ ih => exact ih _ f _

end Elementary

/-! ## Growing runs -/

namespace Run

/-- A run has grown to another one. -/
structure Grows (run run' : Run) : Prop where
  mode_eq : run'.mode = run.mode
  values_eq : ∃ more, run'.values = run.values ++ more
  gates_eq : ∃ more, run'.gates = run.gates ++ more
  witnessCount_le : run.witnessCount ≤ run'.witnessCount

theorem Grows.refl (run : Run) : run.Grows run :=
  ⟨rfl, ⟨#[], Array.append_empty.symm⟩, ⟨#[], Array.append_empty.symm⟩, Nat.le_refl _⟩

theorem Grows.trans {run between run' : Run} (h : run.Grows between) (h' : between.Grows run') :
    run.Grows run' := by
  obtain ⟨values, hValues⟩ := h.values_eq
  obtain ⟨values', hValues'⟩ := h'.values_eq
  obtain ⟨gates, hGates⟩ := h.gates_eq
  obtain ⟨gates', hGates'⟩ := h'.gates_eq
  refine ⟨h'.mode_eq.trans h.mode_eq, ⟨values ++ values', ?_⟩, ⟨gates ++ gates', ?_⟩,
    Nat.le_trans h.witnessCount_le h'.witnessCount_le⟩
  · rw [hValues', hValues, Array.append_assoc]
  · rw [hGates', hGates, Array.append_assoc]

/-- How much is recorded in a run. -/
def extent (run : Run) : Nat := run.values.size + run.gates.size

theorem Grows.size_le {run run' : Run} (h : run.Grows run') :
    run.values.size ≤ run'.values.size := by
  obtain ⟨values, hValues⟩ := h.values_eq
  rw [hValues, Array.size_append]
  omega

theorem Grows.extent_le {run run' : Run} (h : run.Grows run') : run.extent ≤ run'.extent := by
  obtain ⟨values, hValues⟩ := h.values_eq
  obtain ⟨gates, hGates⟩ := h.gates_eq
  unfold extent
  rw [hValues, hGates, Array.size_append, Array.size_append]
  omega

end Run

/-- Open runs before and after: nothing happened but to the innermost one, which has grown. -/
inductive RunsGrow : List Run → List Run → Prop where
  | nil : RunsGrow [] []
  | cons {run run' : Run} (h : run.Grows run') (outer : List Run) :
    RunsGrow (run :: outer) (run' :: outer)

namespace RunsGrow

variable {runs between runs' : List Run}

theorem refl : ∀ runs, RunsGrow runs runs
  | [] => .nil
  | run :: outer => .cons (.refl run) outer

theorem trans (h : RunsGrow runs between) (h' : RunsGrow between runs') : RunsGrow runs runs' := by
  cases h with
  | nil => exact h'
  | cons h outer =>
      cases h' with
      | cons h' => exact .cons (h.trans h') outer

theorem eq_nil (h : RunsGrow [] runs') : runs' = [] := by
  cases h
  rfl

theorem exists_cons {run : Run} {outer : List Run} (h : RunsGrow (run :: outer) runs') :
    ∃ run', runs' = run' :: outer ∧ run.Grows run' := by
  cases h with
  | cons h => exact ⟨_, rfl, h⟩

end RunsGrow

namespace Primitive

/-- An operation that records something grows the run. -/
theorem grows_advance (op : Primitive β) (run : Run) : run.Grows (op.advance run) := by
  cases op with
  | combine operation a b =>
      exact ⟨rfl, ⟨_, Array.append_singleton.symm⟩, ⟨_, Array.append_singleton.symm⟩, Nat.le_refl _⟩
  | assertEqual a b =>
      exact ⟨rfl, ⟨#[], Array.append_empty.symm⟩, ⟨_, Array.append_singleton.symm⟩, Nat.le_refl _⟩
  | assertRule rule a => exact ⟨rfl, ⟨#[], Array.append_empty.symm⟩, ⟨_, rfl⟩, Nat.le_refl _⟩
  | allocate values =>
      show run.Grows (run.introduce values).2
      rw [Run.introduce_eq]
      exact ⟨rfl, ⟨_, rfl⟩, ⟨#[], Array.append_empty.symm⟩, Nat.le_add_right _ _⟩

/-- An operation that records something leaves more in the run. -/
theorem extent_lt_advance {op : Primitive β} (h : op.Records) (run : Run) :
    run.extent < (op.advance run).extent := by
  cases op with
  | combine operation a b =>
      show _ < (run.values.push _).size + (run.gates.push _).size
      rw [Array.size_push, Array.size_push, Run.extent]
      omega
  | assertEqual a b =>
      show _ < run.values.size + (run.gates.push _).size
      rw [Array.size_push, Run.extent]
      omega
  | assertRule rule a =>
      have hGates : 0 < (rule.gates a.wire).length := by
        cases rule with
        | free => exact absurd rfl h.2.1
        | boolean | range => exact Nat.one_pos
      simp only [advance, Run.extent, Array.size_append, List.size_toArray]
      omega
  | allocate values =>
      have hValues : 0 < values.length := List.length_pos_iff.2 h
      show _ < (run.introduce values).2.extent
      rw [Run.introduce_eq]
      simp only [Run.extent, Array.size_append, List.size_toArray, List.length_map]
      omega

/-- An operation that records something does so in the innermost run. -/
theorem runs_of_records {op : Primitive β} (h : op.Records) (run : Run) (outer : List Run) :
    (op.perform (run :: outer)).2 = op.advance run :: outer := by
  cases op with
  | combine operation a b =>
      show (a.combine operation b (run :: outer)).2 = _
      rcases a with x | v
      · rcases b with y | w
        · exact absurd ⟨rfl, rfl⟩ h
        · rfl
      · rfl
  | assertEqual a b =>
      have hGate : ¬ (a.isConstant && b.isConstant) = true := by
        rw [Bool.and_eq_true]
        exact h.2
      show (a.assertEqual b (run :: outer)).2 = _
      rw [Signal.assertEqual_eq h.1, if_neg hGate]
      show { run with gates := run.gates ++ #[_] } :: outer = run.record _ :: outer
      rw [Array.append_singleton]
      rfl
  | assertRule rule a =>
      show (rule.assert a (run :: outer)).2 = _
      rw [Rule.assert_eq h.1, Rule.assertedGates, if_neg h.2.2]
      rfl
  | allocate values => rfl

/-- An operation that records nothing leaves the open runs as they are. -/
theorem runs_of_not_records {op : Primitive β} (h : ¬ op.Records) (runs : List Run) :
    (op.perform runs).2 = runs := by
  cases op with
  | combine operation a b =>
      obtain ⟨ha, hb⟩ := not_not.1 h
      show (a.combine operation b runs).2 = runs
      rcases a with x | v
      · rcases b with y | w
        · rfl
        · cases hb
      · cases ha
  | assertEqual a b =>
      show (a.assertEqual b runs).2 = runs
      cases hRefused : Signal.refuseUnequal a b with
      | error e => rw [Signal.assertEqual_fails hRefused]
      | ok =>
          have hConstant : (a.isConstant && b.isConstant) = true := by
            by_contra hNot
            rw [Bool.and_eq_true] at hNot
            exact h ⟨hRefused, hNot⟩
          rw [Signal.assertEqual_eq hRefused, if_pos hConstant, recordAll_nil]
  | assertRule rule a =>
      show (rule.assert a runs).2 = runs
      by_cases hPasses : rule.Passes a
      · have hNone : rule.assertedGates a = [] := by
          unfold Rule.assertedGates
          split
          · rfl
          · next hConstant =>
              have hFree : rule = .free := by
                by_contra hRule
                exact h ⟨hPasses, hRule, hConstant⟩
              rw [hFree]
              rfl
        rw [Rule.assert_eq hPasses, hNone, recordAll_nil]
      · obtain ⟨e, hRefused⟩ := Rule.assert_fails hPasses runs
        rw [hRefused]
  | allocate values =>
      obtain rfl : values = [] := not_not.1 h
      cases runs <;> rfl

/-- Where no run is open, nothing is recorded. -/
theorem runs_of_nil (op : Primitive β) : (op.perform []).2 = [] := by
  by_cases h : op.Records
  · cases op with
    | combine operation a b =>
        show (a.combine operation b []).2 = []
        unfold Signal.combine
        split
        · rfl
        · unfold deriveSignal
          cases Signal.combined? operation a b <;> rfl
    | assertEqual a b =>
        show (a.assertEqual b []).2 = []
        rw [Signal.assertEqual_eq h.1]
        rfl
    | assertRule rule a =>
        show (rule.assert a []).2 = []
        rw [Rule.assert_eq h.1]
        rfl
    | allocate values => rfl
  · exact runs_of_not_records h []

theorem runs_grow (op : Primitive β) (runs : List Run) : RunsGrow runs (op.perform runs).2 := by
  by_cases h : op.Records
  · cases runs with
    | nil => rw [runs_of_nil]; exact .nil
    | cons run outer => rw [runs_of_records h]; exact .cons (op.grows_advance run) outer
  · rw [runs_of_not_records h]
    exact .refl runs

end Primitive

namespace Elementary

/-- A nested pass leaves the runs around it as they are. -/
theorem runs_inRun {mode : Mode} {body : Elementary host β} {s : Session host}
    (h : RunsGrow (s.opened (.start mode)).runs (body.run (s.opened (.start mode))).2.runs) :
    (Construction.inRun mode body.run s).2.runs = s.runs := by
  obtain ⟨run, hRuns, -⟩ := h.exists_cons
  rw [Construction.inRun_of_runs hRuns]

/-- A body only grows the innermost run. -/
theorem runs_grow (e : Elementary host α) (s : Session host) :
    RunsGrow s.runs (e.run s).2.runs := by
  induction e generalizing s with
  | returns result => cases result <;> exact .refl s.runs
  | does x h next ih =>
      have hRest := ih (x s).1 (x s).2
      rwa [h] at hRest
  | performs op next ih =>
      exact (op.runs_grow s.runs).trans (ih _ ((liftM op.perform : Construction host _) s).2)
  | opens mode body next ihBody ih =>
      have hRest := ih (Construction.inRun mode body.run s).1 (Construction.inRun mode body.run s).2
      rwa [runs_inRun (ihBody _)] at hRest

end Elementary

end TypedCircuit
