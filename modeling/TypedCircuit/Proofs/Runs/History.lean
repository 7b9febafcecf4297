import Mathlib.Order.Defs.Unbundled
import TypedCircuit.Proofs.Circuit.Inputs

/-!
# The history of a run

Whatever a body does to a run, it does in steps of four kinds: it introduces private inputs,
it derives a variable from two signals, it asserts that two signals are equal, or it asserts a
rule of one signal. A history is a sequence of such steps in which every signal that a step
uses belongs to the run: it is a constant, or a variable that the run has handed out.

An assertion is a step only if it was not refused: what is known of its signals is as it says.
A prove pass knows the values of its private inputs.

Runs nest, and operations touch only the innermost one. What is said of the others is that
they stay. One run at a time has its history followed. It is named by its level, which is how
many runs are open around it, and it is followed by its place while others are opened and closed
inside it.

## Main results

* `Run.Reaches.trans` — histories are put together.
* `Run.Reaches.owns` — what belongs to a run belongs to it ever after.
* `RunsReach` — open runs before and after an operation.
-/

namespace TypedCircuit

namespace Run

/-- Whether a signal belongs to a run: a constant, or a variable that the run has handed out. -/
def Owns (run : Run) : Signal → Prop
  | .constant _ => True
  | .variable v => run.values[v.index]? = some v.value?

/-- One step of a run, with the indices of the private inputs that it introduces. -/
inductive Step (run : Run) : List Nat → Run → Prop where
  /-- Introduces private inputs, which have values in a prove pass. -/
  | introduce (values : List (Option Element))
    (h : run.mode = .prove → ∀ value? ∈ values, value?.isSome = true) :
    run.Step (List.range' run.values.size values.length) (run.introduce values).2
  /-- Derives the next variable. -/
  | derive (operation : Gate.Operation) {a b : Signal} (ha : run.Owns a) (hb : run.Owns b) :
    run.Step [] ((run.allocate (Signal.combined? operation a b)).2.record
      (.derived operation a.wire b.wire run.values.size))
  /-- Asserts that two signals are equal that are not known to differ. -/
  | assertEqual {a b : Signal} (ha : run.Owns a) (hb : run.Owns b)
    (h : ∀ x y, a.known? = some x → b.known? = some y → x = y) :
    run.Step [] (run.record (.assertEqual a.wire b.wire))
  /-- Asserts a rule of a signal that is not known to break it. -/
  | assertRule {rule : Rule} {s : Signal} (hs : run.Owns s) (h : rule.Passes s) {gate : Gate}
    (hGate : gate ∈ rule.gates s.wire) : run.Step [] (run.record gate)

/-- A sequence of steps, with the indices of the private inputs that they introduce. -/
inductive Reaches : Run → List Nat → Run → Prop where
  | refl (run : Run) : Reaches run [] run
  | step {run between run' : Run} {inputs more : List Nat} (h : Reaches run inputs between)
    (hStep : between.Step more run') : Reaches run (inputs ++ more) run'

theorem Step.mode_eq {run run' : Run} {inputs : List Nat} (h : run.Step inputs run') :
    run'.mode = run.mode := by
  cases h with
  | introduce values _ => rw [introduce_eq]
  | derive | assertEqual | assertRule => rfl

/-- A step leaves the variables that there are as they are. -/
theorem Step.values_eq {run run' : Run} {inputs : List Nat} (h : run.Step inputs run') :
    ∃ more, run'.values = run.values ++ more := by
  cases h with
  | introduce values _ => exact ⟨_, by rw [introduce_eq]⟩
  | derive operation =>
      exact ⟨_, (Array.append_singleton).symm⟩
  | assertEqual | assertRule => exact ⟨#[], Array.append_empty.symm⟩

theorem Step.owns {run run' : Run} {inputs : List Nat} (h : run.Step inputs run') {s : Signal}
    (hs : run.Owns s) : run'.Owns s := by
  rcases s with x | v
  · trivial
  · obtain ⟨more, hMore⟩ := h.values_eq
    have hFound : run.values[v.index]? = some v.value? := hs
    obtain ⟨hIndex, -⟩ := Array.getElem?_eq_some_iff.1 hFound
    show run'.values[v.index]? = some v.value?
    rw [hMore, Array.getElem?_append_left hIndex, hFound]

namespace Reaches

variable {run between run' : Run} {inputs more : List Nat}

theorem single (h : run.Step inputs run') : run.Reaches inputs run' :=
  .step (.refl run) h

theorem trans (h : run.Reaches inputs between) (h' : between.Reaches more run') :
    run.Reaches (inputs ++ more) run' := by
  induction h' with
  | refl => rwa [List.append_nil]
  | step _ hStep ih =>
      rw [← List.append_assoc]
      exact .step ih hStep

theorem mode_eq (h : run.Reaches inputs run') : run'.mode = run.mode := by
  induction h with
  | refl => rfl
  | step _ hStep ih => exact hStep.mode_eq.trans ih

/-- What belongs to a run belongs to it ever after. -/
theorem owns (h : run.Reaches inputs run') {s : Signal} (hs : run.Owns s) : run'.Owns s := by
  induction h with
  | refl => exact hs
  | step _ hStep ih => exact hStep.owns ih

/-- What the steps of a history keep is kept by the history. -/
theorem invariant {P : Run → Prop}
    (hKeeps : ∀ {run run' inputs}, run.mode = between.mode → P run → run.Step inputs run' → P run')
    (h : between.Reaches inputs run') (hStart : P between) : P run' := by
  induction h with
  | refl => exact hStart
  | step hBefore hStep ih => exact hKeeps hBefore.mode_eq ih hStep

end Reaches

end Run

/-! ## Open runs -/

/-- Open runs before and after an operation: nothing happened but to the innermost one, and if
that is of the level that is followed, a history. -/
inductive RunsReach (level : Nat) : List Run → List Run → Prop where
  | nil : RunsReach level [] []
  | cons {run run' : Run} (outer : List Run)
    (h : outer.length = level → ∃ inputs, run.Reaches inputs run') :
    RunsReach level (run :: outer) (run' :: outer)

/-- Whether a signal belongs to the innermost run, if that is of the level that is followed. -/
def Confined (level : Nat) : List Run → Signal → Prop
  | [], _ => True
  | run :: outer, s => outer.length = level → run.Owns s

variable {level : Nat} {runs runs' runs'' : List Run}

theorem confined_constant (x : Element) : Confined level runs (.constant x) := by
  cases runs with
  | nil => trivial
  | cons run outer => exact fun _ => trivial

namespace RunsReach

theorem refl : ∀ runs, RunsReach level runs runs
  | [] => .nil
  | run :: outer => .cons outer fun _ => ⟨[], .refl run⟩

theorem trans (h : RunsReach level runs runs') (h' : RunsReach level runs' runs'') :
    RunsReach level runs runs'' := by
  cases h with
  | nil => exact h'
  | cons outer h =>
      cases h' with
      | cons _ h' =>
          refine .cons outer fun hLevel => ?_
          obtain ⟨inputs, hFirst⟩ := h hLevel
          obtain ⟨more, hNext⟩ := h' hLevel
          exact ⟨inputs ++ more, hFirst.trans hNext⟩

instance : IsPreorder (List Run) (RunsReach level) where
  refl := refl
  trans _ _ _ := trans

theorem single {run run' : Run} {inputs : List Nat} (outer : List Run)
    (h : outer.length = level → run.Step inputs run') :
    RunsReach level (run :: outer) (run' :: outer) :=
  .cons outer fun hLevel => ⟨inputs, .single (h hLevel)⟩

/-- What is confined stays confined. -/
theorem confined (h : RunsReach level runs runs') {s : Signal} (hs : Confined level runs s) :
    Confined level runs' s := by
  cases h with
  | nil => trivial
  | cons outer h =>
      intro hLevel
      obtain ⟨inputs, hReaches⟩ := h hLevel
      exact hReaches.owns (hs hLevel)

theorem exists_cons {run : Run} {outer : List Run} (h : RunsReach level (run :: outer) runs') :
    ∃ run', runs' = run' :: outer ∧ (outer.length = level → ∃ inputs, run.Reaches inputs run') := by
  cases h with
  | cons _ h => exact ⟨_, rfl, h⟩

end RunsReach

end TypedCircuit
