import TypedCircuit.Proofs.Runs.Determined
import TypedCircuit.Proofs.Runs.Programs

/-!
# Passes over programs

The body of a pass is a program that keeps to the run of the pass: what it calls there, it calls
with constants and with variables of this run. Nothing is asked of what it does in the runs that
it opens and closes inside, nor of how it deals with errors.

Then the run of the pass has a history, at every moment and however many runs are open inside,
and what holds of every history holds of the run. A prove pass is honest, and is accepted once
its body has succeeded. A pass of either mode leaves a circuit behind that is determined by its
private inputs.

## Main results

* `Program.prove_accepted` — prove passes are honest, and are accepted.
* `Program.pass_determined` — passes leave determined circuits.
-/

namespace TypedCircuit

open Construction (compile prove)

variable {host α : Type} {p : Program host α} {s t : Session host} {mode : Mode}

namespace Program

/-- At every moment of a pass its run has a history, and the runs around it are as they were. -/
theorem Visits.exists_run (h : p.KeepsTo s.runs.length (s.opened (.start mode)))
    (hVisit : p.Visits (s.opened (.start mode)) t) :
    ∃ inner run inputs, t.runs = inner ++ run :: s.runs ∧
      (Run.start mode).Reaches inputs run :=
  (hVisit.above h).exists_run

/-- When the body of a pass has come to its end, only the run of the pass is open inside. -/
theorem run_opened (h : p.KeepsTo s.runs.length (s.opened (.start mode))) :
    ∃ run inputs, (p.run (s.opened (.start mode))).2.runs = run :: s.runs ∧
      (Run.start mode).Reaches inputs run := by
  obtain ⟨run, hRuns, hHistory⟩ := (Program.reaches h).exists_cons
  obtain ⟨inputs, hReaches⟩ := hHistory rfl
  exact ⟨run, inputs, hRuns, hReaches⟩

/--
Let the body of a prove pass use only constants and variables of the run of the pass, where it
works in that run. Then at every moment every variable of the run has a value, and every gate of
it holds under these values. If the body succeeds, the pass does: it returns what the body
returned and the circuit of the run.
-/
theorem prove_accepted (h : p.KeepsTo s.runs.length (s.opened (.start .prove))) :
    (∀ t, p.Visits (s.opened (.start .prove)) t →
      ∃ inner run, t.runs = inner ++ run :: s.runs ∧ run.mode = .prove ∧ run.Honest) ∧
    ∀ a, (p.run (s.opened (.start .prove))).1 = .ok a →
      ∃ run, (p.run (s.opened (.start .prove))).2.runs = run :: s.runs ∧
        (prove p.run s).1 = .ok (a, run.constraintSystem) := by
  constructor
  · intro t hVisit
    obtain ⟨inner, run, inputs, hRuns, hReaches⟩ := hVisit.exists_run h
    exact ⟨inner, run, hRuns, hReaches.mode_eq, hReaches.honest⟩
  · intro a hBody
    obtain ⟨run, inputs, hRuns, hReaches⟩ := run_opened h
    refine ⟨run, hRuns, ?_⟩
    rw [Construction.prove_of_runs hRuns, hBody, hReaches.honest.verify_eq]
    rfl

end Program

/-- Whether a pass over a body succeeds and leaves a circuit behind. -/
def Construction.Leaves (mode : Mode) (body : Construction host α) (s : Session host)
    (cs : ConstraintSystem) : Prop :=
  match mode with
  | .compile => (compile body s).1 = .ok cs
  | .prove => ∃ a, (prove body s).1 = .ok (a, cs)

/-- A pass that succeeds leaves the circuit of its run behind. -/
theorem Construction.Leaves.eq {body : Construction host α} {run : Run} {outer : List Run}
    {cs : ConstraintSystem} (h : Construction.Leaves mode body s cs)
    (hRuns : (body (s.opened (.start mode))).2.runs = run :: outer) :
    cs = run.constraintSystem := by
  cases mode with
  | compile =>
      have hOk : (compile body s).1 = .ok cs := h
      rw [Construction.compile_of_runs hRuns] at hOk
      obtain ⟨_, -, rfl⟩ := map_eq_ok.1 hOk
      rfl
  | prove =>
      obtain ⟨a, hOk⟩ := h
      rw [Construction.prove_of_runs hRuns] at hOk
      obtain ⟨_, -, hOk⟩ := TypedCircuit.bind_eq_ok.1 hOk
      obtain ⟨_, -, hEq⟩ := map_eq_ok.1 hOk
      cases hEq
      rfl

/--
Let the body of a pass use only constants and variables of the run of the pass, where it works in
that run. Then at every moment the circuit of the run is determined by the private inputs that
the history of the run has introduced, and so is the circuit that the pass leaves behind, if it
succeeds.
-/
theorem Program.pass_determined (h : p.KeepsTo s.runs.length (s.opened (.start mode))) :
    (∀ t, p.Visits (s.opened (.start mode)) t →
      ∃ inner run inputs, t.runs = inner ++ run :: s.runs ∧
        (Run.start mode).Reaches inputs run ∧ run.constraintSystem.Determined inputs) ∧
    ∀ cs, Construction.Leaves mode p.run s cs →
      ∃ run inputs, (p.run (s.opened (.start mode))).2.runs = run :: s.runs ∧
        cs = run.constraintSystem ∧ (Run.start mode).Reaches inputs run ∧
        cs.Determined inputs := by
  constructor
  · intro t hVisit
    obtain ⟨inner, run, inputs, hRuns, hReaches⟩ := hVisit.exists_run h
    exact ⟨inner, run, inputs, hRuns, hReaches, hReaches.determined⟩
  · intro cs hLeaves
    obtain ⟨run, inputs, hRuns, hReaches⟩ := Program.run_opened h
    obtain rfl := hLeaves.eq hRuns
    exact ⟨run, inputs, hRuns, rfl, hReaches, hReaches.determined⟩

/-! ## Two bodies -/

/-- A session in which nothing is open. -/
private def idle : Session Unit := Session.start [] ()

/-- Checks an array of which the second item is too large, ignores the refusal, measures another
circuit on the way, and multiplies what it has. -/
private def tolerant : Program Unit Signal :=
  .encloses (.introduce 2) (.returns (.ok ([3, 4294967296], ()))) (Program.onSuccess fun inputs =>
    match inputs.1 with
    | [x, y] =>
      .calls (.check (.array .uint32 2) (.array [.signal x, .signal y])) fun _ =>
        .encloses .compile
          (.encloses (.introduce 1) (.returns (.ok ([], ()))) (Program.onSuccess fun inner =>
            .returns (.ok inner.1)))
          (Program.onSuccess fun _ => .calls (.combine .mul x y) .returns)
    | _ => .returns (.error .valueUnavailable))

private theorem keepsTo_tolerant :
    tolerant.KeepsTo idle.runs.length (idle.opened (.start .prove)) := by
  refine ⟨fun _ _ => trivial, ⟨fun _ => rfl, fun _ => rfl, trivial⟩, ?_, ?_⟩
  · intro t ht
    cases ht
    exact ⟨fun _ _ => trivial, trivial⟩
  · exact ⟨⟨fun _ => rfl, fun _ => rfl⟩, trivial⟩

/-- A check that was refused half way has recorded a range of the first item only, and the pass
is accepted with it. -/
theorem prove_accepted_tolerant :
    tolerant.KeepsTo idle.runs.length (idle.opened (.start .prove)) ∧
      (∀ t, tolerant.Visits (idle.opened (.start .prove)) t →
        ∃ inner run, t.runs = inner ++ run :: idle.runs ∧ run.mode = .prove ∧ run.Honest) ∧
      ∃ cs, (prove tolerant.run idle).1 =
          .ok (.variable ⟨2, some 12884901888⟩, cs) ∧
        cs.gates = [.range (.variable 0) 32, .derived .mul (.variable 0) (.variable 1) 2] := by
  obtain ⟨hMoments, hEnd⟩ := Program.prove_accepted keepsTo_tolerant
  obtain ⟨run, hRuns, hProve⟩ := hEnd (.variable ⟨2, some 12884901888⟩) rfl
  refine ⟨keepsTo_tolerant, hMoments, run.constraintSystem, hProve, ?_⟩
  obtain rfl := (List.cons.inj hRuns).1
  rfl

/-- Selects between two private inputs by a third one. -/
private def choice : Program Unit Value :=
  .encloses (.introduce 3) (.returns (.ok ([], ()))) (Program.onSuccess fun inputs =>
    match inputs.1 with
    | [b, x, y] => .calls (.select .field ⟨b⟩ (.signal x) (.signal y)) .returns
    | _ => .returns (.error .valueUnavailable))

/-- The circuit of a selection has three private inputs, and three variables that are derived
from them. -/
theorem pass_determined_choice :
    choice.KeepsTo idle.runs.length (idle.opened (.start .compile)) ∧
      ∃ cs inputs, (compile choice.run idle).1 = .ok cs ∧ cs.variableCount = 6 ∧
        inputs.length = 3 ∧ cs.Determined inputs := by
  have hKeeps : choice.KeepsTo idle.runs.length (idle.opened (.start .compile)) :=
    ⟨nofun, ⟨fun _ => rfl, fun _ => rfl, fun _ => rfl⟩, trivial⟩
  obtain ⟨cs, hCompile⟩ : ∃ cs, (compile choice.run idle).1 = .ok cs := ⟨_, rfl⟩
  obtain ⟨run, inputs, -, -, -, hDetermined⟩ := (Program.pass_determined hKeeps).2 cs hCompile
  obtain rfl : _ = cs := Except.ok.inj hCompile
  exact ⟨hKeeps, _, inputs, rfl, rfl, hDetermined.inputs_length, hDetermined⟩

end TypedCircuit
