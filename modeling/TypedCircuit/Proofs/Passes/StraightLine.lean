import TypedCircuit.Proofs.Passes.Scripts

/-!
# Straight-line bodies

A straight-line body is a list of oblivious operations and of private inputs, each with the
name under which later instructions find its result. The computations of the private inputs are
not part of the body. A *supply* provides them, one for each position; they are passive, and
otherwise arbitrary.

Every pass over a straight-line body that succeeds records the same circuit: the passes may be
of different modes, have different supplies, and start in sessions that differ in whatever a
body does not read, such as their memoization contexts, their random words, and their outer
runs. So the circuit that a compile pass measures is the one that every prove pass satisfies.

## Main results

* `perform_agree` — a body in alike sessions.
* `pass_constraintSystem_eq` — passes over a body record equal constraint systems.
-/

namespace TypedCircuit.Script

open Construction (Passive)

/-! ## Bodies -/

/-- A step of a straight-line body. -/
inductive Instruction where
  /-- An operation of a circuit. -/
  | operation (op : Operation) (h : op.Oblivious)
  /-- Private inputs. -/
  | introduce (size : Nat)
  /-- A witness, or a memoized one. -/
  | witness (memoized : Bool) (type : TypeExpr)

/-- Instructions in order, each with the name under which its result is saved. -/
abbrev Body := List (Option String × Instruction)

/-- The computations of private inputs and of witnesses, by the position of the instruction. -/
structure Supply where
  inputs : Nat → Action (List Element × Unit)
  value : Nat → Action Value
  inputs_passive (position : Nat) : Passive (inputs position)
  value_passive (position : Nat) : Passive (value position)

/-- The supply of elements and values that are known beforehand. -/
def Supply.ofValues (inputs : Nat → List Element) (value : Nat → Value) : Supply where
  inputs position := pure (inputs position, ())
  value position := pure (value position)
  inputs_passive _ := .pure _
  value_passive _ := .pure _

/-- Performs an instruction. -/
def Instruction.run (supply : Supply) (position : Nat) : Instruction → Action Outcome
  | .operation op _ => op.run
  | .introduce size => do
    let (fields, _) ← Construction.introduce size (supply.inputs position)
    return .signals fields
  | .witness memoized type => do
    let d ← buildType type
    let compute := supply.value position
    let v ← if memoized then Construction.memoizedWitness d compute
      else Construction.witness d compute
    return .value v

/-- Performs the instructions of a body and saves their results. -/
def Body.perform (supply : Supply) (position : Nat) : Body → Action Unit
  | [] => pure ()
  | (name?, instruction) :: rest => do
    let outcome ← instruction.run supply position
    save name? outcome.saved?
    Body.perform supply (position + 1) rest

/-- A pass over a body, and the circuit it recorded. -/
def Body.pass (body : Body) (mode : Mode) (supply : Supply) : Action ConstraintSystem :=
  match mode with
  | .compile => Construction.compile (body.perform supply 0)
  | .prove => do
    let (_, cs) ← Construction.prove (body.perform supply 0)
    return cs

/-! ## Two passes -/

theorem Instruction.run_agree (instruction : Instruction) (supply supply' : Supply)
    (position : Nat) :
    Agree SessionsAlike Outcome.Alike (instruction.run supply position)
      (instruction.run supply' position) := by
  cases instruction with
  | operation op h => exact Operation.run_agree h
  | introduce size =>
      exact (Construction.introduce_agree size (supply.inputs_passive position)
        (supply'.inputs_passive position)).bind fun _ _ hFields => .pure (.signals hFields)
  | witness memoized type =>
      have hCompute := supply.value_passive position
      have hCompute' := supply'.value_passive position
      refine (buildType_agree type).bind ?_
      rintro d _ rfl
      cases memoized with
      | false =>
          exact (Construction.witness_agree d hCompute hCompute').bind fun _ _ hV =>
            .pure (.value hV)
      | true =>
          exact (Construction.memoizedWitness_agree d hCompute hCompute').bind fun _ _ hV =>
            .pure (.value hV)

/-- A body does the same in alike sessions, whatever the supplies. -/
theorem Body.perform_agree (body : Body) (supply supply' : Supply) (position : Nat) :
    Agree SessionsAlike Unrelated (body.perform supply position)
      (body.perform supply' position) := by
  induction body generalizing position with
  | nil => exact .pure trivial
  | cons step rest ih =>
      obtain ⟨name?, instruction⟩ := step
      exact (instruction.run_agree supply supply' position).bind fun _ _ hOutcome =>
        (save_agree name? hOutcome).bind fun _ _ _ => ih (position + 1)

/-- A pass that succeeded performed the body in a new run, and recorded what is left in it. -/
theorem Body.pass_eq_ok {body : Body} {mode : Mode} {supply : Supply}
    {s s' : Session Workspace} {cs : ConstraintSystem}
    (h : body.pass mode supply s = (.ok cs, s')) :
    ∃ after, body.perform supply 0 (s.opened (.start mode)) = (.ok (), after) ∧
      ∀ run outer, after.runs = run :: outer → cs = run.constraintSystem := by
  cases mode with
  | compile =>
      obtain ⟨⟨_, run⟩, _, hRun, h⟩ := Construction.bind_eq_ok h
      cases h
      obtain ⟨after, hBody, hLeft⟩ := Construction.inRun_eq_ok hRun
      exact ⟨after, hBody, fun _ _ hRuns => congrArg Run.constraintSystem (hLeft _ _ hRuns)⟩
  | prove =>
      obtain ⟨⟨_, _⟩, _, hProve, h⟩ := Construction.bind_eq_ok h
      cases h
      obtain ⟨⟨_, run⟩, _, hRun, h⟩ := Construction.bind_eq_ok hProve
      obtain ⟨_, -, h⟩ := lift_bind_eq_ok h
      cases h
      obtain ⟨after, hBody, hLeft⟩ := Construction.inRun_eq_ok hRun
      exact ⟨after, hBody, fun _ _ hRuns => congrArg Run.constraintSystem (hLeft _ _ hRuns)⟩

/-- Passes over a body that succeed record equal constraint systems. -/
theorem Body.pass_constraintSystem_eq (body : Body) {mode mode' : Mode}
    {supply supply' : Supply} {s s' t t' : Session Workspace}
    (hRegistry : s.registry = t.registry) (hHost : s.host.Alike t.host)
    {cs cs' : ConstraintSystem} (h : body.pass mode supply s = (.ok cs, s'))
    (h' : body.pass mode' supply' t = (.ok cs', t')) : cs = cs' := by
  obtain ⟨after, hBody, hLeft⟩ := Body.pass_eq_ok h
  obtain ⟨after', hBody', hLeft'⟩ := Body.pass_eq_ok h'
  have hStart : (Run.start mode).Alike (.start mode') := ⟨rfl, rfl, rfl⟩
  have hOpened : SessionsAlike (s.opened (.start mode)) (t.opened (.start mode')) :=
    ⟨.intro hStart s.runs t.runs, hRegistry, hHost⟩
  obtain ⟨-, hAfter⟩ := body.perform_agree supply supply' 0 _ _ hOpened _ _ _ _ hBody hBody'
  obtain ⟨run, run', hRun, outer, outer', hRuns, hRuns'⟩ := hAfter.runs.exists_eq
  rw [hLeft _ _ hRuns, hLeft' _ _ hRuns']
  exact hRun.constraintSystem_eq

/-- A memoized number of 32 bits, and its square with the blinding value added to it. -/
def Body.blindedSquare : Body :=
  [(some "x", .witness true (.leaf .uint32)),
    (some "square", .operation (.circuit (.mul (.saved "x") (.saved "x"))) trivial),
    (some "blinding", .operation (.scope .blinding) trivial),
    (none, .operation (.circuit (.add (.saved "square") (.saved "blinding"))) trivial)]

private def outside : Session Workspace := Session.start [] Workspace.empty

private def inside : Session Workspace :=
  { Session.start [5] Workspace.empty with contexts := [.empty] }

private def squareSystem : ConstraintSystem :=
  ⟨4, 2, [.range (.variable 0) 32, .derived .mul (.variable 0) (.variable 0) 1,
    .derived .add (.variable 1) (.variable 2) 3]⟩

private theorem succeeds {α : Type} {x : Action α} {s : Session Workspace} {a : α}
    (h : (x s).1.toOption = some a) : ∃ s', x s = (.ok a, s') := by
  rcases hx : x s with ⟨_ | b, s'⟩
  · rw [hx] at h; cases h
  · rw [hx] at h; cases h; exact ⟨s', rfl⟩

/-- A compile pass outside every memoization context and a prove pass in one record the same
circuit. -/
theorem Body.blindedSquare_measured : ∃ (cs cs' : ConstraintSystem) (s s' : Session Workspace),
    Body.blindedSquare.pass .compile (.ofValues (fun _ => []) fun _ => .null) outside =
        (.ok cs, s) ∧
      Body.blindedSquare.pass .prove (.ofValues (fun _ => []) fun _ => .ofElement 3) inside =
        (.ok cs', s') ∧
      cs = cs' ∧ cs.variableCount = 4 ∧ cs.witnessCount = 2 ∧ cs.gates.length = 3 := by
  have hCompile : ∃ s, Body.blindedSquare.pass .compile
      (.ofValues (fun _ => []) fun _ => .null) outside = (.ok squareSystem, s) :=
    succeeds (by decide +kernel)
  have hProve : ∃ s, Body.blindedSquare.pass .prove
      (.ofValues (fun _ => []) fun _ => .ofElement 3) inside = (.ok squareSystem, s) :=
    succeeds (by decide +kernel)
  obtain ⟨s, hCompile⟩ := hCompile
  obtain ⟨s', hProve⟩ := hProve
  have hRegistry : outside.registry = inside.registry := rfl
  have hHost : outside.host.Alike inside.host := ⟨.nil, rfl, .nil⟩
  exact ⟨squareSystem, squareSystem, s, s', hCompile, hProve,
    Body.pass_constraintSystem_eq Body.blindedSquare hRegistry hHost hCompile hProve,
    rfl, rfl, rfl⟩

end TypedCircuit.Script
