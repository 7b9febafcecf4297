import TypedCircuit.Proofs.Reduction.Scripts

/-!
# Whether what is proved can be compiled

A prove pass over a body of direct instructions may succeed where a compile pass fails. A selection
is refused if its candidates carry different auxiliary data, and the compile pass does not have the
auxiliary data that the prove pass had: where a witness carried host data it has a null. Host data
that is written in the body stays.

Nothing else goes wrong. Where a prove pass succeeds, the compile pass ends as the prove pass does
whose witnesses have nulls in place of host data. Both record the circuit of the prove pass, or both
are refused for the auxiliary data of one type.

## Main results

* `Body.perform_together` — a direct body in three passes.
* `Body.compile_eq_blank` — a body that was proved, in a compile pass.
-/

namespace TypedCircuit.Script

/-! ## Direct bodies -/

/-- An instruction that is performed without memoization and without a hash input. -/
def Instruction.Direct : Instruction → Prop
  | .operation op _ => op.Direct
  | .introduce _ => True
  | .witness memoized _ => memoized = false

/-- A body of direct instructions. -/
def Body.Direct (body : Body) : Prop := ∀ step ∈ body, step.2.Direct

/-- The supply of known elements, and of known values with nulls in place of host data. -/
def Supply.blank (inputs : Nat → List Element) (values : Nat → Value) : Supply :=
  .ofValues inputs fun position => (values position).blank

variable {inputs : Nat → List Element} {values : Nat → Value} {supply : Supply}

theorem Instruction.run_together {instruction : Instruction} (h : instruction.Direct)
    (position : Nat) :
    EndTogether (SessionsReduce .hostData) (SessionsReduce .assignment)
      (Outcome.Reduces .hostData) (Outcome.Reduces .assignment)
      (instruction.run (.ofValues inputs values) position)
      (instruction.run (.blank inputs values) position) (instruction.run supply position) := by
  cases instruction with
  | operation op _ => exact Operation.run_together h
  | introduce size =>
      have hBlank : Follows (SessionsReduce .hostData) (fun x y => x.1 = y.1 ∧ Unrelated x.2 y.2)
          (pure (inputs position, ()) : Action (List Element × Unit))
          (pure (inputs position, ())) := .pure ⟨rfl, trivial⟩
      have hCompile := Construction.introduce_compile_follows (P := fun _ => True) size
        (show Loss.assignment.values from trivial) (.pure (inputs position, ()))
        (fun _ _ _ _ => trivial) (supply.inputs position)
      exact EndTogether.bind (.of_follows (Construction.introduce_follows size id hBlank) hCompile)
        fun _ _ _ hFields hFields' =>
          .of_follows (.pure (.signals hFields.1)) (.pure (.signals hFields'.1))
  | witness memoized type =>
      obtain rfl : memoized = false := h
      refine EndTogether.bind (.of_follows (buildType_follows type) (buildType_follows type)) ?_
      rintro d _ _ rfl rfl
      have hBlank : Follows (SessionsReduce .hostData) (Value.Reduces .hostData)
          (Construction.witness d (pure (values position)))
          (Construction.witness d (pure (values position).blank)) :=
        Construction.witness_follows id d (.pure (Value.reduces_blank trivial _))
      have hCompile : Follows (SessionsReduce .assignment) (Value.Reduces .assignment)
          (Construction.witness d (pure (values position).blank))
          (Construction.witness d (supply.value position)) :=
        Construction.witness_compile_follows trivial d (Value.blank_blank _) _
      exact EndTogether.bind (.of_follows hBlank hCompile) fun _ _ _ hValue hValue' =>
        .of_follows (.pure (.value hValue)) (.pure (.value hValue'))

/-- A compile pass performs a direct body as a prove pass does whose witnesses have nulls in place
of host data, if the body can be proved at all. -/
theorem Body.perform_together {body : Body} (h : body.Direct) (position : Nat) :
    EndTogether (SessionsReduce .hostData) (SessionsReduce .assignment) Unrelated Unrelated
      (body.perform (.ofValues inputs values) position)
      (body.perform (.blank inputs values) position) (body.perform supply position) := by
  induction body generalizing position with
  | nil => exact .of_follows (.pure trivial) (.pure trivial)
  | cons step rest ih =>
      obtain ⟨name?, instruction⟩ := step
      obtain ⟨hStep, hRest⟩ := List.forall_mem_cons.1 h
      exact (Instruction.run_together hStep position).bind fun _ _ _ hOutcome hOutcome' =>
        (EndTogether.of_follows (save_follows name? hOutcome) (save_follows name? hOutcome')).bind
          fun _ _ _ _ _ => ih hRest (position + 1)

/-! ## Passes -/

/-- What a pass comes to once its body has succeeded. -/
def conclude (run : Run) : Mode → Except Error ConstraintSystem
  | .compile => .ok run.constraintSystem
  | .prove => run.verify.map fun _ => run.constraintSystem

section

variable {body : Body} {mode : Mode} {s after : Session Workspace} {run : Run} {outer : List Run}

/-- A pass of which the body succeeds measures its run, and a prove pass verifies it. -/
theorem Body.pass_of_perform
    (h : body.perform supply 0 (s.opened (.start mode)) = (.ok (), after))
    (hRuns : after.runs = run :: outer) : (body.pass mode supply s).1 = conclude run mode := by
  have hAfter : after = Session.opened { after with runs := outer } run := by
    unfold Session.opened
    rw [← hRuns]
  rw [hAfter] at h
  have hRun : Construction.inRun mode (body.perform supply 0) s = (.ok ((), run), _) :=
    Construction.inRun_eq h
  cases mode with
  | compile =>
      show ((Construction.inRun .compile (body.perform supply 0) >>= _) s).1 = _
      rw [Construction.bind_ok hRun]
      rfl
  | prove =>
      show ((Construction.prove (body.perform supply 0) >>= _) s).1 = _
      cases hVerify : run.verify with
      | error e =>
          have hProve : Construction.prove (body.perform supply 0) s = (.error e, _) :=
            (Construction.bind_ok hRun).trans (Construction.bind_error
              (Construction.lift_error hVerify _))
          rw [Construction.bind_error hProve, conclude, hVerify]
          rfl
      | ok =>
          have hProve : Construction.prove (body.perform supply 0) s =
              (.ok ((), run.constraintSystem), _) :=
            (Construction.bind_ok hRun).trans (Construction.bind_ok
              (Construction.lift_ok hVerify _))
          rw [Construction.bind_ok hProve, conclude, hVerify]
          rfl

/-- A pass fails as its body does. -/
theorem Body.pass_error {e : Error}
    (h : (body.perform supply 0 (s.opened (.start mode))).1 = .error e) :
    (body.pass mode supply s).1 = .error e := by
  rcases hBody : body.perform supply 0 (s.opened (.start mode)) with ⟨result, after⟩
  rw [hBody] at h
  subst h
  obtain ⟨_, hRun⟩ := Construction.inRun_error hBody
  cases mode with
  | compile =>
      show ((Construction.inRun .compile (body.perform supply 0) >>= _) s).1 = _
      rw [Construction.bind_error hRun]
  | prove =>
      have hProve : Construction.prove (body.perform supply 0) s = (.error e, _) :=
        Construction.bind_error hRun
      show ((Construction.prove (body.perform supply 0) >>= _) s).1 = _
      rw [Construction.bind_error hProve]

end

/-- A compile pass over a direct body that was proved, and the prove pass with nulls in place of
host data: both record the circuit that was recorded, or both are refused. -/
theorem Body.ends_together {body : Body} (hDirect : body.Direct) {s t : Session Workspace}
    {cs : ConstraintSystem} (h : (body.pass .prove (.ofValues inputs values) s).1 = .ok cs)
    (hRegistry : t.registry = s.registry) (hValues : t.host.values = s.host.values)
    (hTypes : t.host.types = s.host.types) :
    ((body.pass .compile supply t).1 = .ok cs ∧
        (body.pass .prove (.blank inputs values) s).1 = .ok cs) ∨
      ∃ name, (body.pass .compile supply t).1 = .error (.auxiliaryDiffers name) ∧
        (body.pass .prove (.blank inputs values) s).1 = .error (.auxiliaryDiffers name) := by
  obtain ⟨after, hBody, -⟩ := Body.pass_eq_ok (Prod.ext h rfl)
  have hBlank : SessionsReduce .hostData (s.opened (.start .prove)) (s.opened (.start .prove)) :=
    ⟨.same id rfl, rfl, Value.MembersReduce.refl trivial _, rfl⟩
  have hStart : (Run.start .prove).Alike (.start .compile) := ⟨rfl, rfl, rfl⟩
  have hCompile : SessionsReduce .assignment (s.opened (.start .prove))
      (t.opened (.start .compile)) :=
    { runs := .erased trivial (.intro hStart s.runs t.runs) rfl rfl
      registry_eq := hRegistry.symm
      values := hValues ▸ Value.MembersReduce.refl trivial _
      types_eq := hTypes.symm }
  rcases body.perform_together hDirect 0 _ _ _ hBlank hCompile () after hBody with
    ⟨_, _, after', after'', hBody', hBody'', -, -, hState, hState'⟩ | ⟨name, hError, hError'⟩
  · obtain ⟨run, run', hAlike, outer, outer', hRuns', hRuns''⟩ :=
      (hState'.runs.erased_mode trivial).1.exists_eq
    -- the two prove passes leave the same run, so the verification of one is that of the other
    have hRuns : after.runs = run :: outer := (hState.runs.eq id).symm.trans hRuns'
    have hProved : conclude run .prove = .ok cs :=
      (Body.pass_of_perform hBody hRuns).symm.trans h
    obtain ⟨_, -, hMeasured⟩ := map_eq_ok.1 hProved
    refine .inl ⟨?_, (Body.pass_of_perform hBody' hRuns').trans hProved⟩
    rw [Body.pass_of_perform hBody'' hRuns'', conclude, ← hAlike.constraintSystem_eq, hMeasured]
  · exact .inr ⟨name, Body.pass_error hError', Body.pass_error hError⟩

/--
Let a prove pass over a direct body have succeeded. A compile pass over the body ends as the prove
pass whose witnesses have nulls in place of host data: with the circuit that was recorded, or
refused because candidates of a selection carry different auxiliary data. It succeeds if the
witnesses have no host data.
-/
theorem Body.compile_eq_blank {body : Body} (hDirect : body.Direct) {s t : Session Workspace}
    {cs : ConstraintSystem} (h : (body.pass .prove (.ofValues inputs values) s).1 = .ok cs)
    (hRegistry : t.registry = s.registry) (hValues : t.host.values = s.host.values)
    (hTypes : t.host.types = s.host.types) (supply : Supply) :
    (body.pass .compile supply t).1 = (body.pass .prove (.blank inputs values) s).1 ∧
      ((body.pass .compile supply t).1 = .ok cs ∨
        ∃ name, (body.pass .compile supply t).1 = .error (.auxiliaryDiffers name)) ∧
      ((∀ position, (values position).blank = values position) →
        (body.pass .compile supply t).1 = .ok cs) := by
  have hBlank (hNone : ∀ position, (values position).blank = values position) :
      Supply.blank inputs values = .ofValues inputs values := by
    unfold Supply.blank
    rw [funext hNone]
  rcases Body.ends_together hDirect h hRegistry hValues hTypes with
    ⟨hCompiled, hBlanked⟩ | ⟨name, hRefused, hBlanked⟩
  · exact ⟨hCompiled.trans hBlanked.symm, .inl hCompiled, fun _ => hCompiled⟩
  · refine ⟨hRefused.trans hBlanked.symm, .inr ⟨name, hRefused⟩, fun hNone => ?_⟩
    rw [hBlank hNone, h] at hBlanked
    cases hBlanked

/-! ## A selection of host data -/

/-- A witness that is host data, and a selection of it or of something else by a private input. -/
def Body.selectedHost (other : ValueExpr) : Body :=
  [(some "host", .witness false (.leaf .opaqueHost)),
    (some "bits", .introduce 1),
    (none, .operation (.typed (.leaf .opaqueHost)
      (.select (.bitOf (.item (.saved "bits") 0)) (.saved "host") other)) trivial)]

theorem Body.direct_selectedHost (other : ValueExpr) : (selectedHost other).Direct := by
  unfold Body.Direct selectedHost
  simp only [List.forall_mem_cons, List.not_mem_nil, false_implies, implies_true, and_true]
  exact ⟨rfl, trivial, trivial⟩

private def nothingOpen : Session Workspace := Session.start [] Workspace.empty

private def suppliedHost : Supply := .ofValues (fun _ => [1]) fun _ => .opaqueValue "a"

/-- Where both candidates are the witness, the compile pass records the same circuit. -/
theorem Body.compile_eq_blank_selectedHost :
    (selectedHost (.saved "host")).Direct ∧
    ((selectedHost (.saved "host")).pass .prove suppliedHost nothingOpen).1 = .ok ⟨1, 1, []⟩ ∧
    ((selectedHost (.saved "host")).pass .compile suppliedHost nothingOpen).1 =
      ((selectedHost (.saved "host")).pass .prove
        (.blank (fun _ => [1]) fun _ => .opaqueValue "a") nothingOpen).1 ∧
    ((selectedHost (.saved "host")).pass .compile suppliedHost nothingOpen).1 =
      .ok ⟨1, 1, []⟩ := by
  have hDirect := direct_selectedHost (.saved "host")
  have hProved :
      ((selectedHost (.saved "host")).pass .prove suppliedHost nothingOpen).1 =
        .ok ⟨1, 1, []⟩ := rfl
  have hCompiled := Body.compile_eq_blank hDirect hProved rfl rfl rfl suppliedHost
  exact ⟨hDirect, hProved, hCompiled.1, rfl⟩

/-- Where the other candidate is the same host value, but written in the body, the prove pass
succeeds and the compile pass is refused. -/
theorem Body.proved_not_compiled_selectedHost :
    ((selectedHost (.opaqueValue "a")).pass .prove suppliedHost nothingOpen).1 =
        .ok ⟨1, 1, []⟩ ∧
      ((selectedHost (.opaqueValue "a")).pass .compile suppliedHost nothingOpen).1 =
        .error (.auxiliaryDiffers "Opaque") := ⟨rfl, rfl⟩

end TypedCircuit.Script
