import TypedCircuit.Proofs.Runs.Decomposition

/-!
# Computations on the host

Some bodies are there for the host only. The computation of private inputs, of a witness or of a
memoized witness finds out values, and a body can ask to be executed where there are values. A
compile pass skips them all. A prove pass executes them, with its own run on top of the open runs,
and that run takes whatever they do with signals for a part of the circuit.

So a computation leaves the run as it is exactly if it is *silent*: each of its operations in that
run is folded, refused or empty. It may use constants, look at the values of variables, and open
and close runs of its own. If it combines a variable with anything, or asserts something of a
variable, or introduces private inputs, the circuit of the prove pass has more in it than the
circuit of the compile pass.

## Main results

* `Elementary.runs_run_iff` — a body leaves the open runs as they are if and only if it is silent.
* `Program.computation_silent_iff` — so does every computation on the host in a prove pass.
-/

namespace TypedCircuit

variable {host α β γ : Type}

/-! ## Silent bodies -/

/-- Whether nothing that a body does in the innermost run records anything. -/
def Elementary.Silent : {α : Type} → Elementary host α → Session host → Prop
  | _, returns _, _ => True
  | _, does x _ next, s => (next (x s).1).Silent (x s).2
  | _, performs op next, s =>
    ¬ op.Records ∧ (next ((liftM op.perform : Construction host _) s).1).Silent
      ((liftM op.perform : Construction host _) s).2
  | _, opens mode body next, s =>
    (next (Construction.inRun mode body.run s).1).Silent (Construction.inRun mode body.run s).2

/-- What is recorded in the innermost run, if a run is open. -/
def Session.circuit? (s : Session host) : Option ConstraintSystem :=
  s.runs.head?.map Run.constraintSystem

theorem Run.extent_eq_of_constraintSystem_eq {run run' : Run}
    (h : run'.constraintSystem = run.constraintSystem) : run'.extent = run.extent := by
  have hVariables : run'.values.size = run.values.size :=
    congrArg ConstraintSystem.variableCount h
  have hGates : run'.gates.toList = run.gates.toList := congrArg ConstraintSystem.gates h
  unfold extent
  rw [hVariables, Array.ext' hGates]

/-- Where a run is open, a silent body leaves the open runs as they are, and any other body leaves
more in the innermost one than there was. -/
theorem Elementary.silent_or_extent_lt (e : Elementary host α) {s : Session host} {run : Run}
    {outer : List Run} (h : s.runs = run :: outer) :
    (e.Silent s ∧ (e.run s).2.runs = s.runs) ∨
      (¬ e.Silent s ∧ ∃ run', (e.run s).2.runs = run' :: outer ∧ run.extent < run'.extent) := by
  induction e generalizing s with
  | returns result =>
      have hSame : ((returns result : Elementary host _).run s).2 = s := by cases result <;> rfl
      exact .inl ⟨trivial, congrArg Session.runs hSame⟩
  | does x hx next ih =>
      have hRest := ih (x s).1 ((hx s).trans h)
      rwa [hx s] at hRest
  | performs op next ih =>
      let after : Session host := ((liftM op.perform : Construction host _) s).2
      have hAfter : after.runs = (op.perform s.runs).2 := rfl
      by_cases hRecords : op.Records
      · have hAdvanced : after.runs = op.advance run :: outer := by
          rw [hAfter, h, Primitive.runs_of_records hRecords]
        -- Whatever comes after, the run does not shrink again.
        have hRest := (next (op.perform s.runs).1).runs_grow after
        rw [hAdvanced] at hRest
        obtain ⟨run', hLast, hGrown⟩ := hRest.exists_cons
        have hMore : run.extent < (op.advance run).extent :=
          Primitive.extent_lt_advance hRecords run
        exact .inr ⟨fun hSilent => hSilent.1 hRecords, run', hLast,
          Nat.lt_of_lt_of_le hMore hGrown.extent_le⟩
      · have hKept : after.runs = s.runs := by
          rw [hAfter, Primitive.runs_of_not_records hRecords]
        rcases ih (op.perform s.runs).1 (hKept.trans h) with ⟨hSilent, hSame⟩ | ⟨hNot, hMore⟩
        · exact .inl ⟨⟨hRecords, hSilent⟩, hSame.trans hKept⟩
        · exact .inr ⟨fun hSilent => hNot hSilent.2, hMore⟩
  | opens mode body next _ ih =>
      have hKept : (Construction.inRun mode body.run s).2.runs = s.runs :=
        Elementary.runs_inRun (body.runs_grow _)
      have hRest := ih (Construction.inRun mode body.run s).1 (hKept.trans h)
      rwa [hKept] at hRest

/-- Where a run is open, exactly the silent bodies leave the open runs as they are. -/
theorem Elementary.runs_run_iff (e : Elementary host α) {s : Session host} {run : Run}
    {outer : List Run} (h : s.runs = run :: outer) : (e.run s).2.runs = s.runs ↔ e.Silent s := by
  rcases e.silent_or_extent_lt h with ⟨hSilent, hSame⟩ | ⟨hNot, run', hLast, hMore⟩
  · exact iff_of_true hSame hSilent
  · refine iff_of_false (fun hSame => ?_) hNot
    obtain ⟨rfl, -⟩ := List.cons.inj (hLast.symm.trans (hSame.trans h))
    exact Nat.lt_irrefl _ hMore

/-- Where a run is open, exactly the silent bodies leave its circuit as it is. -/
theorem Elementary.circuit_run_iff (e : Elementary host α) {s : Session host} {run : Run}
    {outer : List Run} (h : s.runs = run :: outer) :
    (e.run s).2.circuit? = s.circuit? ↔ e.Silent s := by
  rcases e.silent_or_extent_lt h with ⟨hSilent, hSame⟩ | ⟨hNot, run', hLast, hMore⟩
  · exact iff_of_true (congrArg (·.head?.map Run.constraintSystem) hSame) hSilent
  · refine iff_of_false (fun hSame => ?_) hNot
    unfold Session.circuit? at hSame
    rw [hLast, h] at hSame
    have hExtent := Run.extent_eq_of_constraintSystem_eq (Option.some.inj hSame)
    exact absurd hMore (Nat.not_lt.2 (Nat.le_of_eq hExtent))

/-! ## Computations -/

namespace Scope

/-- The operations whose body finds out values: computations of private inputs and of witnesses, and
whatever is executed where there are values. -/
def OnHost : Scope β γ → Prop
  | introduce _ | witness _ | memoizedWitness _ | whereValued => True
  | compile | prove | inContext _ => False

variable {scope : Scope β γ} {s t : Session host}

/-- A computation is executed in the runs that are open. -/
theorem OnHost.runs_eq (h : scope.OnHost) (hStart : scope.start? s = some t) :
    t.runs = s.runs := by
  cases scope with
  | introduce size => rw [Option.some.inj (Option.ite_none_left_eq_some.1 hStart).2]
  | witness d | whereValued =>
      rw [Option.some.inj (Option.ite_none_right_eq_some.1 hStart).2]
  | memoizedWitness d =>
      exact Session.reserved?_runs (Option.ite_none_right_eq_some.1 hStart).2
  | compile | prove | inContext => exact h.elim

/-- A compile pass skips computations. -/
theorem OnHost.start?_eq_none (h : scope.OnHost) (hMode : activeMode? s.runs = some .compile) :
    scope.start? s = none := by
  have hComputes (d : Descriptor) : ¬ s.computes d = true := by
    unfold Session.computes
    rw [hMode]
    exact Bool.false_ne_true
  cases scope with
  | introduce size => exact if_pos hMode
  | witness d | memoizedWitness d => exact if_neg (hComputes d)
  | whereValued =>
      have hValues : ¬ haveValues s.runs = true := by
        unfold haveValues
        rw [hMode]
        exact Bool.false_ne_true
      exact if_neg hValues
  | compile | prove | inContext => exact h.elim

end Scope

/--
Let a prove pass execute the computation of an operation. The computation can be written out in
elementary operations, and however it is written out, it leaves the open runs as they are if and
only if it is silent, and the circuit of the pass as it is if and only if it is silent. A compile
pass skips it.
-/
theorem Program.computation_silent_iff {scope : Scope β γ} (hHost : scope.OnHost)
    (p : Program host β) {s t : Session host} (hMode : activeMode? s.runs = some .prove)
    (hStart : scope.start? s = some t) :
    (∃ e : Elementary host β, e.run = p.run) ∧
      (∀ e : Elementary host β, e.run = p.run →
        ((p.run t).2.runs = s.runs ↔ e.Silent t) ∧
        ((p.run t).2.circuit? = s.circuit? ↔ e.Silent t)) ∧
      ∀ s' : Session host, activeMode? s'.runs = some .compile → scope.start? s' = none := by
  refine ⟨p.exists_elementary, fun e hRun => ?_, fun s' hCompile => hHost.start?_eq_none hCompile⟩
  have hRuns : t.runs = s.runs := hHost.runs_eq hStart
  have hCircuit : t.circuit? = s.circuit? := congrArg (·.head?.map Run.constraintSystem) hRuns
  cases hOpen : s.runs with
  | nil =>
      rw [hOpen] at hMode
      cases hMode
  | cons run outer =>
      have hInner : t.runs = run :: outer := hRuns.trans hOpen
      rw [← hRun, ← hOpen, ← hRuns, ← hCircuit]
      exact ⟨e.runs_run_iff hInner, e.circuit_run_iff hInner⟩

/-! ## A variable that is looked at, and one that is doubted -/

/-- A prove pass with one private input. -/
private def proving : Session Unit :=
  (Session.start [] ()).opened ((Run.start .prove).introduce [some 1]).2

/-- The private input. -/
private def given : Signal := .variable ⟨0, some 1⟩

/-- Finds out the value of the private input. -/
private def looking : Program Unit Unit :=
  .does (liftM given.value) (fun _ => rfl) fun _ => .returns (.ok ())

/-- The operations of `looking`, of which none is elementary. -/
private def looks : Elementary Unit Unit :=
  .does (liftM given.value) (fun _ => rfl) fun _ => .returns (.ok ())

/-- Asserts that the private input is boolean. -/
private def doubting : Program Unit Unit := .calls (.assertBoolean given) .returns

/-- The operation of `doubting`. -/
private def doubts : Elementary Unit Unit := .performs (.assertRule .boolean given) .returns

/-- A computation that looks at a variable is silent, and leaves the run as it is. One that asserts
something of the variable is not, and leaves another circuit. -/
theorem computation_silent_iff_looking :
    (Scope.whereValued.OnHost ∧ activeMode? proving.runs = some .prove ∧
      Scope.whereValued.start? proving = some proving) ∧
    (looks.run = looking.run ∧ looks.Silent proving ∧
      (looking.run proving).2.runs = proving.runs) ∧
    (doubts.run = doubting.run ∧ ¬ doubts.Silent proving ∧
      (doubting.run proving).2.circuit? ≠ proving.circuit?) := by
  have hHost : Scope.whereValued.OnHost := trivial
  have hSilent : looks.Silent proving := trivial
  have hRecords : (Primitive.assertRule .boolean given).Records :=
    ⟨(Rule.passes_iff rfl).2 rfl, nofun, nofun⟩
  have hNot : ¬ doubts.Silent proving := fun h => h.1 hRecords
  have hLooking := (Program.computation_silent_iff hHost looking (s := proving) rfl rfl).2.1
  have hDoubting := (Program.computation_silent_iff hHost doubting (s := proving) rfl rfl).2.1
  exact ⟨⟨hHost, rfl, rfl⟩, ⟨rfl, hSilent, (hLooking looks rfl).1.2 hSilent⟩,
    ⟨rfl, hNot, mt (hDoubting doubts rfl).2.1 hNot⟩⟩

/-- Introduces a private input, and asserts that it is boolean where it has a value. -/
private def cautious : Program Unit Unit :=
  .encloses (.introduce 1) (.returns (.ok ([1], ()))) (Program.onSuccess fun inputs =>
    match inputs.1 with
    | [x] => .encloses .whereValued (.calls (.assertBoolean x) .returns) .returns
    | _ => .returns (.error .valueUnavailable))

open Construction (compile prove) in
/-- The circuit of a prove pass has a gate that the circuit of the compile pass does not have, since
it is asserted where the private input has a value only. -/
theorem prove_ne_compile_cautious : ∃ proved compiled,
    (prove cautious.run (Session.start [] ())).1 = .ok ((), proved) ∧
      (compile cautious.run (Session.start [] ())).1 = .ok compiled ∧
      proved.gates = [.boolean (.variable 0)] ∧ compiled.gates = [] :=
  ⟨⟨1, 1, [.boolean (.variable 0)]⟩, ⟨1, 1, []⟩, rfl, rfl, rfl, rfl⟩

end TypedCircuit
