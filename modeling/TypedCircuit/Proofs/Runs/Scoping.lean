import TypedCircuit.Proofs.Runs.Decomposition
import TypedCircuit.Proofs.Runs.Passes

/-!
# Scopes of variables

A gate names variables by their indices alone. The circuit of a pass is *scoped* if every variable
that a gate names is a variable of this pass, and was there before the one that the gate derives.

A signal does not say which run it comes from, and an operation does not ask. If a body uses a
variable of a run around it, or of a run that has ended, the gate names whatever variable of the
innermost run has the same index, or none. So a circuit is scoped exactly if every operand of an
operation that recorded something has an index in the range of the run: below the variables that
there are when a result is derived, and below the variables that there are in the end when
something is asserted. A body that uses the variables of its own run only is an instance.

## Main results

* `Elementary.scoped_run_iff` — the gates that a body records.
* `Program.scoped_iff` — when the circuit of a pass is scoped.
* `Program.scoped_of_keepsTo` — it is if the body uses the variables of its own run only.
-/

namespace TypedCircuit

open Construction (Leaves prove)

variable {host α β : Type} {total : Nat}

/-! ## Scoped gates -/

/-- The wires that a gate needs. -/
def Gate.inputs : Gate → List Wire
  | .derived _ left right _ | .assertEqual left right => [left, right]
  | .boolean wire | .range wire _ => [wire]

/-- Whether a gate needs variables below a number only, and derives its output from variables
before it. -/
def Gate.Scoped (total : Nat) (gate : Gate) : Prop :=
  (∀ wire ∈ gate.inputs, wire.Below total) ∧ gate.Ordered

/-- Whether the gates of a circuit need variables of the circuit only, and derive their outputs
from variables before. -/
def ConstraintSystem.Scoped (cs : ConstraintSystem) : Prop :=
  ∀ gate ∈ cs.gates, gate.Scoped cs.variableCount

theorem Wire.Below.mono {size : Nat} {wire : Wire} (h : wire.Below size) (hLe : size ≤ total) :
    wire.Below total := by
  rcases wire with x | i
  · trivial
  · exact Nat.lt_of_lt_of_le h hLe

theorem Gate.Scoped.mono {size : Nat} {gate : Gate} (h : gate.Scoped size) (hLe : size ≤ total) :
    gate.Scoped total :=
  ⟨fun wire hWire => (h.1 wire hWire).mono hLe, h.2⟩

theorem Gate.scoped_derived (operation : Gate.Operation) {left right : Wire} {output : Nat}
    (h : output ≤ total) :
    (Gate.derived operation left right output).Scoped total ↔
      left.Below output ∧ right.Below output := by
  refine ⟨fun hScoped => hScoped.2, fun hOrdered => ⟨?_, hOrdered⟩⟩
  exact List.forall_mem_cons.2
    ⟨hOrdered.1.mono h, List.forall_mem_singleton.2 (hOrdered.2.mono h)⟩

theorem Gate.scoped_assertEqual {left right : Wire} :
    (Gate.assertEqual left right).Scoped total ↔ left.Below total ∧ right.Below total :=
  (and_iff_left trivial).trans
    (List.forall_mem_cons.trans (and_congr_right fun _ => List.forall_mem_singleton))

theorem Rule.scoped_gates {rule : Rule} (hRule : rule ≠ .free) {wire : Wire} :
    (∀ gate ∈ rule.gates wire, gate.Scoped total) ↔ wire.Below total := by
  cases rule with
  | free => exact absurd rfl hRule
  | boolean | range =>
      exact List.forall_mem_singleton.trans
        ((and_iff_left trivial).trans List.forall_mem_singleton)

/-! ## Operands in range -/

/-- Whether the operands of an operation are in range, in a run with a number of variables now and
one in the end. -/
def Primitive.InRange (total size : Nat) : Primitive β → Prop
  | combine _ a b => a.wire.Below size ∧ b.wire.Below size
  | assertEqual a b => a.wire.Below total ∧ b.wire.Below total
  | assertRule _ a => a.wire.Below total
  | allocate _ => True

/-- An operation that records something leaves scoped gates exactly if its operands are in range. -/
theorem Primitive.scoped_advance {op : Primitive β} (h : op.Records) {run : Run}
    (hSize : run.values.size ≤ total) :
    (∀ gate ∈ (op.advance run).gates, gate.Scoped total) ↔
      (∀ gate ∈ run.gates, gate.Scoped total) ∧ op.InRange total run.values.size := by
  have hPush (gate : Gate) : (∀ other ∈ run.gates.push gate, other.Scoped total) ↔
      (∀ other ∈ run.gates, other.Scoped total) ∧ gate.Scoped total := by
    simp only [Array.mem_push, or_imp, forall_and, forall_eq]
  cases op with
  | combine operation a b =>
      exact (hPush _).trans (and_congr_right fun _ => Gate.scoped_derived operation hSize)
  | assertEqual a b =>
      exact (hPush _).trans (and_congr_right fun _ => Gate.scoped_assertEqual)
  | assertRule rule a =>
      show (∀ gate ∈ run.gates ++ (rule.gates a.wire).toArray, gate.Scoped total) ↔ _
      simp only [Array.mem_append, List.mem_toArray, or_imp, forall_and]
      exact and_congr_right fun _ => Rule.scoped_gates h.2.1
  | allocate values =>
      show (∀ gate ∈ (run.introduce values).2.gates, gate.Scoped total) ↔ _
      rw [Run.introduce_eq]
      exact (and_iff_left trivial).symm

/-- How many variables the innermost run has. -/
def Session.variableCount (s : Session host) : Nat :=
  match s.runs with
  | [] => 0
  | run :: _ => run.values.size

/-- Whether the operands of all operations that record something in the innermost run are in range,
where the run has a number of variables in the end. -/
def Elementary.InRange (total : Nat) : {α : Type} → Elementary host α → Session host → Prop
  | _, returns _, _ => True
  | _, does x _ next, s => (next (x s).1).InRange total (x s).2
  | _, performs op next, s =>
    (op.Records → op.InRange total s.variableCount) ∧
      (next ((liftM op.perform : Construction host _) s).1).InRange total
        ((liftM op.perform : Construction host _) s).2
  | _, opens mode body next, s =>
    (next (Construction.inRun mode body.run s).1).InRange total
      (Construction.inRun mode body.run s).2

/-- A body leaves scoped gates exactly if the gates were scoped before and the operands are in
range. -/
theorem Elementary.scoped_run_iff {e : Elementary host α} {s : Session host} {run run' : Run}
    {outer : List Run} (h : s.runs = run :: outer) (hEnd : (e.run s).2.runs = run' :: outer)
    (hTotal : run'.values.size ≤ total) :
    (∀ gate ∈ run'.gates, gate.Scoped total) ↔
      (∀ gate ∈ run.gates, gate.Scoped total) ∧ e.InRange total s := by
  induction e generalizing s run with
  | returns result =>
      have hSame : s.runs = run' :: outer := by cases result <;> exact hEnd
      obtain ⟨rfl, -⟩ := List.cons.inj (h.symm.trans hSame)
      exact (and_iff_left trivial).symm
  | does x hx next ih => exact ih _ ((hx s).trans h) hEnd
  | performs op next ih =>
      have hSize : s.variableCount = run.values.size := by
        unfold Session.variableCount
        rw [h]
      by_cases hRecords : op.Records
      · have hRuns : (op.perform s.runs).2 = op.advance run :: outer := by
          rw [h, Primitive.runs_of_records hRecords]
        have hRest :=
          (next (op.perform s.runs).1).runs_grow { s with runs := (op.perform s.runs).2 }
        rw [show Session.runs _ = op.advance run :: outer from hRuns] at hRest
        obtain ⟨last, hLast, hGrown⟩ := hRest.exists_cons
        obtain ⟨rfl, -⟩ := List.cons.inj (hLast.symm.trans hEnd)
        have hLe := Nat.le_trans ((op.grows_advance run).trans hGrown).size_le hTotal
        refine (ih _ hRuns hEnd).trans ?_
        rw [Primitive.scoped_advance hRecords hLe, InRange, hSize, and_assoc]
        exact and_congr_right fun _ => and_congr_left fun _ => (imp_iff_right hRecords).symm
      · have hRuns : (op.perform s.runs).2 = run :: outer := by
          rw [Primitive.runs_of_not_records hRecords, h]
        refine (ih _ hRuns hEnd).trans (and_congr_right fun _ => ?_)
        exact (and_iff_right fun hNot => absurd hNot hRecords).symm
  | opens mode body next _ ih =>
      exact ih _ ((Elementary.runs_inRun (body.runs_grow _)).trans h) hEnd

/-! ## Signals of the run -/

/-- A step of a run with signals of the run keeps the gates of the run scoped. -/
theorem Run.Step.scoped {run run' : Run} {inputs : List Nat} (hStep : run.Step inputs run')
    (h : ∀ gate ∈ run.gates, gate.Scoped run.values.size) :
    ∀ gate ∈ run'.gates, gate.Scoped run'.values.size := by
  have hPush {gates : Array Gate} {total : Nat} (hGates : ∀ gate ∈ gates, gate.Scoped total)
      {gate : Gate} (hGate : gate.Scoped total) :
      ∀ other ∈ gates.push gate, other.Scoped total := by
    intro other hOther
    rcases Array.mem_push.1 hOther with hOther | rfl
    · exact hGates other hOther
    · exact hGate
  cases hStep with
  | introduce values =>
      rw [Run.introduce_eq]
      intro gate hGate
      refine (h gate hGate).mono ?_
      rw [Array.size_append]
      exact Nat.le_add_right _ _
  | derive operation ha hb =>
      show ∀ gate ∈ run.gates.push _, gate.Scoped (run.values.push _).size
      rw [Array.size_push]
      refine hPush (fun gate hGate => (h gate hGate).mono (Nat.le_succ _)) ?_
      exact (Gate.scoped_derived operation (Nat.le_succ _)).2 ⟨ha.below, hb.below⟩
  | assertEqual ha hb => exact hPush h (Gate.scoped_assertEqual.2 ⟨ha.below, hb.below⟩)
  | @assertRule rule s hs hPasses gate hGate =>
      have hRule : rule ≠ .free := by
        rintro rfl
        cases hGate
      exact hPush h ((Rule.scoped_gates hRule).2 hs.below gate hGate)

/-! ## Passes -/

/-- The circuit of a pass over a body in elementary operations is scoped exactly if the operands are
in range. -/
theorem Elementary.leaves_scoped_iff {e : Elementary host α} {mode : Mode} {s : Session host}
    {cs : ConstraintSystem} (h : Leaves mode e.run s cs) :
    cs.Scoped ↔ e.InRange cs.variableCount (s.opened (.start mode)) := by
  obtain ⟨run, hRuns, -⟩ := (e.runs_grow (s.opened (.start mode))).exists_cons
  obtain rfl := h.eq hRuns
  have hGates : (∀ gate ∈ run.gates, gate.Scoped run.values.size) ↔ _ :=
    scoped_run_iff rfl hRuns (Nat.le_refl _)
  refine Iff.trans ?_ (hGates.trans (and_iff_right nofun))
  exact forall_congr' fun gate => imp_congr_left Array.mem_toList_iff

/-- A pass over a body that uses the variables of its own run only leaves a scoped circuit. -/
theorem Program.scoped_of_keepsTo {p : Program host α} {mode : Mode} {s : Session host}
    {cs : ConstraintSystem} (h : p.KeepsTo s.runs.length (s.opened (.start mode)))
    (hLeaves : Leaves mode p.run s cs) : cs.Scoped := by
  obtain ⟨run, inputs, hRuns, hReaches⟩ := p.run_opened h
  obtain rfl := hLeaves.eq hRuns
  have hScoped : ∀ gate ∈ run.gates, gate.Scoped run.values.size :=
    hReaches.invariant (fun _ hGates hStep => hStep.scoped hGates) nofun
  exact fun gate hGate => hScoped gate (Array.mem_toList_iff.1 hGate)

/--
Every body can be written out in elementary operations, and however it is written out, the circuit
that a pass over it leaves behind is scoped exactly if the operands of all operations that recorded
something in the run of the pass are in range.
-/
theorem Program.scoped_iff (p : Program host α) (mode : Mode) (s : Session host) :
    (∃ e : Elementary host α, e.run = p.run) ∧
      ∀ e : Elementary host α, e.run = p.run → ∀ cs, Leaves mode p.run s cs →
        (cs.Scoped ↔ e.InRange cs.variableCount (s.opened (.start mode))) := by
  refine ⟨p.exists_elementary, fun e hRun cs hLeaves => ?_⟩
  rw [← hRun] at hLeaves
  exact Elementary.leaves_scoped_iff hLeaves

/-! ## A variable of another run -/

private def outside : Session Unit := Session.start [] ()

/-- Introduces a private input, squares it and asserts that the square is boolean. -/
private def squaring : Program Unit Unit :=
  .encloses (.introduce 1) (.returns (.ok ([1], ()))) (Program.onSuccess fun inputs =>
    match inputs.1 with
    | [x] => .calls (.combine .mul x x) (Program.onSuccess fun y =>
        .calls (.assertBoolean y) .returns)
    | _ => .returns (.error .valueUnavailable))

/-- Adds one to a variable and asserts that it is boolean. -/
private def incrementing (x : Signal) : Program Unit Unit :=
  .calls (.combine .add (.constant 1) x) fun _ => .calls (.assertBoolean x) .returns

/-- The operations of `incrementing`. -/
private def increments (x : Signal) : Elementary Unit Unit :=
  .performs (.combine .add (.constant 1) x) fun _ => .performs (.assertRule .boolean x) .returns

/-- The circuit of a square is scoped. If the first variable of another run is incremented, the sum
is the first variable of this run. The sum is therefore derived from itself, and it is the sum of
which is asserted that it is boolean. -/
theorem scoped_iff_incremented :
    (∃ (e : Elementary Unit Unit) (cs : ConstraintSystem), e.run = squaring.run ∧
      Leaves .compile squaring.run outside cs ∧ cs.Scoped ∧
      e.InRange cs.variableCount (outside.opened (.start .compile))) ∧
    ∃ (x : Signal) (cs : ConstraintSystem), (increments x).run = (incrementing x).run ∧
      Leaves .compile (incrementing x).run outside cs ∧
      cs.gates = [.derived .add (.constant 1) (.variable 0) 0, .boolean (.variable 0)] ∧
      ¬ (increments x).InRange cs.variableCount (outside.opened (.start .compile)) := by
  constructor
  · obtain ⟨⟨e, hRun⟩, hScoped⟩ := squaring.scoped_iff .compile outside
    let cs : ConstraintSystem :=
      ⟨2, 1, [.derived .mul (.variable 0) (.variable 0) 1, .boolean (.variable 1)]⟩
    have hAll : cs.Scoped := by
      refine List.forall_mem_cons.2 ⟨?_, List.forall_mem_singleton.2 ?_⟩
      · exact (Gate.scoped_derived .mul (Nat.le_succ 1)).2 ⟨Nat.one_pos, Nat.one_pos⟩
      · exact ⟨List.forall_mem_singleton.2 Nat.one_lt_two, trivial⟩
    exact ⟨e, cs, hRun, rfl, hAll, (hScoped e hRun cs rfl).1 hAll⟩
  · let cs : ConstraintSystem :=
      ⟨1, 0, [.derived .add (.constant 1) (.variable 0) 0, .boolean (.variable 0)]⟩
    let x : Signal := .variable ⟨0, none⟩
    have hScoped := ((incrementing x).scoped_iff .compile outside).2 (increments x) rfl cs rfl
    refine ⟨x, cs, rfl, rfl, rfl, fun hInRange => ?_⟩
    have hAll : cs.Scoped := hScoped.2 hInRange
    have hBelow : 0 < 0 := (hAll _ List.mem_cons_self).2.2
    exact Nat.lt_irrefl 0 hBelow

/-- Compiles, in a run with two private inputs, a body that asserts that the second of them is
boolean. -/
private def borrowing : Program Unit ConstraintSystem :=
  .encloses (.introduce 2) (.returns (.ok ([0, 1], ()))) (Program.onSuccess fun inputs =>
    match inputs.1 with
    | [_, y] => .encloses .compile (.calls (.assertBoolean y) .returns) .returns
    | _ => .returns (.error .valueUnavailable))

/-- A nested circuit without any variable needs the second variable of the run around it, and the
pass around it is accepted. -/
theorem not_scoped_borrowed : ∃ cs outer, (prove borrowing.run outside).1 = .ok (cs, outer) ∧
    cs.variableCount = 0 ∧ cs.gates = [.boolean (.variable 1)] ∧ ¬ cs.Scoped := by
  refine ⟨⟨0, 0, [.boolean (.variable 1)]⟩, ⟨2, 2, []⟩, rfl, rfl, rfl, fun hAll => ?_⟩
  have hBelow : 1 < 0 := (hAll _ List.mem_cons_self).1 _ List.mem_cons_self
  exact Nat.not_lt_zero 1 hBelow

end TypedCircuit
