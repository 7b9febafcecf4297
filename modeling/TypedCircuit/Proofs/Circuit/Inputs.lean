import TypedCircuit.Proofs.Codec.Law
import TypedCircuit.Witness

/-!
# Rules of private inputs

A witness becomes variables, and the rules of its type are asserted of them. An assertion does
two things: where a value is known it is looked at, and where a signal is a variable a gate is
recorded in the active run. Whether the first succeeds is said by `Rule.Passes`, and what the
second records by `assertedGates`; the one depends on values only and the other on wires only.

## Main results

* `assertRules_eq`, `assertRules_fails` — what asserting rules does to the open runs.
* `Run.introduce_eq` — private inputs are the next variables of a run.
-/

namespace TypedCircuit

/-! ## Asserting a rule -/

namespace Rule

/-- Whether an element is as the rule says. -/
def holds (x : Element) : Rule → Bool
  | .free => true
  | .boolean => x.isBoolean
  | .range bits => x.fits bits

/-- The gates that say of a wire what the rule says. -/
def gates (wire : Wire) : Rule → List Gate
  | .free => []
  | .boolean => [.boolean wire]
  | .range bits => [.range wire bits]

/-- Whether the value of a signal is as the rule says, if it is known. -/
def Passes (rule : Rule) (s : Signal) : Prop := ∀ x, s.known? = some x → rule.holds x = true

theorem passes_of_unknown {s : Signal} (h : s.known? = none) (rule : Rule) : rule.Passes s := by
  intro x hx
  rw [h] at hx
  cases hx

theorem passes_iff {s : Signal} {x : Element} (h : s.known? = some x) {rule : Rule} :
    rule.Passes s ↔ rule.holds x = true := by
  constructor
  · intro hPasses; exact hPasses x h
  · intro hHolds y hy
    rw [h] at hy
    cases hy
    exact hHolds

/-- The gates of a rule hold where the rule does. -/
theorem gates_hold {values : Nat → Option Element} {wire : Wire} {x : Element}
    (h : wire.value? values = some x) (rule : Rule) :
    (∀ gate ∈ rule.gates wire, gate.holds? values = some true) ↔ rule.holds x = true := by
  cases rule with
  | free => simp [gates, holds]
  | boolean => simp [gates, holds, Gate.holds?, h]
  | range bits => simp [gates, holds, Gate.holds?, h]

end Rule

/-- The runs after gates are recorded in the active one. -/
def recordAll : List Run → List Gate → List Run
  | [], _ => []
  | run :: outer, gates => { run with gates := run.gates ++ gates.toArray } :: outer

theorem recordAll_nil (runs : List Run) : recordAll runs [] = runs := by
  cases runs with
  | nil => rfl
  | cons run outer => simp [recordAll]

theorem recordAll_append (runs : List Run) (gates₁ gates₂ : List Gate) :
    recordAll (recordAll runs gates₁) gates₂ = recordAll runs (gates₁ ++ gates₂) := by
  cases runs with
  | nil => rfl
  | cons run outer => simp [recordAll]

/-- The gates that asserting a rule of a signal records. -/
def Rule.assertedGates (rule : Rule) (s : Signal) : List Gate :=
  if s.isConstant then [] else rule.gates s.wire

/-- Both assertions of a single signal: a test of the value, if that is known, and a gate. -/
def Signal.assertKnown (s : Signal) (test : Element → Bool) (failure : Element → Error)
    (gate : Wire → Gate) : Circuit Unit := do
  match s.known? with
  | some x => if !test x then throw (failure x)
  | none => pure ()
  if !s.isConstant then constrain (gate s.wire)

theorem Signal.assertKnown_eq {s : Signal} {test : Element → Bool}
    (h : ∀ x, s.known? = some x → test x = true) (failure : Element → Error)
    (gate : Wire → Gate) (runs : List Run) :
    s.assertKnown test failure gate runs =
      (.ok (), recordAll runs (if s.isConstant then [] else [gate s.wire])) := by
  unfold assertKnown
  rcases s with x | ⟨index, _ | x⟩
  · have hx := h x rfl
    simp only [known?, hx]
    exact congrArg (Prod.mk _) (recordAll_nil runs).symm
  · cases runs <;> rfl
  · have hx := h x rfl
    simp only [known?, hx]
    cases runs <;> rfl

theorem Signal.assertKnown_fails {s : Signal} {test : Element → Bool} {x : Element}
    (hKnown : s.known? = some x) (hTest : test x = false) (failure : Element → Error)
    (gate : Wire → Gate) (runs : List Run) :
    s.assertKnown test failure gate runs = (.error (failure x), runs) := by
  unfold assertKnown
  simp only [hKnown, hTest]
  rfl

/-- A rule that passes is asserted by recording its gates. -/
theorem Rule.assert_eq {rule : Rule} {s : Signal} (h : rule.Passes s) (runs : List Run) :
    rule.assert s runs = (.ok (), recordAll runs (rule.assertedGates s)) := by
  cases rule with
  | free =>
      have hNone : Rule.free.assertedGates s = [] := ite_self []
      rw [hNone, recordAll_nil]
      rfl
  | boolean => exact Signal.assertKnown_eq h .notBoolean .boolean runs
  | range bits => exact Signal.assertKnown_eq h (.outOfRange · bits) (.range · bits) runs

/-- Asserting a rule that does not pass is refused. -/
theorem Rule.assert_fails {rule : Rule} {s : Signal} (h : ¬ rule.Passes s) (runs : List Run) :
    ∃ e, rule.assert s runs = (.error e, runs) := by
  cases hKnown : s.known? with
  | none => exact absurd (passes_of_unknown hKnown rule) h
  | some x =>
      rw [passes_iff hKnown, Bool.not_eq_true] at h
      cases rule with
      | free => cases h
      | boolean => exact ⟨_, Signal.assertKnown_fails hKnown h .notBoolean .boolean runs⟩
      | range bits =>
          exact ⟨_, Signal.assertKnown_fails hKnown h (.outOfRange · bits) (.range · bits) runs⟩

/-- A rule that was asserted passes. -/
theorem Rule.passes_of_assert_ok {rule : Rule} {s : Signal} {runs after : List Run}
    (h : rule.assert s runs = (.ok (), after)) : rule.Passes s := by
  by_contra hNot
  obtain ⟨e, hFails⟩ := assert_fails hNot runs
  cases hFails.symm.trans h

/-! ## Asserting rules -/

/-- The gates that asserting rules of signals records. -/
def assertedGates (rules : List Rule) (signals : List Signal) : List Gate :=
  (rules.zip signals).flatMap fun (rule, s) => rule.assertedGates s

theorem assertRules_cons (rule : Rule) (rules : List Rule) (s : Signal) (signals : List Signal)
    (runs : List Run) :
    assertRules (rule :: rules) (s :: signals) runs =
      (match rule.assert s runs with
      | (.ok (), runs) => assertRules rules signals runs
      | (.error e, runs) => (.error e, runs)) := by
  show (rule.assert s >>= fun _ => assertRules rules signals) runs = _
  show (ExceptT.bindCont (fun _ => assertRules rules signals) (rule.assert s runs).1
    (rule.assert s runs).2) = _
  rcases rule.assert s runs with ⟨_ | _, _⟩ <;> rfl

/-- Rules that pass are asserted by recording their gates. -/
theorem assertRules_eq {rules : List Rule} {signals : List Signal}
    (h : List.Forall₂ Rule.Passes rules signals) (runs : List Run) :
    assertRules rules signals runs = (.ok (), recordAll runs (assertedGates rules signals)) := by
  induction h generalizing runs with
  | nil => rw [assertRules_nil]; exact congrArg (Prod.mk _) (recordAll_nil runs).symm
  | cons hHead _ ih =>
      rw [assertRules_cons, Rule.assert_eq hHead]
      show assertRules _ _ (recordAll runs _) = _
      rw [ih, recordAll_append]
      rfl

/-- If some rule does not pass, asserting the rules is refused. -/
theorem assertRules_fails {rules : List Rule} {signals : List Signal}
    (hLength : rules.length = signals.length) (h : ¬ List.Forall₂ Rule.Passes rules signals)
    (runs : List Run) : ∃ e after, assertRules rules signals runs = (.error e, after) := by
  induction rules generalizing signals runs with
  | nil =>
      obtain rfl := List.length_eq_zero_iff.1 hLength.symm
      exact absurd .nil h
  | cons rule rules ih =>
      cases signals with
      | nil => cases hLength
      | cons s signals =>
          by_cases hHead : rule.Passes s
          · have hRest : ¬ List.Forall₂ Rule.Passes rules signals :=
              fun hRest => h (.cons hHead hRest)
            obtain ⟨e, after, hFails⟩ := ih (Nat.succ.inj hLength) hRest
              (recordAll runs (rule.assertedGates s))
            refine ⟨e, after, ?_⟩
            rw [assertRules_cons, Rule.assert_eq hHead]
            exact hFails
          · obtain ⟨e, hFails⟩ := Rule.assert_fails hHead runs
            refine ⟨e, runs, ?_⟩
            rw [assertRules_cons, hFails]

/-! ## Private inputs -/

/-- The variables of private inputs, numbered from an index on. -/
def inputsFrom (mode : Mode) : Nat → List (Option Element) → List Signal
  | _, [] => []
  | index, value? :: rest =>
    .variable ⟨index, Run.keptValue mode value?⟩ :: inputsFrom mode (index + 1) rest

theorem inputsFrom_length (mode : Mode) (index : Nat) (values : List (Option Element)) :
    (inputsFrom mode index values).length = values.length := by
  induction values generalizing index with
  | nil => rfl
  | cons value? rest ih => exact congrArg Nat.succ (ih (index + 1))

/-- One more private input, whose variable is kept before the ones there are. -/
def Run.introduceNext (state : List Signal × Run) (value? : Option Element) : List Signal × Run :=
  (.variable (state.2.allocate value?).1 :: state.1, (state.2.allocate value?).2)

theorem Run.foldl_introduceNext (run : Run) (values : List (Option Element))
    (done : List Signal) :
    values.foldl introduceNext (done, run) =
      ((inputsFrom run.mode run.values.size values).reverse ++ done,
        { run with values := run.values ++ (values.map (keptValue run.mode)).toArray }) := by
  induction values generalizing run done with
  | nil => simp [inputsFrom]
  | cons value? rest ih =>
      rw [List.foldl_cons]
      show rest.foldl _ (Signal.variable ⟨run.values.size, keptValue run.mode value?⟩ :: done,
        { run with values := run.values.push (keptValue run.mode value?) }) = _
      rw [ih]
      simp [inputsFrom]

/-- Private inputs are the next variables of a run. -/
theorem Run.introduce_eq (run : Run) (values : List (Option Element)) :
    run.introduce values =
      (inputsFrom run.mode run.values.size values,
        { run with
          values := run.values ++ (values.map (keptValue run.mode)).toArray
          witnessCount := run.witnessCount + values.length }) := by
  have hFold : run.introduce values =
      ((values.foldl introduceNext
          ([], { run with witnessCount := run.witnessCount + values.length })).1.reverse,
        (values.foldl introduceNext
          ([], { run with witnessCount := run.witnessCount + values.length })).2) := rfl
  rw [hFold, foldl_introduceNext, List.append_nil, List.reverse_reverse]

end TypedCircuit
