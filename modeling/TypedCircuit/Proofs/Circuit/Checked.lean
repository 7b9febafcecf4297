import TypedCircuit.Proofs.Circuit.Inputs
import TypedCircuit.Proofs.Circuit.Steps

/-!
# Checked values

A witness ends with the check of a value that is made of variables. For a lawful type the check
asks one thing, whether the rules of the type pass on the variables. In a compile pass they pass
because nothing is known; in a prove pass they pass exactly if they hold of the elements.

## Main results

* `passes_constants`, `passes_inputsFrom_prove`, `passes_inputsFrom_compile` — when rules pass.
* `Construction.checkedValue_ok`, `Construction.checkedValue_error` — the check of a value of a
  lawful type.
* `Construction.witness_blank`, `Construction.witness_constants` — a witness in a compile pass, and
  one in a prove pass whose computation yields constants.
-/

namespace TypedCircuit

/-- Whether elements are as rules say, one rule an element. -/
def RulesHold (rules : List Rule) (xs : List Element) : Prop :=
  List.Forall₂ (fun (rule : Rule) x => rule.holds x = true) rules xs

/-! ## Values of inputs -/

theorem passes_constants {rules : List Rule} {xs : List Element} :
    List.Forall₂ Rule.Passes rules (xs.map .constant) ↔ RulesHold rules xs := by
  rw [List.forall₂_map_right_iff]
  constructor
  · intro h; exact h.imp fun rule x hx => (Rule.passes_iff rfl).1 hx
  · intro h; exact h.imp fun rule x hx => (Rule.passes_iff rfl).2 hx

/-- Constants that are as rules say pass them, and no gate is recorded. -/
theorem assertRules_constants {rules : List Rule} {xs : List Element} (h : RulesHold rules xs)
    (runs : List Run) : assertRules rules (xs.map .constant) runs = (.ok (), runs) := by
  have hNone : assertedGates rules (xs.map .constant) = [] := by
    refine List.flatMap_eq_nil_iff.2 fun pair hPair => ?_
    obtain ⟨x, -, hEq⟩ := List.mem_map.1 (List.of_mem_zip hPair).2
    show Rule.assertedGates pair.1 pair.2 = []
    rw [← hEq]
    rfl
  rw [assertRules_eq (passes_constants.2 h), hNone, recordAll_nil]

theorem passes_inputsFrom_prove {rules : List Rule} {xs : List Element} (index : Nat) :
    List.Forall₂ Rule.Passes rules (inputsFrom .prove index (xs.map some)) ↔
      RulesHold rules xs := by
  induction xs generalizing rules index with
  | nil =>
      constructor
      · intro h; cases h; exact .nil
      · intro h; cases h; exact .nil
  | cons x rest ih =>
      constructor
      · intro h
        cases h with
        | cons hHead hRest => exact .cons ((Rule.passes_iff rfl).1 hHead) ((ih _).1 hRest)
      · intro h
        cases h with
        | cons hHead hRest => exact .cons ((Rule.passes_iff rfl).2 hHead) ((ih _).2 hRest)

theorem passes_inputsFrom_compile {rules : List Rule} {values : List (Option Element)}
    (hLength : rules.length = values.length) (index : Nat) :
    List.Forall₂ Rule.Passes rules (inputsFrom .compile index values) := by
  induction rules generalizing values index with
  | nil =>
      obtain rfl := List.length_eq_zero_iff.1 hLength.symm
      exact .nil
  | cons rule rules ih =>
      cases values with
      | nil => cases hLength
      | cons value? rest =>
          exact .cons (Rule.passes_of_unknown rfl rule) (ih (Nat.succ.inj hLength) (index + 1))

/-- The values of constants are what they are constants of. -/
theorem values_constants (xs : List Element) :
    ((xs.map Signal.constant).mapM fun s : Signal => s.value) = .ok xs := by
  rw [mapM_eq_ok, List.forall₂_map_left_iff, List.forall₂_same]
  exact fun x _ => rfl

/-- What is known of private inputs is what the mode of the pass keeps of their values. -/
theorem known_inputsFrom (mode : Mode) (index : Nat) (values : List (Option Element)) :
    (inputsFrom mode index values).map Signal.known? = values.map (Run.keptValue mode) := by
  induction values generalizing index with
  | nil => rfl
  | cons value? rest ih => exact congrArg (Run.keptValue mode value? :: ·) (ih (index + 1))

/-! ## Checks -/

namespace Construction

variable {host : Type} {s s' : Session host} {c : Codec} {law : Part.Law} {fields : List Signal}
  {aux : List Value}

/-- The check of a value decides whether the value is returned. -/
theorem checkedValue_eq {v : Value} (hBack : c.ofFieldsWithAux fields aux = .ok v)
    {result : Except Error Unit} {runs : List Run} (hCheck : c.check v s.runs = (result, runs)) :
    checkedValue c fields aux s = (result.map fun _ => v, { s with runs }) := by
  have hLift : (liftM (c.check v) : Construction host Unit) s = (result, { s with runs }) := by
    show ((c.check v s.runs).1, { s with runs := (c.check v s.runs).2 }) = _
    rw [hCheck]
  unfold checkedValue
  rw [bind_ok (lift_ok hBack s)]
  cases result with
  | error e => exact bind_error hLift
  | ok => rw [bind_ok hLift]; rfl

/-- A value is returned if the rules of its type pass, and their gates are recorded. -/
theorem checkedValue_ok (hLaw : c.part.Lawful law) (hFields : fields.length = law.width.fields)
    (hAux : aux.length = law.width.aux) (hHost : ∀ a ∈ aux, a.HostData)
    (hPasses : List.Forall₂ Rule.Passes law.rules fields) (s : Session host) :
    ∃ v, checkedValue c fields aux s =
        (.ok v, { s with runs := recordAll s.runs (assertedGates law.rules fields) }) ∧
      c.toFields v = .ok fields ∧ c.auxiliary v = aux := by
  obtain ⟨v, hBack, hFlat, hSame, -⟩ := hLaw.rebuild_ok hFields hAux hHost
  have hCheck : c.check v = assertRules law.rules fields := hLaw.check_eq hFlat
  have hChecked := (congrFun hCheck s.runs).trans (assertRules_eq hPasses s.runs)
  exact ⟨v, checkedValue_eq hBack hChecked, hFlat, hSame⟩

/-- A value is refused if the rules of its type do not pass. -/
theorem checkedValue_error (hLaw : c.part.Lawful law)
    (hFields : fields.length = law.width.fields) (hAux : aux.length = law.width.aux)
    (hHost : ∀ a ∈ aux, a.HostData) (hPasses : ¬ List.Forall₂ Rule.Passes law.rules fields)
    (s : Session host) : ∃ e s', checkedValue c fields aux s = (.error e, s') := by
  obtain ⟨v, hBack, hFlat, -, -⟩ := hLaw.rebuild_ok hFields hAux hHost
  have hCheck : c.check v = assertRules law.rules fields := hLaw.check_eq hFlat
  obtain ⟨e, after, hFails⟩ := assertRules_fails (hLaw.rules_length.trans hFields.symm) hPasses
    s.runs
  exact ⟨e, _, checkedValue_eq hBack ((congrFun hCheck s.runs).trans hFails)⟩

/-- In a compile pass a witness of a lawful type is a value of new variables and nulls, whatever its
computation is, and the rules of the type are recorded. -/
theorem witness_blank {run : Run} {outer : List Run} (h : s.runs = run :: outer)
    (hMode : run.mode = .compile) {d : Descriptor} (hLaw : (s.registry.codec d).part.Lawful law)
    {blanks : List (Option Element)} (hBlanks : blanks = List.replicate law.width.fields none) :
    ∃ v, (∀ compute : Construction host Value, witness d compute s =
        (.ok v, { s with
          runs := recordAll ((run.introduce blanks).2 :: outer)
            (assertedGates law.rules (inputsFrom .compile run.values.size blanks)) })) ∧
      (s.registry.codec d).toFields v = .ok (inputsFrom .compile run.values.size blanks) ∧
      (s.registry.codec d).auxiliary v = List.replicate law.width.aux Value.null := by
  have hLength : blanks.length = law.width.fields := by
    rw [hBlanks, List.length_replicate]
  have hFields := (inputsFrom_length .compile run.values.size blanks).trans hLength
  have hPasses := passes_inputsFrom_compile (hLaw.rules_length.trans hLength.symm)
    run.values.size
  obtain ⟨v, hChecked, hFlat, hAux⟩ := checkedValue_ok hLaw hFields List.length_replicate
    (Value.hostData_nulls _) hPasses { s with runs := (run.introduce blanks).2 :: outer }
  have hInputs : (run.introduce blanks).1 = inputsFrom .compile run.values.size blanks := by
    rw [Run.introduce_eq, hMode]
  refine ⟨v, fun compute => ?_, hFlat, hAux⟩
  rw [witness_compile h hMode d compute hLaw.width_eq, ← hBlanks, hInputs]
  exact hChecked

/-- In a prove pass the constants that were computed become variables of their values. -/
theorem witness_constants {run run' : Run} {outer outer' : List Run} (h : s.runs = run :: outer)
    (hMode : run.mode = .prove) {d : Descriptor} {compute : Construction host Value} {v : Value}
    (hCompute : compute s = (.ok v, s')) (hRegistry : s'.registry = s.registry)
    (h' : s'.runs = run' :: outer') (hLaw : (s.registry.codec d).part.Lawful law)
    {xs : List Element} (hFlat : (s.registry.codec d).toFields v = .ok (xs.map .constant)) :
    witness d compute s =
      checkedValue (s.registry.codec d) (run'.introduce (xs.map some)).1
        ((s.registry.codec d).auxiliary v)
        { s' with runs := (run'.introduce (xs.map some)).2 :: outer' } := by
  have hLength : xs.length = law.width.fields := by
    have hFields := hLaw.fields_length hFlat
    rwa [List.length_map] at hFields
  rw [← hRegistry] at hLaw hFlat ⊢
  have hWidth : (s.registry.codec d).width () = .ok law.width := by
    rw [← hRegistry]
    exact hLaw.width_eq
  exact witness_prove h hMode hWidth hCompute h' hFlat (values_constants xs) hLength hLaw.width_eq

end Construction

end TypedCircuit
