import TypedCircuit.Proofs.Circuit.Checked
import TypedCircuit.Proofs.Codec.Regular

/-!
# What the circuit of a type accepts

The circuit of a type is what a compile pass records for a witness of it. Here the circuit is
compared with the check of the type: an assignment of the private inputs satisfies the circuit
exactly if the value made of it is valid, and exactly if a prove pass for that value succeeds.

All three come down to one condition, that each rule of the type holds of its element. A
compile pass knows no values and records a gate for every rule; a check outside of every run
looks at constants and records nothing; a prove pass does both.

## Main results

* `Descriptor.Regular.accepts_iff_valid` — satisfaction, validity and provability agree.
-/

namespace TypedCircuit

/-! ## Gates of inputs -/

/-- The gates of rules of inputs tell nothing of the values of the inputs or the pass. -/
theorem assertedGates_inputsFrom (rules : List Rule) (mode mode' : Mode) (index : Nat)
    {values values' : List (Option Element)} (h : values.length = values'.length) :
    assertedGates rules (inputsFrom mode index values) =
      assertedGates rules (inputsFrom mode' index values') := by
  induction rules generalizing index values values' with
  | nil => rfl
  | cons rule rules ih =>
      cases values with
      | nil =>
          obtain rfl := List.length_eq_zero_iff.1 h.symm
          rfl
      | cons value? rest =>
          cases values' with
          | nil => cases h
          | cons value'? rest' =>
              exact congrArg (rule.gates (.variable index) ++ ·)
                (ih (index + 1) (Nat.succ.inj h))

/-- The gates of rules of inputs hold exactly if the rules do. -/
theorem gates_hold_iff {rules : List Rule} {xs : List Element} {mode : Mode} {index : Nat}
    {values : List (Option Element)} {assignment : Nat → Option Element}
    (hRules : rules.length = xs.length) (hValues : values.length = xs.length)
    (h : ∀ k, assignment (index + k) = xs[k]?) :
    (∀ gate ∈ assertedGates rules (inputsFrom mode index values),
      gate.holds? assignment = some true) ↔ RulesHold rules xs := by
  induction xs generalizing rules index values with
  | nil =>
      obtain rfl := List.length_eq_zero_iff.1 hRules
      exact ⟨fun _ => .nil, fun _ => nofun⟩
  | cons x rest ih =>
      cases rules with
      | nil => cases hRules
      | cons rule rules =>
          cases values with
          | nil => cases hValues
          | cons value? values =>
              have hHead : (Wire.variable index).value? assignment = some x := h 0
              have hRest : ∀ k, assignment (index + 1 + k) = rest[k]? := by
                intro k
                have hNext := h (k + 1)
                rwa [Nat.add_comm k 1, ← Nat.add_assoc, Nat.add_comm 1 k,
                  List.getElem?_cons_succ] at hNext
              have hGates : assertedGates (rule :: rules)
                  (inputsFrom mode index (value? :: values)) =
                    rule.gates (.variable index) ++
                      assertedGates rules (inputsFrom mode (index + 1) values) := rfl
              rw [hGates, List.forall_mem_append, Rule.gates_hold hHead,
                ih (Nat.succ.inj hRules) (Nat.succ.inj hValues) hRest]
              constructor
              · rintro ⟨hFirst, hOthers⟩; exact .cons hFirst hOthers
              · intro hAll
                cases hAll with
                | cons hFirst hOthers => exact ⟨hFirst, hOthers⟩

/-- A run is verified exactly if its own values satisfy it. -/
theorem Run.verify_eq_ok_iff (run : Run) :
    run.verify = .ok () ↔ run.constraintSystem.Satisfied run.valueOf? := by
  have hViolated : run.violated? = none ↔ run.constraintSystem.Satisfied run.valueOf? := by
    unfold violated? ConstraintSystem.Satisfied constraintSystem
    rw [List.findSome?_eq_none_iff]
    constructor
    · intro h gate hGate
      obtain ⟨i, hi⟩ := List.mem_iff_getElem?.1 hGate
      have hNone := h (gate, i) (List.mem_zipIdx_iff_getElem?.2 hi)
      by_contra hNot
      simp [hNot] at hNone
    · intro h entry hEntry
      have hGate := List.mem_of_getElem? (List.mem_zipIdx_iff_getElem?.1 hEntry)
      simp [h _ hGate]
  rw [← hViolated]
  unfold verify
  cases run.violated? with
  | none => exact ⟨fun _ => rfl, fun _ => rfl⟩
  | some violation => exact ⟨nofun, nofun⟩

/-! ## Witnesses of lawful types -/

namespace Construction

variable {host : Type} {s : Session host} {law : Part.Law}

/-- What a pass returns and records, if the rules of a type are asserted of all its inputs. -/
def recordedRun (mode : Mode) (values : List (Option Element)) (rules : List Rule) : Run :=
  ⟨mode, (values.map (Run.keptValue mode)).toArray, values.length,
    (assertedGates rules (inputsFrom mode 0 values)).toArray⟩

theorem introduce_start (mode : Mode) (values : List (Option Element)) :
    (Run.start mode).introduce values =
      (inputsFrom mode 0 values,
        ⟨mode, (values.map (Run.keptValue mode)).toArray, values.length, #[]⟩) := by
  rw [Run.introduce_eq]
  simp [Run.start]

/-- The record of a new pass after the rules of its inputs are asserted. -/
theorem recordAll_start (mode : Mode) (values : List (Option Element)) (rules : List Rule)
    (outer : List Run) :
    recordAll (((Run.start mode).introduce values).2 :: outer)
        (assertedGates rules (inputsFrom mode 0 values)) =
      recordedRun mode values rules :: outer := by
  rw [introduce_start]
  simp [recordAll, recordedRun]

/-- The record of a compile pass for a witness of a lawful type. -/
theorem compile_witness {d : Descriptor} (hLaw : (s.registry.codec d).part.Lawful law)
    (compute : Construction host Value) {blanks : List (Option Element)}
    (hBlanks : blanks = List.replicate law.width.fields none) :
    (compile (witness d compute) s).1 =
      .ok (recordedRun .compile blanks law.rules).constraintSystem := by
  obtain ⟨v, hWitness, -, -⟩ := witness_blank (s.opened_runs (.start .compile)) rfl hLaw hBlanks
  have hBody : witness d compute (s.opened (.start .compile)) =
      (.ok v, s.opened (recordedRun .compile blanks law.rules)) := by
    rw [hWitness]
    exact congrArg (fun runs => (Except.ok v, { s with runs })) (recordAll_start _ _ _ _)
  unfold compile
  rw [bind_ok (inRun_eq hBody)]
  rfl

/-- In a new prove pass a constant value becomes the first variables. -/
theorem witness_start {d : Descriptor} (hLaw : (s.registry.codec d).part.Lawful law)
    {v : Value} {xs : List Element}
    (hFlat : (s.registry.codec d).toFields v = .ok (xs.map .constant)) :
    witness d (pure v) (s.opened (.start .prove)) =
      checkedValue (s.registry.codec d) (inputsFrom .prove 0 (xs.map some))
        ((s.registry.codec d).auxiliary v)
        (s.opened ((Run.start .prove).introduce (xs.map some)).2) := by
  have hCompute : (pure v : Construction host Value) (s.opened (.start .prove)) =
      (.ok v, s.opened (.start .prove)) := rfl
  rw [witness_constants (s.opened_runs _) rfl hCompute rfl (s.opened_runs _) hLaw hFlat,
    introduce_start]
  rfl

/-- A prove pass for a constant value of a lawful type succeeds if its elements are as the rules
say, and leaves what a compile pass does. -/
theorem prove_witness {d : Descriptor} (hLaw : (s.registry.codec d).part.Lawful law)
    {v : Value} {xs : List Element}
    (hFlat : (s.registry.codec d).toFields v = .ok (xs.map .constant))
    (hHolds : RulesHold law.rules xs) :
    ∃ out, (prove (witness d (pure v)) s).1 =
      .ok (out, (recordedRun .prove (xs.map some) law.rules).constraintSystem) := by
  have hFields := hLaw.fields_length hFlat
  rw [List.length_map] at hFields
  have hLength : (xs.map some).length = law.width.fields := by rw [List.length_map, hFields]
  have hBody : ∃ out, witness d (pure v) (s.opened (.start .prove)) =
      (.ok out, s.opened (recordedRun .prove (xs.map some) law.rules)) := by
    obtain ⟨out, hChecked, -, -⟩ := checkedValue_ok hLaw
      ((inputsFrom_length .prove 0 _).trans hLength) (hLaw.aux_length hFlat)
      (hLaw.aux_hostData hFlat) ((passes_inputsFrom_prove 0).2 hHolds)
      (s.opened ((Run.start .prove).introduce (xs.map some)).2)
    rw [Session.opened_runs, recordAll_start] at hChecked
    exact ⟨out, (witness_start hLaw hFlat).trans hChecked⟩
  obtain ⟨out, hBody⟩ := hBody
  have hVerify : (recordedRun .prove (xs.map some) law.rules).verify = .ok () := by
    rw [Run.verify_eq_ok_iff]
    have hRules := hLaw.rules_length.trans hFields.symm
    refine (gates_hold_iff hRules (List.length_map _) fun k => ?_).2 hHolds
    simp only [Run.valueOf?, recordedRun, List.getElem?_toArray, List.getElem?_map, Nat.zero_add]
    cases xs[k]? <;> rfl
  refine ⟨out, ?_⟩
  unfold prove
  rw [bind_ok (inRun_eq hBody)]
  show ((liftM (Run.verify _) >>= _ : Construction host _) s).1 = _
  rw [bind_ok (lift_ok hVerify s)]
  rfl

/-- A prove pass for a constant value of a lawful type is refused if its elements are not as the
rules say. -/
theorem prove_witness_fails {d : Descriptor} (hLaw : (s.registry.codec d).part.Lawful law)
    {v : Value} {xs : List Element}
    (hFlat : (s.registry.codec d).toFields v = .ok (xs.map .constant))
    (hHolds : ¬ RulesHold law.rules xs) :
    ∃ e, (prove (witness d (pure v)) s).1 = .error e := by
  have hFields := hLaw.fields_length hFlat
  rw [List.length_map] at hFields
  have hLength : (xs.map some).length = law.width.fields := by rw [List.length_map, hFields]
  have hBody : ∃ e s', witness d (pure v) (s.opened (.start .prove)) = (.error e, s') := by
    rw [witness_start hLaw hFlat]
    exact checkedValue_error hLaw ((inputsFrom_length .prove 0 _).trans hLength)
      (hLaw.aux_length hFlat) (hLaw.aux_hostData hFlat)
      (fun hPasses => hHolds ((passes_inputsFrom_prove 0).1 hPasses)) _
  obtain ⟨e, s', hBody⟩ := hBody
  obtain ⟨after, hRun⟩ := inRun_error hBody
  refine ⟨e, ?_⟩
  unfold prove
  rw [bind_error hRun]

/-- What a prove pass for a constant value of a lawful type leaves, if it succeeds. -/
theorem prove_witness_eq_ok {d : Descriptor} (hLaw : (s.registry.codec d).part.Lawful law)
    {v out : Value} {xs : List Element} {cs : ConstraintSystem}
    (hFlat : (s.registry.codec d).toFields v = .ok (xs.map .constant))
    (h : (prove (witness d (pure v)) s).1 = .ok (out, cs)) :
    RulesHold law.rules xs ∧
      cs = (recordedRun .prove (xs.map some) law.rules).constraintSystem := by
  by_cases hHolds : RulesHold law.rules xs
  · obtain ⟨out', hOut⟩ := prove_witness hLaw hFlat hHolds
    rw [hOut] at h
    cases h
    exact ⟨hHolds, rfl⟩
  · obtain ⟨e, hError⟩ := prove_witness_fails hLaw hFlat hHolds
    rw [hError] at h
    cases h

/-- A vector satisfies the record of a compile pass exactly if its elements are as the rules say. -/
theorem satisfied_recordedRun {rules : List Rule} {xs : List Element}
    {blanks : List (Option Element)} (hRules : rules.length = xs.length)
    (hBlanks : blanks.length = xs.length) :
    (recordedRun .compile blanks rules).constraintSystem.Satisfied (fun i => xs[i]?) ↔
      RulesHold rules xs := by
  have hGates : (∀ gate ∈ assertedGates rules (inputsFrom .compile 0 blanks),
      gate.holds? (fun i => xs[i]?) = some true) ↔ RulesHold rules xs :=
    gates_hold_iff hRules hBlanks fun k => by rw [Nat.zero_add]
  rw [← hGates]
  simp [ConstraintSystem.Satisfied, Run.constraintSystem, recordedRun]

/-- Passes with as many inputs leave the same constraint system, whatever their modes are. -/
theorem constraintSystem_recordedRun (mode mode' : Mode) (rules : List Rule)
    {values values' : List (Option Element)} (h : values.length = values'.length) :
    (recordedRun mode values rules).constraintSystem =
      (recordedRun mode' values' rules).constraintSystem := by
  have hGates := assertedGates_inputsFrom rules mode mode' 0 h
  simp [Run.constraintSystem, recordedRun, hGates, h]

end Construction

/-! ## Acceptance -/

/-- Outside of every run the check of a constant value asks whether its elements are as the
rules say. -/
theorem check_constants_iff {c : Codec} {law : Part.Law} (hLaw : c.part.Lawful law) {v : Value}
    {xs : List Element} (hFlat : c.toFields v = .ok (xs.map .constant)) :
    (c.check v []).1 = .ok () ↔ RulesHold law.rules xs := by
  have hCheck : c.check v = assertRules law.rules (xs.map .constant) := hLaw.check_eq hFlat
  rw [hCheck, ← passes_constants]
  constructor
  · intro h
    by_contra hPasses
    obtain ⟨e, after, hFails⟩ := assertRules_fails
      (hLaw.rules_length.trans (hLaw.fields_length hFlat).symm) hPasses []
    rw [hFails] at h
    cases h
  · intro hPasses
    rw [assertRules_eq hPasses]

open Construction in
/--
For every vector of as many elements as a regular type has, there is the constant value made of
the vector and nulls. The vector satisfies the circuit that a compile pass records for a witness
of the type exactly if the value is valid outside of every run, and exactly if a prove pass for a
witness of the value succeeds. A prove pass that succeeds leaves the compiled circuit. The private
inputs are all the variables of the circuit.
-/
theorem Descriptor.Regular.accepts_iff_valid {r : Registry} {d : Descriptor} (h : d.Regular r) :
    ∃ width, (r.codec d).width () = .ok width ∧
      ∀ xs : List Element, xs.length = width.fields →
        ∃ v, (r.codec d).ofFieldsWithAux (xs.map .constant)
            (List.replicate width.aux Value.null) = .ok v ∧
          ∀ {host : Type} (s : Session host) (compute : Construction host Value),
            s.registry = r →
              ∃ cs, (compile (witness d compute) s).1 = .ok cs ∧
                cs.variableCount = xs.length ∧ cs.witnessCount = xs.length ∧
                (cs.Satisfied (fun i => xs[i]?) ↔ ((r.codec d).check v []).1 = .ok ()) ∧
                (((r.codec d).check v []).1 = .ok () ↔
                  ∃ out provedCs, (prove (witness d (pure v)) s).1 = .ok (out, provedCs)) ∧
                ∀ out provedCs, (prove (witness d (pure v)) s).1 = .ok (out, provedCs) →
                  provedCs = cs := by
  obtain ⟨width, rules, hLaw⟩ := h.lawful
  refine ⟨width, hLaw.width_eq, fun xs hLength => ?_⟩
  have hFields : (xs.map Signal.constant).length = width.fields := by
    rw [List.length_map, hLength]
  obtain ⟨v, hBack, hFlat, -, -⟩ :=
    hLaw.rebuild_ok hFields List.length_replicate (Value.hostData_nulls _)
  refine ⟨v, hBack, fun {host} s compute hRegistry => ?_⟩
  subst hRegistry
  have hRules : rules.length = xs.length := hLaw.rules_length.trans hLength.symm
  have hBlanks : (List.replicate width.fields (none : Option Element)).length = xs.length := by
    rw [List.length_replicate, hLength]
  have hValid := check_constants_iff hLaw hFlat
  refine ⟨_, compile_witness hLaw compute rfl, ?_, ?_, ?_, ?_, ?_⟩
  · simp [Run.constraintSystem, recordedRun, hLength]
  · simp [Run.constraintSystem, recordedRun, hLength]
  · rw [hValid]
    exact satisfied_recordedRun hRules hBlanks
  · rw [hValid]
    constructor
    · intro hHolds
      obtain ⟨out, hOut⟩ := prove_witness hLaw hFlat hHolds
      exact ⟨out, _, hOut⟩
    · rintro ⟨out, provedCs, hOut⟩
      exact (prove_witness_eq_ok hLaw hFlat hOut).1
  · intro out provedCs hOut
    rw [(prove_witness_eq_ok hLaw hFlat hOut).2]
    exact constraintSystem_recordedRun .prove .compile rules
      ((List.length_map some).trans hBlanks.symm)

/-! ## A type with rules -/

/-- A registry with counters that can be switched on. -/
private def counters : Registry :=
  ⟨[("Counter", [("on", .boolean), ("count", .uint32), ("note", .opaqueHost)])]⟩

/-- A session in which the counters are registered and nothing is open. -/
private def counterSession : Session Unit := ⟨[], [], counters, [], ()⟩

private theorem regular_counter : (Descriptor.composite "Counter" false).Regular counters := by
  refine .composite (by decide) ?_ false
  intro m hm
  rcases hm with _ | ⟨_, _ | ⟨_, _ | ⟨_, hm⟩⟩⟩
  · exact .leaf .boolean
  · exact .leaf .uint32
  · exact .leaf .opaqueHost
  · cases hm

open Construction in
/-- The circuit of a counter accepts a counter that is on and refuses one that is neither on nor
off; a pass that proves the first leaves the circuit. -/
theorem accepts_counter :
    (Descriptor.composite "Counter" false).Regular counters ∧
      ∃ cs, (compile (witness (.composite "Counter" false)
          (throw .valueUnavailable)) counterSession).1 = .ok cs ∧
        cs.Satisfied (fun i => [(1 : Element), 7][i]?) ∧
        ¬ cs.Satisfied (fun i => [(2 : Element), 7][i]?) := by
  refine ⟨regular_counter, ?_⟩
  obtain ⟨width, hWidth, hAll⟩ := regular_counter.accepts_iff_valid
  obtain rfl : ⟨2, 1⟩ = width := Except.ok.inj hWidth
  obtain ⟨v, hBack, hOn⟩ := hAll [1, 7] rfl
  obtain rfl := Except.ok.inj hBack
  obtain ⟨cs, hCompile, -, -, hAccepts, -⟩ :=
    hOn counterSession (throw .valueUnavailable) rfl
  obtain ⟨w, hBack, hNeither⟩ := hAll [2, 7] rfl
  obtain rfl := Except.ok.inj hBack
  obtain ⟨cs', hCompile', -, -, hAccepts', -⟩ :=
    hNeither counterSession (throw .valueUnavailable) rfl
  obtain rfl : cs = cs' := Except.ok.inj (hCompile.symm.trans hCompile')
  refine ⟨cs, hCompile, hAccepts.2 rfl, fun h => ?_⟩
  have hValid := hAccepts'.1 h
  cases hValid

end TypedCircuit
