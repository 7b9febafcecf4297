import TypedCircuit.Proofs.Success
import TypedCircuit.Witness

/-!
# Constructions step by step

A construction is a sequence of steps on a session. A step that succeeded hands its result
and its session on; a step that failed ends the sequence. The lemmas here take the first step
of a sequence at a time, and say what the primitive steps do where a run is open, so that a
witness is followed from its computation to the check of its value.

## Main results

* `bind_ok`, `bind_error` — a sequence after its first step.
* `witness_compile`, `witness_prove` — a witness where a run is open.
-/

namespace TypedCircuit

/-- A session in which one more run is open. -/
def Session.opened {host : Type} (s : Session host) (run : Run) : Session host :=
  { s with runs := run :: s.runs }

theorem Session.opened_runs {host : Type} (s : Session host) (run : Run) :
    (s.opened run).runs = run :: s.runs := rfl

namespace Construction

variable {host α β : Type} {s s' : Session host} {run run' : Run} {outer outer' : List Run}

/-! ## Sequences -/

theorem bind_ok {x : Construction host α} {f : α → Construction host β} {a : α}
    (h : x s = (.ok a, s')) : (x >>= f) s = f a s' := bind_state_ok h f

theorem bind_error {x : Construction host α} {f : α → Construction host β} {e : Error}
    (h : x s = (.error e, s')) : (x >>= f) s = (.error e, s') := bind_state_error h f

/-- A sequence that succeeded has a first step that succeeded. -/
theorem bind_eq_ok {x : Construction host α} {f : α → Construction host β} {b : β}
    (h : (x >>= f) s = (.ok b, s')) : ∃ a between, x s = (.ok a, between) ∧
      f a between = (.ok b, s') := bind_state_eq_ok h

/-- What a sequence does depends on what its first step does there. -/
theorem bind_congr {x y : Construction host α} (h : x s = y s) (f : α → Construction host β) :
    (x >>= f) s = (y >>= f) s := by
  show ExceptT.bindCont f (x s).1 (x s).2 = ExceptT.bindCont f (y s).1 (y s).2
  rw [h]

theorem lift_ok {x : Except Error α} {a : α} (h : x = .ok a) (s : Session host) :
    (liftM x : Construction host α) s = (.ok a, s) := by
  rw [h]
  rfl

theorem lift_error {x : Except Error α} {e : Error} (h : x = .error e) (s : Session host) :
    (liftM x : Construction host α) s = (.error e, s) := by
  rw [h]
  rfl

/-- A walk that touches nothing of the session does in it what it does by itself. -/
theorem mapM_lift_eq (f : α → Except Error β) (xs : List α) (s : Session host) :
    (xs.mapM fun x => (liftM (f x) : Construction host β)) s = (xs.mapM f, s) := by
  induction xs with
  | nil => rfl
  | cons x xs ih =>
      rw [List.mapM_cons, List.mapM_cons]
      cases hHead : f x with
      | error e => exact bind_error (lift_error rfl s)
      | ok y =>
          rw [bind_ok (lift_ok rfl s)]
          cases hRest : xs.mapM f with
          | error e =>
              rw [hRest] at ih
              exact bind_error ih
          | ok ys =>
              rw [hRest] at ih
              exact bind_ok ih

/-! ## Where a run is open -/

theorem mode?_eq (h : s.runs = run :: outer) : mode? s = (.ok (some run.mode), s) := by
  show (Except.ok (activeMode? s.runs), s) = _
  rw [h]
  rfl

theorem isChecked_eq (h : s.runs = run :: outer) : isChecked s = (.ok true, s) := by
  show (Except.ok (!s.runs.isEmpty), s) = _
  rw [h]
  rfl

theorem codecOf_eq (d : Descriptor) (s : Session host) :
    codecOf d s = (.ok (s.registry.codec d), s) := rfl

theorem allocateInputs_eq (h : s.runs = run :: outer) (values : List (Option Element)) :
    (liftM (liftM (allocateInputs values) : Circuit (List Signal)) :
        Construction host (List Signal)) s =
      (.ok (run.introduce values).1,
        { s with runs := (run.introduce values).2 :: outer }) := by
  obtain ⟨runs, contexts, registry, entropy, data⟩ := s
  cases h
  rfl

/-- A compile pass introduces private inputs without values. -/
theorem introduce_compile (h : s.runs = run :: outer) (hMode : run.mode = .compile)
    (size : Nat) (compute : Construction host (List Element × α)) :
    introduce size compute s =
      (.ok ((run.introduce (List.replicate size none)).1, none),
        { s with runs := (run.introduce (List.replicate size none)).2 :: outer }) := by
  unfold introduce
  rw [bind_ok (mode?_eq h), hMode]
  exact bind_ok (allocateInputs_eq h _)

/-- A prove pass introduces the values that were computed. -/
theorem introduce_prove (h : s.runs = run :: outer) (hMode : run.mode = .prove)
    {compute : Construction host (List Element × α)} {values : List Element} {a : α}
    (hCompute : compute s = (.ok (values, a), s')) (h' : s'.runs = run' :: outer') :
    introduce values.length compute s =
      (.ok ((run'.introduce (values.map some)).1, some a),
        { s' with runs := (run'.introduce (values.map some)).2 :: outer' }) := by
  have hCounted : counted values.length compute s = (.ok (values, a), s') := by
    unfold counted
    rw [bind_ok hCompute]
    show (if values.length = values.length then _ else _ : Construction host _) s' = _
    rw [if_pos rfl]
    rfl
  unfold introduce
  rw [bind_ok (mode?_eq h), hMode]
  show (counted _ compute >>= _) s = _
  rw [bind_ok hCounted]
  exact bind_ok (allocateInputs_eq h' _)

/-! ## Witnesses -/

theorem elementsOf_eq {d : Descriptor} {v : Value} {fields : List Signal}
    {values : List Element} (hFields : (s.registry.codec d).toFields v = .ok fields)
    (hValues : (fields.mapM fun x : Signal => x.value) = .ok values) :
    elementsOf d v s = (.ok values, s) := by
  unfold elementsOf
  rw [bind_ok (codecOf_eq d s), bind_ok (lift_ok hFields s)]
  exact (mapM_lift_eq _ _ s).trans (congrArg (·, s) hValues)

/-- The value of a type with the given elements and auxiliary entries, checked. -/
def checkedValue (c : Codec) (fields : List Signal) (aux : List Value) :
    Construction host Value := do
  let v ← c.ofFieldsWithAux fields aux
  c.check v
  return v

/-- In a compile pass a witness is the value of new variables and nulls. -/
theorem witness_compile (h : s.runs = run :: outer) (hMode : run.mode = .compile)
    (d : Descriptor) (compute : Construction host Value) {width : Width}
    (hWidth : (s.registry.codec d).width () = .ok width) :
    witness d compute s =
      checkedValue (s.registry.codec d)
        (run.introduce (List.replicate width.fields none)).1
        (List.replicate width.aux Value.null)
        { s with runs := (run.introduce (List.replicate width.fields none)).2 :: outer } := by
  unfold witness
  rw [bind_ok (isChecked_eq h)]
  show (codecOf d >>= _) s = _
  rw [bind_ok (codecOf_eq d s), bind_ok (lift_ok hWidth s),
    bind_ok (introduce_compile h hMode _ _)]
  show (codecOf d >>= _) _ = _
  rw [bind_ok (codecOf_eq d _)]
  exact bind_ok (lift_ok hWidth _)

/-- In a prove pass a witness is the value of new variables, which have the values that were
computed, and of the auxiliary entries that were computed. -/
theorem witness_prove (h : s.runs = run :: outer) (hMode : run.mode = .prove)
    {d : Descriptor} {compute : Construction host Value} {v : Value} {fields : List Signal}
    {values : List Element} {width width' : Width}
    (hWidth : (s.registry.codec d).width () = .ok width)
    (hCompute : compute s = (.ok v, s')) (h' : s'.runs = run' :: outer')
    (hFields : (s'.registry.codec d).toFields v = .ok fields)
    (hValues : (fields.mapM fun x : Signal => x.value) = .ok values)
    (hLength : values.length = width.fields)
    (hWidth' : (s'.registry.codec d).width () = .ok width') :
    witness d compute s =
      checkedValue (s'.registry.codec d) (run'.introduce (values.map some)).1
        ((s'.registry.codec d).auxiliary v)
        { s' with runs := (run'.introduce (values.map some)).2 :: outer' } := by
  have hInner : (do
      let v ← compute
      let aux := (← codecOf d).auxiliary v
      return (← elementsOf d v, aux) : Construction host (List Element × List Value)) s =
        (.ok (values, (s'.registry.codec d).auxiliary v), s') := by
    rw [bind_ok hCompute, bind_ok (codecOf_eq d s'), bind_ok (elementsOf_eq hFields hValues)]
    rfl
  unfold witness
  rw [bind_ok (isChecked_eq h)]
  show (codecOf d >>= _) s = _
  rw [bind_ok (codecOf_eq d s), bind_ok (lift_ok hWidth s), ← hLength,
    bind_ok (introduce_prove h hMode hInner h')]
  show (codecOf d >>= _) _ = _
  rw [bind_ok (codecOf_eq d _)]
  exact bind_ok (lift_ok hWidth' _)

theorem witness_unchecked (h : s.runs = []) (d : Descriptor) (compute : Construction host Value) :
    witness d compute s = compute s := by
  obtain ⟨runs, contexts, registry, entropy, data⟩ := s
  cases h
  rfl

theorem introduce_congr {x y : Construction host (List Element × α)} (h : x s = y s)
    (size : Nat) : introduce size x s = introduce size y s := by
  have hCounted : counted size x s = counted size y s := bind_congr h _
  have hRead : mode? s = (.ok (activeMode? s.runs), s) := rfl
  unfold introduce
  rw [bind_ok hRead, bind_ok hRead]
  rcases activeMode? s.runs with _ | _ | _
  · exact bind_congr hCounted _
  · rfl
  · exact bind_congr hCounted _

/-- What a witness does depends on what its computation does there. -/
theorem witness_congr {compute compute' : Construction host Value} (h : compute s = compute' s)
    (d : Descriptor) : witness d compute s = witness d compute' s := by
  cases hRuns : s.runs with
  | nil => rw [witness_unchecked hRuns, witness_unchecked hRuns, h]
  | cons run outer =>
      unfold witness
      rw [bind_ok (isChecked_eq hRuns), bind_ok (isChecked_eq hRuns)]
      show (codecOf d >>= _) s = (codecOf d >>= _) s
      rw [bind_ok (codecOf_eq d s), bind_ok (codecOf_eq d s)]
      cases hWidth : (s.registry.codec d).width () with
      | error e => rw [bind_error (lift_error rfl s), bind_error (lift_error rfl s)]
      | ok width =>
          rw [bind_ok (lift_ok rfl s), bind_ok (lift_ok rfl s)]
          exact bind_congr (introduce_congr (bind_congr h _) _) _

theorem introduce_fails {x : Construction host (List Element × α)} {e : Error}
    (hValued : activeMode? s.runs ≠ some .compile) (h : x s = (.error e, s')) (size : Nat) :
    introduce size x s = (.error e, s') := by
  have hCounted : counted size x s = (.error e, s') := bind_error h
  have hRead : mode? s = (.ok (activeMode? s.runs), s) := rfl
  unfold introduce
  rw [bind_ok hRead]
  rcases hMode : activeMode? s.runs with _ | _ | _
  · exact bind_error hCounted
  · exact absurd hMode hValued
  · exact bind_error hCounted

/-- Where variables have values, a witness fails if its computation does. -/
theorem witness_fails {compute : Construction host Value} {e : Error}
    (hValued : activeMode? s.runs ≠ some .compile) (h : compute s = (.error e, s'))
    (d : Descriptor) : ∃ e' after, witness d compute s = (.error e', after) := by
  cases hRuns : s.runs with
  | nil =>
      rw [witness_unchecked hRuns]
      exact ⟨e, s', h⟩
  | cons run outer =>
      unfold witness
      rw [bind_ok (isChecked_eq hRuns)]
      show ∃ e' after, (codecOf d >>= _) s = (.error e', after)
      rw [bind_ok (codecOf_eq d s)]
      cases hWidth : (s.registry.codec d).width () with
      | error e' => exact ⟨e', s, bind_error (lift_error rfl s)⟩
      | ok width =>
          rw [bind_ok (lift_ok rfl s)]
          exact ⟨e, s', bind_error (introduce_fails hValued (bind_error h) _)⟩

/-- A memoized witness is the witness of what the computation pins. -/
theorem memoizedWitness_eq (d : Descriptor) (compute : Construction host Value)
    (s : Session host) :
    memoizedWitness d compute s =
      witness d (if s.contexts.isEmpty then compute else pinned d compute) s := by
  obtain ⟨runs, contexts, registry, entropy, data⟩ := s
  cases contexts <;> rfl

/-! ## Passes -/

/-- Takes the innermost run away after a body. -/
def closeRun (finished : Except Error α × Session host) : Except Error (α × Run) × Session host :=
  match finished.2.runs with
  | run :: outer => (finished.1.map (·, run), { finished.2 with runs := outer })
  | [] => (finished.1.map (·, .start .compile), finished.2)

theorem inRun_eq_closeRun (mode : Mode) (body : Construction host α) (s : Session host) :
    inRun mode body s = closeRun (body (s.opened (.start mode))) := rfl

/-- A run is opened for a body and taken away after it. -/
theorem inRun_eq {mode : Mode} {body : Construction host α} {result : Except Error α}
    (h : body (s.opened (.start mode)) = (result, s'.opened run)) :
    inRun mode body s = (result.map (·, run), s') := by
  rw [inRun_eq_closeRun, h]
  rfl

theorem inRun_error {mode : Mode} {body : Construction host α} {e : Error}
    (h : body (s.opened (.start mode)) = (.error e, s')) :
    ∃ after, inRun mode body s = (.error e, after) := by
  rw [inRun_eq_closeRun, h]
  unfold closeRun
  cases s'.runs with
  | nil => exact ⟨_, rfl⟩
  | cons run outer => exact ⟨_, rfl⟩

/-- A body that succeeded in a new run leaves the run that is innermost after it. -/
theorem inRun_eq_ok {mode : Mode} {body : Construction host α} {a : α}
    (h : inRun mode body s = (.ok (a, run), s')) :
    ∃ after, body (s.opened (.start mode)) = (.ok a, after) ∧
      ∀ left outer, after.runs = left :: outer → run = left := by
  rcases hBody : body (s.opened (.start mode)) with ⟨e | b, after⟩
  · obtain ⟨_, hError⟩ := inRun_error hBody
    rw [hError] at h
    cases h
  · rw [inRun_eq_closeRun, hBody] at h
    unfold closeRun at h
    cases hRuns : after.runs with
    | nil =>
        simp only [hRuns] at h
        cases h
        exact ⟨_, rfl, fun _ _ hSome => nomatch hRuns.symm.trans hSome⟩
    | cons left outer =>
        simp only [hRuns] at h
        cases h
        exact ⟨_, rfl, fun _ _ hSome => by cases hRuns.symm.trans hSome; rfl⟩

end Construction

end TypedCircuit
