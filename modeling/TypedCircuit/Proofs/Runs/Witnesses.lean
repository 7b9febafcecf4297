import TypedCircuit.Proofs.Memo.Growth
import TypedCircuit.Proofs.Runs.Operations

/-!
# Bodies inside of operations

Some operations execute code of the caller: the computation of private inputs or of a witness,
the body of a nested pass, a body in a memoization context. Whether they do depends on the pass,
on what is registered and on the slots of the innermost context, and a nested pass and a memoized
computation start in another session than the operation does.

If the code of the caller leaves a history of the run that is followed, so does the operation. A
nested pass leaves even less: when it ends its run is taken away, and the runs around it are as
they were.

## Main results

* `Construction.introduce_leads`, `Construction.witness_reaches`,
  `Construction.memoizedWitness_reaches` — private inputs and witnesses.
* `Construction.inRun_runs` — nested passes.
-/

namespace TypedCircuit

variable {host α β : Type} {level : Nat} {s : Session host}

/-! ## Sessions -/

/-- From one session to another, open runs have their histories. -/
def Session.Reaches (level : Nat) (s t : Session host) : Prop := RunsReach level s.runs t.runs

instance : IsPreorder (Session host) (Session.Reaches level) where
  refl s := .refl s.runs
  trans _ _ _ := RunsReach.trans

/-- Whether a witness of a type executes its computation. -/
def Session.computes (s : Session host) (d : Descriptor) : Bool :=
  match activeMode? s.runs with
  | none => true
  | some .compile => false
  | some .prove => ((s.registry.codec d).width ()).toOption.isSome

/-- The session in which a memoized computation is executed, if it is: the next slot is reserved,
and was empty. Without a context nothing is reserved. -/
def Session.reserved? (s : Session host) : Option (Session host) :=
  match s.contexts with
  | [] => some s
  | ctx :: outer =>
    if (ctx.slot? ctx.cursor).isSome then none
    else some { s with contexts := ctx.reserve.2 :: outer }

theorem Session.reserved?_runs {t : Session host} (h : s.reserved? = some t) :
    t.runs = s.runs := by
  unfold reserved? at h
  split at h
  · cases h
    rfl
  · obtain ⟨-, hSession⟩ := Option.ite_none_left_eq_some.1 h
    cases hSession
    rfl

namespace Leads

theorem ofCircuit {Q : List Run → α → Prop} {c : Circuit α}
    (h : Leads (RunsReach level) Q c s.runs) :
    Leads (Session.Reaches level) (fun t a => Q t.runs a) (liftM c : Construction host α) s :=
  ⟨h.1, h.2⟩

/-- Looking at the session leaves it as it is. -/
theorem read_bind {R : Session host → Session host → Prop} {Q : Session host → β → Prop}
    {f : Session host → α} {next : α → Construction host β} (h : Leads R Q (next (f s)) s) :
    Leads R Q (Construction.read f >>= next) s := h

end Leads

namespace Construction

/-! ## Private inputs -/

theorem mem_inputsFrom {mode : Mode} {index : Nat} {values : List (Option Element)} {s : Signal}
    (h : s ∈ inputsFrom mode index values) : ∃ k value?, values[k]? = some value? ∧
      s = .variable ⟨index + k, Run.keptValue mode value?⟩ := by
  induction values generalizing index with
  | nil => cases h
  | cons value? rest ih =>
      rcases List.mem_cons.1 h with rfl | h
      · exact ⟨0, value?, rfl, rfl⟩
      · obtain ⟨k, other?, hFound, rfl⟩ := ih h
        refine ⟨k + 1, other?, hFound, ?_⟩
        rw [Nat.add_assoc, Nat.add_comm 1 k]

/-- New private inputs belong to their run. -/
theorem owns_introduce (run : Run) (values : List (Option Element)) :
    ∀ s ∈ (run.introduce values).1, (run.introduce values).2.Owns s := by
  rw [Run.introduce_eq]
  intro s hs
  obtain ⟨k, value?, hFound, rfl⟩ := mem_inputsFrom hs
  show (run.values ++ _)[run.values.size + k]? = some _
  rw [Array.getElem?_append_right (Nat.le_add_right _ _), Nat.add_sub_cancel_left,
    List.getElem?_toArray, List.getElem?_map, hFound]
  rfl

theorem allocateInputs_leads {runs : List Run} {values : List (Option Element)}
    (h : activeMode? runs = some .prove → ∀ value? ∈ values, value?.isSome = true) :
    WiringLeads level (SignalsConfined level) (allocateInputs values) runs := by
  cases runs with
  | nil => exact ⟨.nil, List.forall_mem_nil _⟩
  | cons run outer =>
      refine ⟨.single outer fun _ => .introduce values fun hMode => h (congrArg some hMode), ?_⟩
      exact fun s hs _ => owns_introduce run values s hs

theorem counted_leads {P : α → Prop} (size : Nat) {compute : Construction host (List Element × α)}
    (h : Leads (Session.Reaches level) (fun _ out => P out.2) compute s) :
    Leads (Session.Reaches level) (fun _ out => P out.2) (counted size compute) s := by
  refine h.bind fun out t _ hOut => ?_
  obtain ⟨values, a⟩ := out
  show Leads _ _ (if values.length = size then _ else _) t
  split
  · exact .pure hOut
  · exact .lift nofun

/-- Private inputs are a step of the run that is followed, after what is computed for them. -/
theorem introduce_leads {P : α → Prop} (size : Nat)
    {compute : Construction host (List Element × α)}
    (h : activeMode? s.runs ≠ some .compile →
      Leads (Session.Reaches level) (fun _ out => P out.2) compute s) :
    Leads (Session.Reaches level)
      (fun t out => SignalsConfined level t.runs out.1 ∧ ∀ a, out.2 = some a → P a)
      (introduce size compute) s := by
  unfold introduce
  refine Leads.read_bind ?_
  rcases hMode : activeMode? s.runs with _ | _ | _
  · refine (counted_leads size (h (by rw [hMode]; nofun))).bind fun out t _ hOut => .pure ⟨?_, ?_⟩
    · intro x hx
      obtain ⟨value, -, rfl⟩ := List.mem_map.1 hx
      exact confined_constant value
    · exact fun a ha => Option.some.inj ha ▸ hOut
  · have hBlank : ∀ value? ∈ List.replicate size (none : Option Element),
        activeMode? s.runs = some .prove → value?.isSome = true := by
      rw [hMode]
      exact fun _ _ => nofun
    refine (Leads.ofCircuit (allocateInputs_leads fun hProve value? hMem =>
      hBlank value? hMem hProve).lift).bind fun signals t _ hSignals => .pure ⟨hSignals, nofun⟩
  · refine (counted_leads size (h (by rw [hMode]; nofun))).bind fun out t _ hOut => ?_
    have hGiven : ∀ value? ∈ out.1.map some, value?.isSome = true := by
      intro value? hMem
      obtain ⟨x, -, rfl⟩ := List.mem_map.1 hMem
      rfl
    exact (Leads.ofCircuit (allocateInputs_leads fun _ => hGiven).lift).bind
      fun signals u _ hSignals => .pure ⟨hSignals, fun a ha => Option.some.inj ha ▸ hOut⟩

/-! ## Witnesses -/

theorem elementsOf_leads (d : Descriptor) (v : Value) (s : Session host) :
    Leads (Session.Reaches level)
      (fun _ _ => ∃ fields, (s.registry.codec d).toFields v = .ok fields) (elementsOf d v) s := by
  refine Leads.read_bind (Leads.lift_bind fun fields hFields => ?_)
  unfold Leads
  rw [mapM_lift_eq]
  exact ⟨.refl s.runs, fun _ _ => ⟨fields, hFields⟩⟩

/-- What a witness computes: the elements of a value, and auxiliary entries, which are host
data. -/
theorem encoded_leads (d : Descriptor) {compute : Construction host Value}
    (h : RunsReach level s.runs (compute s).2.runs) :
    Leads (Session.Reaches level) (fun _ out => ∀ a ∈ out.2, Value.HostData a)
      (do
        let v ← compute
        let aux := (← codecOf d).auxiliary v
        return (← elementsOf d v, aux)) s := by
  refine (Leads.of_reaches h).bind fun v t _ _ => Leads.read_bind ?_
  refine (elementsOf_leads d v t).bind fun elements u _ hEncoded => .pure ?_
  obtain ⟨fields, hFields⟩ := hEncoded
  exact Codec.hostData_of_toFields (t.registry.uniform_codec d) hFields

/-- A witness leaves a history if its computation does, in case it is executed. -/
theorem witness_reaches {d : Descriptor} {compute : Construction host Value}
    (h : s.computes d = true → RunsReach level s.runs (compute s).2.runs) :
    RunsReach level s.runs (witness d compute s).2.runs := by
  suffices hAll : Leads (Session.Reaches level) Anything (witness d compute) s from hAll.1
  refine Leads.read_bind ?_
  split
  · next hUnchecked =>
      refine .of_reaches (h ?_)
      have hEmpty : s.runs = [] := by simpa using hUnchecked
      rw [Session.computes, hEmpty]
      rfl
  · refine Leads.read_bind (Leads.lift_bind fun width hWidth => ?_)
    refine (introduce_leads width.fields (P := fun aux => ∀ a ∈ aux, Value.HostData a)
      fun hMode => encoded_leads d (h ?_)).bind ?_
    · rcases hActive : activeMode? s.runs with _ | _ | _
      · rw [Session.computes, hActive]
      · exact absurd hActive hMode
      · rw [Session.computes, hActive, hWidth]
        rfl
    · rintro ⟨fields, aux?⟩ t - ⟨hFields, hAux⟩
      refine Leads.read_bind (Leads.lift_bind fun width' _ => Leads.lift_bind fun v hv => ?_)
      have hEntries : ∀ a ∈ aux?.getD (List.replicate width'.aux Value.null), a.HostData := by
        cases aux? with
        | none => exact fun a ha => List.eq_of_mem_replicate ha ▸ Value.hostData_null
        | some aux => exact hAux aux rfl
      have hConfining := t.registry.confining_codec d
      have hValue : v.Confined level t.runs := Codec.ofFieldsWithAux_confined hConfining hFields
        (fun a ha => (hEntries a ha).confined) hv
      exact (Leads.of_reaches (Codec.check_reaches hConfining hValue)).ofCircuit.bind
        fun _ _ _ _ => .pure trivial

/-! ## Memoized witnesses -/

theorem computeSlot_leads (d : Descriptor) {compute : Construction host Value}
    (h : RunsReach level s.runs (compute s).2.runs) :
    Leads (Session.Reaches level) Anything (computeSlot d compute) s :=
  (Leads.of_reaches h).bind fun v t _ _ => (elementsOf_leads d v t).bind fun _ _ _ _ =>
    Leads.read_bind (.pure trivial)

theorem updateContext_leads (f : MemoContext → α × MemoContext) (s : Session host) :
    Leads (Session.Reaches level) Anything (updateContext f) s := by
  refine .of_reaches ?_
  obtain ⟨runs, contexts, registry, entropy, data⟩ := s
  cases contexts <;> exact .refl runs

/-- A computation is pinned in the session in which the next slot is reserved, and only if the
slot is empty. -/
theorem pinned_reaches {d : Descriptor} {compute : Construction host Value}
    (h : ∀ t, s.reserved? = some t → RunsReach level t.runs (compute t).2.runs) :
    RunsReach level s.runs (pinned d compute s).2.runs := by
  cases hContexts : s.contexts with
  | nil =>
      rw [pinned_unmemoized hContexts]
      exact h s (by rw [Session.reserved?, hContexts])
  | cons ctx outer =>
      cases hSlot : ctx.slot? ctx.cursor with
      | some slot =>
          rw [pinned_filled hContexts hSlot, replay_eq]
          exact .refl s.runs
      | none =>
          have hReserved : s.reserved? = some { s with contexts := ctx.reserve.2 :: outer } := by
            simp only [Session.reserved?, hContexts, hSlot]
            rfl
          rw [pinned_empty hContexts hSlot]
          refine ((computeSlot_leads d (h _ hReserved)).bind fun slot t _ _ =>
            .of_reaches ?_ : Leads (Session.Reaches level) Anything _ _).1
          refine ((updateContext_leads _ t).bind fun _ u _ _ => .of_reaches ?_ :
            Leads (Session.Reaches level) Anything _ t).1
          rw [replay_eq]
          exact .refl u.runs

theorem memoizedWitness_reaches {d : Descriptor} {compute : Construction host Value}
    (h : s.computes d = true → ∀ t, s.reserved? = some t →
      RunsReach level t.runs (compute t).2.runs) :
    RunsReach level s.runs (memoizedWitness d compute s).2.runs := by
  rw [memoizedWitness_eq]
  refine witness_reaches fun hComputes => ?_
  split
  · next hEmpty =>
      exact h hComputes s (by rw [Session.reserved?, List.isEmpty_iff.1 hEmpty])
  · exact pinned_reaches (h hComputes)

/-! ## The blinding value -/

theorem blindingElement_leads (s : Session host) :
    Leads (Session.Reaches level) Anything blindingElement s := by
  have hDraw (t : Session host) : Leads (Session.Reaches level) Anything drawElement t :=
    .of_reaches (.refl t.runs)
  refine (updateContext_leads _ s).bind ?_
  rintro (_ | _ | x) t - -
  · exact hDraw t
  · exact (hDraw t).bind fun _ u _ _ => (updateContext_leads _ u).bind fun _ _ _ _ => .pure trivial
  · exact .pure trivial

theorem blindingValue_reaches (s : Session host) :
    RunsReach level s.runs (blindingValue s).2.runs := by
  refine (Leads.bind (P := Anything) (.of_reaches (witness_reaches fun _ => ?_)) fun _ _ _ _ =>
    .lift fun _ _ => trivial : Leads (Session.Reaches level) Anything _ s).1
  exact ((blindingElement_leads s).bind fun _ _ _ _ => .pure trivial :
    Leads (Session.Reaches level) Anything _ s).1

/-! ## Nested passes and contexts -/

theorem inRun_of_runs {mode : Mode} {body : Construction host α} {run : Run} {outer : List Run}
    (h : (body (s.opened (.start mode))).2.runs = run :: outer) :
    inRun mode body s = ((body (s.opened (.start mode))).1.map (·, run),
      { (body (s.opened (.start mode))).2 with runs := outer }) := by
  rw [inRun_eq_closeRun, closeRun, h]

/-- When a pass ends, the runs around it are as they were. -/
theorem inRun_runs {mode : Mode} {body : Construction host α}
    (h : RunsReach level (s.opened (.start mode)).runs (body (s.opened (.start mode))).2.runs) :
    (inRun mode body s).2.runs = s.runs := by
  obtain ⟨run, hRuns, -⟩ := RunsReach.exists_cons h
  rw [inRun_of_runs hRuns]

/-- A compile pass returns what its run leaves behind, if its body succeeds. -/
theorem compile_of_runs {body : Construction host α} {run : Run} {outer : List Run}
    (h : (body (s.opened (.start .compile))).2.runs = run :: outer) :
    (compile body s).1 =
      (body (s.opened (.start .compile))).1.map fun _ => run.constraintSystem := by
  have hRun := inRun_of_runs h
  unfold compile
  rcases hBody : (body (s.opened (.start .compile))).1 with e | a
  · rw [hBody] at hRun
    rw [bind_error hRun]
    rfl
  · rw [hBody] at hRun
    rw [bind_ok hRun]
    rfl

/-- A prove pass returns what its body does and what its run leaves behind, if the body succeeds
and the run is accepted. -/
theorem prove_of_runs {body : Construction host α} {run : Run} {outer : List Run}
    (h : (body (s.opened (.start .prove))).2.runs = run :: outer) :
    (prove body s).1 = (body (s.opened (.start .prove))).1 >>= fun a =>
      run.verify.map fun _ => (a, run.constraintSystem) := by
  have hRun := inRun_of_runs h
  unfold prove
  rcases hBody : (body (s.opened (.start .prove))).1 with e | a
  · rw [hBody] at hRun
    rw [bind_error hRun]
    rfl
  · rw [hBody] at hRun
    rw [bind_ok hRun]
    show ((liftM run.verify >>= fun _ => pure (a, run.constraintSystem) :
      Construction host _) _).1 = run.verify.map _
    cases run.verify <;> rfl

theorem compile_reaches {body : Construction host α}
    (h : RunsReach level (s.opened (.start .compile)).runs
      (body (s.opened (.start .compile))).2.runs) :
    RunsReach level s.runs (compile body s).2.runs := by
  refine (Leads.bind (P := Anything) (.of_reaches ?_) fun _ _ _ _ => .pure trivial :
    Leads (Session.Reaches level) Anything _ s).1
  show RunsReach level s.runs _
  rw [inRun_runs h]
  exact .refl s.runs

theorem prove_reaches {body : Construction host α}
    (h : RunsReach level (s.opened (.start .prove)).runs
      (body (s.opened (.start .prove))).2.runs) :
    RunsReach level s.runs (prove body s).2.runs := by
  refine (Leads.bind (P := Anything) (.of_reaches ?_) fun _ _ _ _ =>
    Leads.lift_bind fun _ _ => .pure trivial : Leads (Session.Reaches level) Anything _ s).1
  show RunsReach level s.runs _
  rw [inRun_runs h]
  exact .refl s.runs

theorem whereValued_reaches {body : Construction host Unit}
    (h : haveValues s.runs = true → RunsReach level s.runs (body s).2.runs) :
    RunsReach level s.runs (whereValued body s).2.runs := by
  suffices hAll : Leads (Session.Reaches level) Anything (whereValued body) s from hAll.1
  refine Leads.read_bind ?_
  split
  · next hValued => exact .of_reaches (h hValued)
  · exact .pure trivial

theorem inContext_runs (ctx : MemoContext) (body : Construction host α) (s : Session host) :
    (inContext ctx body s).2.runs = (body { s with contexts := ctx :: s.contexts }).2.runs := by
  unfold inContext
  rcases body { s with contexts := ctx :: s.contexts } with ⟨result, t⟩
  obtain ⟨runs, contexts, registry, entropy, data⟩ := t
  cases contexts <;> rfl

end Construction

end TypedCircuit
