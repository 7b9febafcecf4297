import TypedCircuit.Proofs.Runs.Decomposition
import TypedCircuit.Proofs.Scopes.Contexts

/-!
# Scopes are restored

A pass puts a run on top of the open runs, and a body in a context puts a context on top of the
open contexts. What the body does in between it does on top, or deeper inside of scopes of its
own, and it may fail anywhere. When it ends there is one run, or one context, more than before.
That one is taken away, so the runs and the contexts around the body are as they were, whether it
succeeded or failed. What was taken away is not lost: the run is the circuit of the pass, and the
context goes back to the caller with everything that happened to it.

## Main results

* `Program.runs_grow` — a program only grows the innermost run.
* `Program.scopes_restored` — passes and contexts leave what is around them as it was.
-/

namespace TypedCircuit

open Construction (compile prove inContext)

variable {host α : Type} {s : Session host}

/-- What can be written out in elementary operations only grows the innermost run. -/
theorem Construction.IsElementary.runs_grow {x : Construction host α} (h : x.IsElementary)
    (s : Session host) : RunsGrow s.runs (x s).2.runs := by
  obtain ⟨e, hRun⟩ := h
  rw [← hRun]
  exact e.runs_grow s

/-- A program only grows the innermost run. -/
theorem Program.runs_grow (p : Program host α) (s : Session host) :
    RunsGrow s.runs (p.run s).2.runs := Construction.IsElementary.runs_grow p.exists_elementary s

namespace Construction

variable {body : Construction host α} {run : Run} {outer : List Run}

/-- A compile pass takes the innermost run away, whether its body succeeds or fails. -/
theorem compile_runs (h : (body (s.opened (.start .compile))).2.runs = run :: outer) :
    (compile body s).2.runs = outer := by
  have hRun := inRun_of_runs h
  unfold compile
  rcases hBody : (body (s.opened (.start .compile))).1 with e | a
  · rw [hBody] at hRun
    rw [bind_error hRun]
  · rw [hBody] at hRun
    rw [bind_ok hRun]
    rfl

/-- A prove pass takes the innermost run away, whether its body succeeds or fails and whether the
run is accepted. -/
theorem prove_runs (h : (body (s.opened (.start .prove))).2.runs = run :: outer) :
    (prove body s).2.runs = outer := by
  have hRun := inRun_of_runs h
  unfold prove
  rcases hBody : (body (s.opened (.start .prove))).1 with e | a
  · rw [hBody] at hRun
    rw [bind_error hRun]
  · rw [hBody] at hRun
    rw [bind_ok hRun]
    show ((liftM run.verify >>= fun _ => pure (a, run.constraintSystem) :
      Construction host _) _).2.runs = outer
    cases run.verify <;> rfl

end Construction

/--
Let a contained body be executed as a pass or in a context, from any session and wherever it
fails. After a pass the open runs are what they were, and after a context the open contexts are
what they were. A pass has judged the one run that was on top of them in the end, and the context
that is returned is the one that was on top in the end, grown from the context that was given.
-/
theorem Program.scopes_restored {p : Program host α} (h : p.Contained) (s : Session host) :
    (∃ run, (p.run (s.opened (.start .compile))).2.runs = run :: s.runs ∧
      (compile p.run s).1 =
        (p.run (s.opened (.start .compile))).1.map (fun _ => run.constraintSystem) ∧
      (compile p.run s).2.runs = s.runs) ∧
    (∃ run, (p.run (s.opened (.start .prove))).2.runs = run :: s.runs ∧
      (prove p.run s).1 = ((p.run (s.opened (.start .prove))).1 >>= fun a =>
        run.verify.map fun _ => (a, run.constraintSystem)) ∧
      (prove p.run s).2.runs = s.runs) ∧
    ∀ ctx, ∃ ctx', (p.run (s.within ctx)).2.contexts = ctx' :: s.contexts ∧ ctx.Grows ctx' ∧
      (inContext ctx p.run s).1 = ((p.run (s.within ctx)).1, ctx') ∧
      (inContext ctx p.run s).2.contexts = s.contexts := by
  refine ⟨?_, ?_, fun ctx => ?_⟩
  · obtain ⟨run, hRuns, -⟩ := (p.runs_grow (s.opened (.start .compile))).exists_cons
    exact ⟨run, hRuns, Construction.compile_of_runs hRuns, Construction.compile_runs hRuns⟩
  · obtain ⟨run, hRuns, -⟩ := (p.runs_grow (s.opened (.start .prove))).exists_cons
    exact ⟨run, hRuns, Construction.prove_of_runs hRuns, Construction.prove_runs hRuns⟩
  · obtain ⟨ctx', hContexts, hGrows⟩ := (Program.contexts_grow h (s.within ctx)).exists_cons
    refine ⟨ctx', hContexts, hGrows, ?_⟩
    rw [Construction.inContext_eq hContexts]
    exact ⟨rfl, rfl⟩

/-! ## A body that fails in scopes of its own -/

/-- A session with an open run and an open context in which a slot is filled. -/
private def busy : Session Unit :=
  ((Session.start [] ()).opened ((Run.start .prove).introduce [some 7]).2).within
    ⟨#[some ⟨[3], []⟩], 1, none⟩

/-- Fails in a context of its own, inside a prove pass of its own, and then again. -/
private def stumbling : Program Unit Unit :=
  .encloses .prove
    (.encloses (.inContext .empty)
      (.encloses (.memoizedWitness .field) (.returns (.error .valueUnavailable)) .returns)
      fun _ => .returns (.error .valueUnavailable : Except Error Unit))
    fun _ => .encloses (.memoizedWitness .field) (.returns (.ok (.ofElement 5)))
      (Program.onSuccess fun _ => .calls (.assertEqual (.constant 1) (.constant 2)) .returns)

private theorem contained_stumbling : stumbling.Contained :=
  ⟨⟨⟨trivial, fun _ => trivial⟩, fun _ => trivial⟩, fun _ => ⟨trivial, fun result => by
    cases result with
    | error e => trivial
    | ok v => exact fun _ => trivial⟩⟩

/-- A body that fails inside of scopes of its own and at its end leaves the open run alone, and
the context that it was executed in has the slot that it filled before. -/
theorem scopes_restored_stumbling :
    stumbling.Contained ∧ (compile stumbling.run busy).2.runs = busy.runs ∧
      (prove stumbling.run busy).2.runs = busy.runs ∧
      ∃ e ctx', (inContext .empty stumbling.run busy).1 = (.error e, ctx') ∧
        ctx'.slot? 0 = some ⟨[5], []⟩ ∧
        (inContext .empty stumbling.run busy).2.contexts = busy.contexts := by
  obtain ⟨⟨_, -, -, hCompile⟩, ⟨_, -, -, hProve⟩, hContext⟩ :=
    Program.scopes_restored contained_stumbling busy
  obtain ⟨ctx', hContexts, -, hResult, hRestored⟩ := hContext .empty
  obtain ⟨e, hFails⟩ : ∃ e, (stumbling.run (busy.within .empty)).1 = .error e := ⟨_, rfl⟩
  rw [hFails] at hResult
  refine ⟨contained_stumbling, hCompile, hProve, e, ctx', hResult, ?_, hRestored⟩
  obtain rfl := (List.cons.inj hContexts).1
  rfl

end TypedCircuit
