import TypedCircuit.Proofs.Scopes.Course
import TypedCircuit.Proofs.Scopes.Restoration

/-!
# Compile passes do not depend on computations

The computations of private inputs and of witnesses, and whatever asks to be executed where there
are values, are there for the host. They may be different from one execution of a body to the
next: they may look up secrets, draw random words or fail. A compile pass executes none of them,
so it is the same whatever they are, with the same circuit or the same error, and it leaves the
open contexts as they are. It neither reserves a slot nor draws a blinding value, and a context
that a body inside of the pass is executed in is given back as it was.

The exception is a prove pass inside of the compile pass, which has values of its own. A program
*without prove passes* begins none, unless it is in a computation on the host.

## Main results

* `Program.SameOffHost.run_eq` — in a compile pass, programs that differ in computations only do
  the same.
* `Program.ComesTo.compiling` — and come to no other mode.
* `Program.compile_independent` — a compile pass does not depend on computations.
-/

namespace TypedCircuit

open Construction (compile inContext)

variable {host α β γ : Type} {s t : Session host}

/-! ## One operation of a compile pass -/

theorem RunsGrow.activeMode?_eq {runs runs' : List Run} (h : RunsGrow runs runs') :
    activeMode? runs' = activeMode? runs := by
  cases h with
  | nil => rfl
  | cons h => exact congrArg some h.mode_eq

/-- In a compile pass no witness executes its computation. -/
theorem Session.computes_eq_false (hMode : activeMode? s.runs = some .compile) (d : Descriptor) :
    s.computes d = false := by
  rw [computes, hMode]

/-- An operation on the innermost run leaves the contexts of a compile pass as they are. -/
theorem Call.contexts_compile (call : Call β) (hMode : activeMode? s.runs = some .compile) :
    (call.perform s).2.contexts = s.contexts := by
  cases call with
  | blinding =>
      refine (Construction.blindingValue_contexts s).trans ?_
      rw [Session.computes_eq_false hMode]
      rfl
  | _ => rfl

namespace Scope

/-- Whether an operation is a prove pass. -/
def IsProve : Scope β γ → Prop
  | prove => True
  | introduce _ | witness _ | memoizedWitness _ | whereValued | compile | inContext _ => False

variable {scope : Scope β γ} {body : Construction host β}

/-- In a compile pass, only prove passes execute their bodies in another mode. -/
theorem activeMode?_start (hProve : ¬ scope.IsProve)
    (hMode : activeMode? s.runs = some .compile) (hStart : scope.start? s = some t) :
    activeMode? t.runs = some .compile := by
  by_cases hHost : scope.OnHost
  · rw [hHost.start?_eq_none hMode] at hStart
    cases hStart
  · cases scope with
    | introduce | witness | memoizedWitness | whereValued => exact absurd trivial hHost
    | compile => cases hStart; rfl
    | prove => exact absurd trivial hProve
    | inContext ctx => cases hStart; exact hMode

/-- In a compile pass, a body is executed above the open contexts. -/
theorem contexts_start (hMode : activeMode? s.runs = some .compile)
    (hStart : scope.start? s = some t) : s.contexts <:+ t.contexts := by
  by_cases hClear : scope.Transparent
  · exact ⟨[], (hClear.contexts_start hStart).symm⟩
  · cases scope with
    | introduce | witness | whereValued | compile | prove => exact absurd trivial hClear
    | memoizedWitness d =>
        have hHost : (Scope.memoizedWitness d).OnHost := trivial
        rw [hHost.start?_eq_none hMode] at hStart
        cases hStart
    | inContext ctx => cases hStart; exact List.suffix_cons ctx s.contexts

/-- An operation leaves the contexts of a compile pass as they are if its body does, in case it is
executed. -/
theorem contexts_compile (hMode : activeMode? s.runs = some .compile)
    (h : ∀ t, scope.start? s = some t → (body t).2.contexts = t.contexts) :
    (scope.enclose body s).2.contexts = s.contexts := by
  by_cases hClear : scope.Transparent
  · rw [hClear.contexts_enclose]
    cases hStart : scope.start? s with
    | none => rfl
    | some t => exact (h t hStart).trans (hClear.contexts_start hStart)
  · cases scope with
    | introduce | witness | whereValued | compile | prove => exact absurd trivial hClear
    | memoizedWitness d =>
        refine (Construction.memoizedWitness_contexts d body s).trans ?_
        rw [Session.computes_eq_false hMode]
        rfl
    | inContext ctx =>
        show (Construction.inContext ctx body s).2.contexts = s.contexts
        rw [Construction.inContext_eq (h _ rfl)]

end Scope

namespace Program

/-! ## Programs in a compile pass -/

/-- Whether a program begins no prove pass, apart from the computations on the host. -/
def WithoutProve : {α : Type} → Program host α → Prop
  | _, returns _ => True
  | _, does _ _ next => ∀ result, (next result).WithoutProve
  | _, calls _ next => ∀ result, (next result).WithoutProve
  | _, encloses scope body next =>
    ¬ scope.IsProve ∧ (scope.OnHost ∨ body.WithoutProve) ∧ ∀ result, (next result).WithoutProve

/-- The body of an operation that a compile pass executes begins no prove pass. -/
theorem withoutProve_body {scope : Scope β γ} {body : Program host β}
    (h : scope.OnHost ∨ body.WithoutProve) (hMode : activeMode? s.runs = some .compile)
    (hStart : scope.start? s = some t) : body.WithoutProve := by
  refine h.resolve_left fun hHost => ?_
  rw [hHost.start?_eq_none hMode] at hStart
  cases hStart

theorem activeMode?_perform (call : Call β) (hMode : activeMode? s.runs = some .compile) :
    activeMode? (call.perform s).2.runs = some .compile :=
  (call.elementary.runs_grow s).activeMode?_eq.trans hMode

theorem activeMode?_enclose (scope : Scope β γ) (body : Program host β)
    (hMode : activeMode? s.runs = some .compile) :
    activeMode? (scope.enclose body.run s).2.runs = some .compile :=
  ((scope.elementary body.exists_elementary).runs_grow s).activeMode?_eq.trans hMode

/-- In a compile pass a contained program leaves the contexts as they are. -/
theorem contexts_compile {p : Program host α} (hProve : p.WithoutProve) (h : p.Contained)
    (hMode : activeMode? s.runs = some .compile) : (p.run s).2.contexts = s.contexts := by
  induction p generalizing s with
  | returns result => cases result <;> rfl
  | does x hRuns next ih =>
      have hRest := ih (x s).1 (hProve _) (h.2 _) ((congrArg activeMode? (hRuns s)).trans hMode)
      exact hRest.trans (h.1 s)
  | calls call next ih =>
      have hRest := ih (call.perform s).1 (hProve _) (h _) (activeMode?_perform call hMode)
      exact hRest.trans (call.contexts_compile hMode)
  | encloses scope body next ihBody ih =>
      have hRest := ih (scope.enclose body.run s).1 (hProve.2.2 _) (h.2 _)
        (activeMode?_enclose scope body hMode)
      refine hRest.trans (scope.contexts_compile hMode fun t hStart => ?_)
      exact ihBody (withoutProve_body hProve.2.1 hMode hStart) h.1
        (scope.activeMode?_start hProve.1 hMode hStart)

/-- In a compile pass a program without prove passes comes to moments of that mode only. -/
theorem ComesTo.compiling {p : Program host α} {q : Program host β} (h : p.ComesTo s q t)
    (hProve : p.WithoutProve) (hMode : activeMode? s.runs = some .compile) :
    q.WithoutProve ∧ activeMode? t.runs = some .compile := by
  induction h with
  | here p s => exact ⟨hProve, hMode⟩
  | does x hRuns next _ ih => exact ih (hProve _) ((congrArg activeMode? (hRuns _)).trans hMode)
  | calls call next _ ih => exact ih (hProve _) (activeMode?_perform call hMode)
  | inside scope body next hStart _ ih =>
      exact ih (withoutProve_body hProve.2.1 hMode hStart)
        (scope.activeMode?_start hProve.1 hMode hStart)
  | after scope body next _ ih =>
      exact ih (hProve.2.2 _) (activeMode?_enclose scope body hMode)

/-- And at each of them the contexts that were open are as they were. -/
theorem ComesTo.contexts_compile {p : Program host α} {q : Program host β}
    (h : p.ComesTo s q t) (hProve : p.WithoutProve) (hContained : p.Contained)
    (hMode : activeMode? s.runs = some .compile) : s.contexts <:+ t.contexts := by
  induction h with
  | here p s => exact List.suffix_refl _
  | does x hRuns next _ ih =>
      have hRest := ih (hProve _) (hContained.2 _) ((congrArg activeMode? (hRuns _)).trans hMode)
      rwa [hContained.1] at hRest
  | calls call next _ ih =>
      have hRest := ih (hProve _) (hContained _) (activeMode?_perform call hMode)
      rwa [call.contexts_compile hMode] at hRest
  | inside scope body next hStart _ ih =>
      exact (scope.contexts_start hMode hStart).trans
        (ih (withoutProve_body hProve.2.1 hMode hStart) hContained.1
          (scope.activeMode?_start hProve.1 hMode hStart))
  | after scope body next _ ih =>
      have hRest := ih (hProve.2.2 _) (hContained.2 _) (activeMode?_enclose scope body hMode)
      rwa [scope.contexts_compile hMode fun t hStart =>
        Program.contexts_compile (withoutProve_body hProve.2.1 hMode hStart) hContained.1
          (scope.activeMode?_start hProve.1 hMode hStart)] at hRest

/-- Two programs that are the same, apart from the computations on the host. -/
inductive SameOffHost : {α : Type} → Program host α → Program host α → Prop where
  | returns {α : Type} (result : Except Error α) : SameOffHost (.returns result) (.returns result)
  | does {α β : Type} (x : Construction host β) (h : ∀ s, (x s).2.runs = s.runs)
    {next next' : Except Error β → Program host α}
    (hNext : ∀ result, SameOffHost (next result) (next' result)) :
    SameOffHost (.does x h next) (.does x h next')
  | calls {α β : Type} (call : Call β) {next next' : Except Error β → Program host α}
    (hNext : ∀ result, SameOffHost (next result) (next' result)) :
    SameOffHost (.calls call next) (.calls call next')
  | computes {α β γ : Type} (scope : Scope β γ) (hHost : scope.OnHost)
    (body body' : Program host β) {next next' : Except Error γ → Program host α}
    (hNext : ∀ result, SameOffHost (next result) (next' result)) :
    SameOffHost (.encloses scope body next) (.encloses scope body' next')
  | encloses {α β γ : Type} (scope : Scope β γ) {body body' : Program host β}
    (hBody : SameOffHost body body') {next next' : Except Error γ → Program host α}
    (hNext : ∀ result, SameOffHost (next result) (next' result)) :
    SameOffHost (.encloses scope body next) (.encloses scope body' next')

namespace SameOffHost

variable {p q : Program host α}

theorem refl (p : Program host α) : p.SameOffHost p := by
  induction p with
  | returns result => exact .returns result
  | does x hRuns next ih => exact .does x hRuns ih
  | calls call next ih => exact .calls call ih
  | encloses scope body next ihBody ih => exact .encloses scope ihBody ih

theorem withoutProve (h : p.SameOffHost q) (hProve : p.WithoutProve) : q.WithoutProve := by
  induction h with
  | returns result => trivial
  | does x hRuns _ ih => exact fun result => ih result (hProve result)
  | calls call _ ih => exact fun result => ih result (hProve result)
  | computes scope hHost _ _ _ ih =>
      exact ⟨hProve.1, .inl hHost, fun result => ih result (hProve.2.2 result)⟩
  | encloses scope _ _ ihBody ih =>
      exact ⟨hProve.1, hProve.2.1.imp_right ihBody, fun result => ih result (hProve.2.2 result)⟩

/-- In a compile pass, programs that are the same apart from computations do the same. -/
theorem run_eq (h : p.SameOffHost q) (hProve : p.WithoutProve)
    (hMode : activeMode? s.runs = some .compile) : p.run s = q.run s := by
  induction h generalizing s with
  | returns result => rfl
  | does x hRuns _ ih =>
      exact ih _ (hProve _) ((congrArg activeMode? (hRuns s)).trans hMode)
  | calls call _ ih => exact ih _ (hProve _) (activeMode?_perform call hMode)
  | @computes _ _ _ scope hHost body body' next next' _ ih =>
      have hSame : scope.enclose body.run s = scope.enclose body'.run s := by
        refine scope.enclose_congr fun t hStart => ?_
        rw [hHost.start?_eq_none hMode] at hStart
        cases hStart
      show (next _).run _ = (next' (scope.enclose body'.run s).1).run (scope.enclose body'.run s).2
      rw [← hSame]
      exact ih _ (hProve.2.2 _) (activeMode?_enclose scope body hMode)
  | @encloses _ _ _ scope body body' _ next next' _ ihBody ih =>
      have hSame : scope.enclose body.run s = scope.enclose body'.run s :=
        scope.enclose_congr fun t hStart =>
          ihBody (withoutProve_body hProve.2.1 hMode hStart)
            (scope.activeMode?_start hProve.1 hMode hStart)
      show (next _).run _ = (next' (scope.enclose body'.run s).1).run (scope.enclose body'.run s).2
      rw [← hSame]
      exact ih _ (hProve.2.2 _) (activeMode?_enclose scope body hMode)

end SameOffHost

/--
Let two bodies be the same apart from the computations on the host, and let them begin no prove
pass. As compile passes they do the same from every session: they end in the same session, and with
the same circuit or the same error. Neither executes a computation on the way. If the bodies are
contained, the open contexts are left as they are, also at every moment on the way, and a context
that a body is executed in on the way is given back as it was.
-/
theorem compile_independent {p q : Program host α} (h : p.SameOffHost q)
    (hProve : p.WithoutProve) (hContained : p.Contained) (s : Session host) :
    compile p.run s = compile q.run s ∧
      (∀ {β γ δ : Type} (scope : Scope β γ) (body : Program host β)
        (next : Except Error γ → Program host δ) (t : Session host),
        p.ComesTo (s.opened (.start .compile)) (.encloses scope body next) t ∨
          q.ComesTo (s.opened (.start .compile)) (.encloses scope body next) t →
        scope.OnHost → scope.start? t = none) ∧
      (compile p.run s).2.contexts = s.contexts ∧
      (∀ {β : Type} (r : Program host β) (t : Session host),
        p.ComesTo (s.opened (.start .compile)) r t → s.contexts <:+ t.contexts) ∧
      ∀ {β δ : Type} (ctx : MemoContext) (body : Program host β)
        (next : Except Error (Except Error β × MemoContext) → Program host δ) (t : Session host),
        p.ComesTo (s.opened (.start .compile)) (.encloses (.inContext ctx) body next) t →
        (inContext ctx body.run t).1.2 = ctx := by
  have hMode : activeMode? (s.opened (.start .compile)).runs = some .compile := rfl
  refine ⟨?_, ?_, ?_, fun r t hComes => hComes.contexts_compile hProve hContained hMode, ?_⟩
  · refine Construction.bind_congr ?_ _
    rw [Construction.inRun_eq_closeRun, Construction.inRun_eq_closeRun, h.run_eq hProve hMode]
  · rintro β γ δ scope body next t (hComes | hComes) hHost
    · exact hHost.start?_eq_none (hComes.compiling hProve hMode).2
    · exact hHost.start?_eq_none (hComes.compiling (h.withoutProve hProve) hMode).2
  · rw [Construction.compile_contexts]
    exact contexts_compile hProve hContained hMode
  · intro β δ ctx body next t hComes
    obtain ⟨hRest, hInner⟩ := hComes.compiling hProve hMode
    have hBody : body.WithoutProve := hRest.2.1.resolve_left not_false
    have hKept : (body.run (t.within ctx)).2.contexts = ctx :: t.contexts :=
      contexts_compile hBody (hComes.contained hContained).1 hInner
    rw [Construction.inContext_eq hKept]

end Program

/-! ## A secret, and no secret -/

/-- Multiplies a private input with a memoized witness and with the blinding value, in a context of
its own, where the private input and the witness are computed by the caller. -/
private def masked (input : Program Unit (List Element × Unit)) (secret : Program Unit Value) :
    Program Unit Signal :=
  .encloses (.introduce 1) input (Program.onSuccess fun inputs =>
    .encloses (.memoizedWitness .field) secret (Program.onSuccess fun v =>
      .encloses (.inContext .empty) (.encloses (.memoizedWitness .field) secret .returns) fun _ =>
        .calls .blinding (Program.onSuccess fun mask =>
          match inputs.1, v with
          | [x], .signal y => .calls (.combine .mul x y) (Program.onSuccess fun xy =>
              .calls (.combine .mul xy mask) .returns)
          | _, _ => .returns (.error .valueUnavailable))))

private theorem sameOffHost_masked (input input' : Program Unit (List Element × Unit))
    (secret secret' : Program Unit Value) :
    (masked input secret).SameOffHost (masked input' secret') := by
  have hInputs : (Scope.introduce 1 : Scope (List Element × Unit) _).OnHost := trivial
  have hWitness : (Scope.memoizedWitness .field).OnHost := trivial
  refine .computes _ hInputs input input' fun result => ?_
  rcases result with e | inputs
  · exact .refl _
  · refine .computes _ hWitness secret secret' fun result => ?_
    rcases result with e | v
    · exact .refl _
    · refine .encloses (.inContext .empty) ?_ fun _ => .refl _
      exact .computes _ hWitness secret secret' fun result => .returns result

private theorem withoutProve_masked (input : Program Unit (List Element × Unit))
    (secret : Program Unit Value) : (masked input secret).WithoutProve := by
  refine ⟨not_false, .inl trivial, fun result => ?_⟩
  rcases result with e | inputs
  · trivial
  · refine ⟨not_false, .inl trivial, fun result => ?_⟩
    rcases result with e | v
    · trivial
    · refine ⟨not_false, .inr ⟨not_false, .inl trivial, fun _ => trivial⟩, fun _ result => ?_⟩
      rcases result with e | mask
      · trivial
      · show Program.WithoutProve (match inputs.1, v with | [x], .signal y => _ | _, _ => _)
        split
        · rintro (e | xy)
          · trivial
          · exact fun _ => trivial
        · trivial

private theorem contained_masked {input : Program Unit (List Element × Unit)}
    {secret : Program Unit Value} (hInput : input.Contained) (hSecret : secret.Contained) :
    (masked input secret).Contained := by
  refine ⟨hInput, fun result => ?_⟩
  rcases result with e | inputs
  · trivial
  · refine ⟨hSecret, fun result => ?_⟩
    rcases result with e | v
    · trivial
    · refine ⟨⟨hSecret, fun _ => trivial⟩, fun _ result => ?_⟩
      rcases result with e | mask
      · trivial
      · show Program.Contained (match inputs.1, v with | [x], .signal y => _ | _, _ => _)
        split
        · rintro (e | xy)
          · trivial
          · exact fun _ => trivial
        · trivial

/-- A session with an open context whose first slot is filled and whose blinding value is not
drawn. -/
private def sealed : Session Unit := (Session.start [] ()).within ⟨#[some ⟨[3], []⟩], 0, none⟩

/-- Computations that know a secret. -/
private def knowing : Program Unit Signal :=
  masked (.returns (.ok ([2], ()))) (.returns (.ok (.ofElement 5)))

/-- Computations that know nothing, and fail. -/
private def ignorant : Program Unit Signal :=
  masked (.returns (.error .valueUnavailable)) (.returns (.error .valueUnavailable))

/-- With the secret and without it the circuit is the same, and the context keeps its cursor and
draws no blinding value. -/
theorem compile_independent_masked :
    knowing.SameOffHost ignorant ∧ knowing.WithoutProve ∧ knowing.Contained ∧
      compile knowing.run sealed = compile ignorant.run sealed ∧
      (compile knowing.run sealed).2.contexts = sealed.contexts ∧
      ∃ cs, (compile ignorant.run sealed).1 = .ok cs ∧ cs.variableCount = 6 := by
  have hSame : knowing.SameOffHost ignorant := sameOffHost_masked _ _ _ _
  have hProve : knowing.WithoutProve := withoutProve_masked _ _
  have hContained : knowing.Contained := contained_masked trivial trivial
  obtain ⟨hCompile, -, hContexts, -⟩ :=
    Program.compile_independent hSame hProve hContained sealed
  exact ⟨hSame, hProve, hContained, hCompile, hContexts, _, rfl, rfl⟩

end TypedCircuit
