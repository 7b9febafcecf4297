import TypedCircuit.Proofs.Runs.Witnesses

/-!
# Programs

The body of a pass is code of the caller. Here it is a tree of operations. It calls operations of
circuits on signals, on bits and on values of types, it encloses further bodies in private
inputs, witnesses, passes and contexts, and in between it does whatever leaves the open runs as
they are: it looks at the session, registers types, draws random words, compares values, converts
documents. Whatever an operation returns decides how the body goes on, and so does an error,
which need not be the end of it.

A program *keeps to* a level if whatever it calls in the run of that level, it calls with
constants and with variables of this run. The condition follows the execution, so it asks nothing
of operations that are not executed.

## Main results

* `Call.reaches`, `Scope.reaches` — what one operation does to open runs.
* `Program.reaches` — a program that keeps to a level leaves a history of its run.
* `Program.Visits.above` — and so do all sessions on the way, also where runs are nested.
-/

namespace TypedCircuit

variable {host : Type} {level : Nat} {s t : Session host}

/-! ## Operations on the innermost run -/

/-- An operation on the innermost run. What bits can do besides is an operation on signals. -/
inductive Call : Type → Type where
  | combine (operation : Gate.Operation) (a b : Signal) : Call Signal
  | assertEqual (a b : Signal) : Call Unit
  | assertBoolean (a : Signal) : Call Unit
  | assertRange (a : Signal) (bits : Nat) : Call Unit
  | not (a : Bit) : Call Bit
  | and (a b : Bit) : Call Bit
  | or (a b : Bit) : Call Bit
  | check (d : Descriptor) (v : Value) : Call Unit
  | equal (d : Descriptor) (v w : Value) : Call Bit
  | assertSame (d : Descriptor) (v w : Value) : Call Unit
  | select (d : Descriptor) (condition : Bit) (yes no : Value) : Call Value
  | switch (d : Descriptor) (mask : List Bit) (candidates : List Value) : Call Value
  | pack (input : HashInput) : Call (List Signal)
  | blinding : Call Signal

namespace Call

variable {β : Type}

/-- Performs an operation. -/
def perform : Call β → Construction host β
  | combine operation a b => (a.combine operation b : Circuit Signal)
  | assertEqual a b => a.assertEqual b
  | assertBoolean a => a.assertBoolean
  | assertRange a bits => a.assertRange bits
  | not a => (a.not : Circuit Bit)
  | and a b => (a.and b : Circuit Bit)
  | or a b => (a.or b : Circuit Bit)
  | check d v => do (← Construction.codecOf d).check v
  | equal d v w => do (← Construction.codecOf d).equal v w
  | assertSame d v w => do (← Construction.codecOf d).assertEqual v w
  | select d condition yes no => do (← Construction.codecOf d).select condition yes no
  | switch d mask candidates => do (← Construction.codecOf d).switch mask candidates
  | pack input => (input.pack : Circuit (List Signal))
  | blinding => Construction.blindingValue

/-- Whether everything that an operation is given belongs to the innermost run, if that is of the
level that is followed. -/
def Confined (level : Nat) (runs : List Run) : Call β → Prop
  | combine _ a b | assertEqual a b =>
    TypedCircuit.Confined level runs a ∧ TypedCircuit.Confined level runs b
  | assertBoolean a | assertRange a _ => TypedCircuit.Confined level runs a
  | not a => a.Confined level runs
  | and a b | or a b => a.Confined level runs ∧ b.Confined level runs
  | check _ v => v.Confined level runs
  | equal _ v w | assertSame _ v w => v.Confined level runs ∧ w.Confined level runs
  | select _ condition yes no =>
    condition.Confined level runs ∧ yes.Confined level runs ∧ no.Confined level runs
  | switch _ mask candidates =>
    (∀ bit ∈ mask, bit.Confined level runs) ∧ ValuesConfined level runs candidates
  | pack input => input.Confined level runs
  | blinding => True

/-- An operation leaves a history, whether it succeeds or fails. -/
theorem reaches {call : Call β} (h : call.Confined level s.runs) :
    RunsReach level s.runs (call.perform s).2.runs := by
  have hConfining (d : Descriptor) := s.registry.confining_codec d
  cases call with
  | combine operation a b => exact (combine_leads operation h.1 h.2).1
  | assertEqual a b => exact Signal.assertEqual_reaches h.1 h.2
  | assertBoolean a => exact Rule.boolean.assert_reaches h
  | assertRange a bits => exact (Rule.range bits).assert_reaches h
  | not a => exact (Bit.not_leads h).1
  | and a b => exact (Bit.and_leads h.1 h.2).1
  | or a b => exact (Bit.or_leads h.1 h.2).1
  | check d v => exact Codec.check_reaches (hConfining d) h
  | equal d v w => exact Codec.equal_reaches (hConfining d) h.1 h.2
  | assertSame d v w => exact Codec.assertEqual_reaches (hConfining d) h.1 h.2
  | select d condition yes no => exact Codec.select_reaches (hConfining d) h.1 h.2.1 h.2.2
  | switch d mask candidates => exact Codec.switch_reaches (hConfining d) h.1 h.2
  | pack input => exact HashInput.pack_reaches h
  | blinding => exact Construction.blindingValue_reaches s

end Call

/-! ## Operations with bodies -/

/-- An operation that may execute a body, with what the body returns and what it makes of that. -/
inductive Scope : Type → Type → Type 1 where
  | introduce {β : Type} (size : Nat) : Scope (List Element × β) (List Signal × Option β)
  | witness (d : Descriptor) : Scope Value Value
  | memoizedWitness (d : Descriptor) : Scope Value Value
  | whereValued : Scope Unit Unit
  | compile {β : Type} : Scope β ConstraintSystem
  | prove {β : Type} : Scope β (β × ConstraintSystem)
  | inContext {β : Type} (ctx : MemoContext) : Scope β (Except Error β × MemoContext)

namespace Scope

variable {β γ : Type}

/-- Performs an operation with a body. -/
def enclose (body : Construction host β) : Scope β γ → Construction host γ
  | introduce size => Construction.introduce size body
  | witness d => Construction.witness d body
  | memoizedWitness d => Construction.memoizedWitness d body
  | whereValued => Construction.whereValued body
  | compile => Construction.compile body
  | prove => Construction.prove body
  | inContext ctx => (Construction.inContext ctx body : StateM (Session host) _)

/-- The session in which a body is executed, if it is. -/
def start? (s : Session host) : Scope β γ → Option (Session host)
  | introduce _ => if activeMode? s.runs = some .compile then none else some s
  | witness d => if s.computes d then some s else none
  | memoizedWitness d => if s.computes d then s.reserved? else none
  | whereValued => if haveValues s.runs then some s else none
  | compile => some (s.opened (.start .compile))
  | prove => some (s.opened (.start .prove))
  | inContext ctx => some { s with contexts := ctx :: s.contexts }

/-- An operation leaves a history if its body does, in case it is executed. -/
theorem reaches {scope : Scope β γ} {body : Construction host β}
    (h : ∀ t, scope.start? s = some t → RunsReach level t.runs (body t).2.runs) :
    RunsReach level s.runs (scope.enclose body s).2.runs := by
  cases scope with
  | introduce size =>
      refine (Construction.introduce_leads size (P := fun _ => True) fun hMode => ?_).1
      exact ⟨h s (if_neg hMode), fun _ _ => trivial⟩
  | witness d => exact Construction.witness_reaches fun hComputes => h s (if_pos hComputes)
  | memoizedWitness d =>
      exact Construction.memoizedWitness_reaches fun hComputes t hReserved =>
        h t ((if_pos hComputes).trans hReserved)
  | whereValued => exact Construction.whereValued_reaches fun hValued => h s (if_pos hValued)
  | compile => exact Construction.compile_reaches (h _ rfl)
  | prove => exact Construction.prove_reaches (h _ rfl)
  | inContext ctx =>
      show RunsReach level s.runs (Construction.inContext ctx body s).2.runs
      rw [Construction.inContext_runs]
      exact h _ rfl

/-- A body is executed in the runs that are open, or in a new one. -/
theorem start?_runs {scope : Scope β γ} (h : scope.start? s = some t) :
    t.runs = s.runs ∨ ∃ mode, t = s.opened (.start mode) := by
  cases scope with
  | introduce size =>
      obtain ⟨-, hStart⟩ := Option.ite_none_left_eq_some.1 h
      exact .inl (congrArg Session.runs (Option.some.inj hStart)).symm
  | witness d | whereValued =>
      obtain ⟨-, hStart⟩ := Option.ite_none_right_eq_some.1 h
      exact .inl (congrArg Session.runs (Option.some.inj hStart)).symm
  | memoizedWitness d =>
      exact .inl (Session.reserved?_runs (Option.ite_none_right_eq_some.1 h).2)
  | compile => exact .inr ⟨.compile, (Option.some.inj h).symm⟩
  | prove => exact .inr ⟨.prove, (Option.some.inj h).symm⟩
  | inContext ctx => exact .inl (congrArg Session.runs (Option.some.inj h)).symm

end Scope

/-! ## Programs -/

/-- The body of a pass. -/
inductive Program (host : Type) : Type → Type 1 where
  /-- The end, with a value or an error. -/
  | returns {α : Type} (result : Except Error α) : Program host α
  /-- Anything that leaves the open runs as they are. -/
  | does {α β : Type} (x : Construction host β) (h : ∀ s, (x s).2.runs = s.runs)
    (next : Except Error β → Program host α) : Program host α
  /-- An operation on the innermost run. -/
  | calls {α β : Type} (call : Call β) (next : Except Error β → Program host α) : Program host α
  /-- An operation with a body. -/
  | encloses {α β γ : Type} (scope : Scope β γ) (body : Program host β)
    (next : Except Error γ → Program host α) : Program host α

namespace Program

/-- Executes a program. -/
def run : {α : Type} → Program host α → Construction host α
  | _, returns result => liftM result
  | _, does x _ next => fun s => (next (x s).1).run (x s).2
  | _, calls call next => fun s => (next (call.perform s).1).run (call.perform s).2
  | _, encloses scope body next => fun s =>
    (next (scope.enclose body.run s).1).run (scope.enclose body.run s).2

/-- Whatever a program calls in the run of a level, it calls with what belongs to this run. -/
def KeepsTo (level : Nat) : {α : Type} → Program host α → Session host → Prop
  | _, returns _, _ => True
  | _, does x _ next, s => (next (x s).1).KeepsTo level (x s).2
  | _, calls call next, s =>
    call.Confined level s.runs ∧ (next (call.perform s).1).KeepsTo level (call.perform s).2
  | _, encloses scope body next, s =>
    (∀ t, scope.start? s = some t → body.KeepsTo level t) ∧
      (next (scope.enclose body.run s).1).KeepsTo level (scope.enclose body.run s).2

/-- The sessions that a program goes through: before and after each operation, and in bodies
while they are executed. -/
inductive Visits : {α : Type} → Program host α → Session host → Session host → Prop where
  | here {α : Type} (p : Program host α) (s : Session host) : Visits p s s
  | does {α β : Type} (x : Construction host β) (h : ∀ s, (x s).2.runs = s.runs)
    (next : Except Error β → Program host α) {s t : Session host}
    (hNext : Visits (next (x s).1) (x s).2 t) : Visits (.does x h next) s t
  | calls {α β : Type} (call : Call β) (next : Except Error β → Program host α)
    {s t : Session host} (hNext : Visits (next (call.perform s).1) (call.perform s).2 t) :
    Visits (.calls call next) s t
  | inside {α β γ : Type} (scope : Scope β γ) (body : Program host β)
    (next : Except Error γ → Program host α) {s start t : Session host}
    (hStart : scope.start? s = some start) (hBody : Visits body start t) :
    Visits (.encloses scope body next) s t
  | after {α β γ : Type} (scope : Scope β γ) (body : Program host β)
    (next : Except Error γ → Program host α) {s t : Session host}
    (hNext : Visits (next (scope.enclose body.run s).1) (scope.enclose body.run s).2 t) :
    Visits (.encloses scope body next) s t

variable {α β : Type}

/-- Goes on with a result, and ends with an error. -/
def onSuccess (next : β → Program host α) : Except Error β → Program host α
  | .ok b => next b
  | .error e => .returns (.error e)

/-- A program that keeps to a level leaves a history of its run. -/
theorem reaches {p : Program host α} (h : p.KeepsTo level s) :
    RunsReach level s.runs (p.run s).2.runs := by
  induction p generalizing s with
  | returns result => cases result <;> exact .refl s.runs
  | does x hRuns next ih =>
      have hRest : RunsReach level (x s).2.runs ((next (x s).1).run (x s).2).2.runs := ih _ h
      rwa [hRuns] at hRest
  | calls call next ih => exact (Call.reaches h.1).trans (ih _ h.2)
  | encloses scope body next ihBody ih =>
      exact (Scope.reaches fun t hStart => ihBody (h.1 t hStart)).trans (ih _ h.2)

end Program

/-! ## Nested runs -/

/-- Open runs before and after, where more runs may have been opened after. -/
inductive RunsAbove (level : Nat) (runs : List Run) : List Run → Prop where
  | here {runs' : List Run} (h : RunsReach level runs runs') : RunsAbove level runs runs'
  | nested (run : Run) {outer : List Run} (h : RunsAbove level runs outer) :
    RunsAbove level runs (run :: outer)

namespace RunsAbove

variable {runs between runs' : List Run}

theorem of_reaches (h : RunsReach level runs between) (h' : RunsAbove level between runs') :
    RunsAbove level runs runs' := by
  induction h' with
  | here hReach => exact .here (h.trans hReach)
  | nested run _ ih => exact .nested run ih

theorem of_opened {run : Run} (h : RunsAbove level (run :: runs) runs') :
    RunsAbove level runs runs' := by
  induction h with
  | here hReach =>
      obtain ⟨run', rfl, -⟩ := hReach.exists_cons
      exact .nested run' (.here (.refl runs))
  | nested run' _ ih => exact .nested run' ih

/-- The run that is followed is where it was, and has its history. -/
theorem exists_run {run : Run} (h : RunsAbove runs.length (run :: runs) runs') :
    ∃ inner run' inputs, runs' = inner ++ run' :: runs ∧ run.Reaches inputs run' := by
  induction h with
  | here hReach =>
      obtain ⟨run', rfl, hHistory⟩ := hReach.exists_cons
      obtain ⟨inputs, hReaches⟩ := hHistory rfl
      exact ⟨[], run', inputs, rfl, hReaches⟩
  | nested other _ ih =>
      obtain ⟨inner, run', inputs, rfl, hReaches⟩ := ih
      exact ⟨other :: inner, run', inputs, rfl, hReaches⟩

end RunsAbove

/-- Wherever a program that keeps to a level goes, the run of that level has its history. -/
theorem Program.Visits.above {α : Type} {p : Program host α} (h : p.KeepsTo level s)
    (hVisit : p.Visits s t) : RunsAbove level s.runs t.runs := by
  induction hVisit with
  | here p s => exact .here (.refl s.runs)
  | does x hRuns next _ ih => exact hRuns _ ▸ ih h
  | calls call next _ ih => exact .of_reaches (Call.reaches h.1) (ih h.2)
  | inside scope body next hStart _ ih =>
      have hBody := ih (h.1 _ hStart)
      rcases scope.start?_runs hStart with hRuns | ⟨mode, rfl⟩
      · rwa [hRuns] at hBody
      · exact hBody.of_opened
  | after scope body next _ ih =>
      exact .of_reaches (Scope.reaches fun t hStart => reaches (h.1 t hStart)) (ih h.2)

end TypedCircuit
