import TypedCircuit.Proofs.Memo.Calls
import TypedCircuit.Proofs.Runs.Witnesses

/-!
# A prove pass after a plain pass

A construction is a sequence of calls that consult the innermost memoization context. It is first
executed outside every circuit, in a new context and with computations that touch neither circuits
nor contexts. Then the context is rewound, and a prove pass over the same calls is executed in it.

The plain pass has filled one slot after another and has drawn the blinding value, so each call of
the prove pass finds what it asks for, and its own computations are not executed. What the prove
pass records is what a compile pass records.

## Main results

* `MemoCalls.held_of_run` — a plain pass leaves in the context what its calls ask for.
* `MemoCalls.run_of_held` — a prove pass where every call finds what it asks for.
* `MemoCalls.replays_plain` — a prove pass replays a plain pass.
-/

namespace TypedCircuit

variable {host : Type}

/-! ## Sequences of calls -/

/-- Calls that consult the innermost context, one after another. -/
abbrev MemoCalls (host : Type) := List (MemoCall host)

namespace MemoCalls

/-- What the calls ask for. -/
def requests (calls : MemoCalls host) : List Request := calls.map MemoCall.request

/-- Executes the calls and returns their values. -/
def run : MemoCalls host → Construction host (List Value)
  | [] => pure []
  | call :: rest => do
    let v ← call.run
    let values ← run rest
    return v :: values

theorem run_cons_eq_ok {call : MemoCall host} {rest : MemoCalls host} {s s' : Session host}
    {values : List Value} (h : run (call :: rest) s = (.ok values, s')) :
    ∃ v between values', call.run s = (.ok v, between) ∧ run rest between = (.ok values', s') ∧
      values = v :: values' := by
  obtain ⟨v, between, hHead, h⟩ := Construction.bind_eq_ok h
  obtain ⟨values', after, hRest, h⟩ := Construction.bind_eq_ok h
  cases h
  exact ⟨v, between, values', hHead, hRest, rfl⟩

theorem run_cons_ok {call : MemoCall host} {rest : MemoCalls host} {s between s' : Session host}
    {v : Value} {values : List Value} (hHead : call.run s = (.ok v, between))
    (hRest : run rest between = (.ok values, s')) :
    run (call :: rest) s = (.ok (v :: values), s') := by
  show (call.run >>= _) s = _
  rw [Construction.bind_ok hHead]
  exact Construction.bind_ok hRest

end MemoCalls

/-! ## Scopes of bodies -/

namespace Construction

variable {α : Type} {s s' : Session host} {x : Construction host α}

/-- A body that is executed in a context ends with what it leaves there. -/
theorem exists_of_inContext {ctx ctx' : MemoContext} {result : Except Error α}
    (h : inContext ctx x s = ((result, ctx'), s')) :
    ∃ after, x (s.within ctx) = (result, after) ∧
      ∀ left outer, after.contexts = left :: outer → ctx' = left := by
  rcases hBody : x (s.within ctx) with ⟨result', finished⟩
  cases hContexts : finished.contexts with
  | nil =>
      have hBody' : x { s with contexts := ctx :: s.contexts } = (result', finished) := hBody
      unfold inContext at h
      simp only [hBody', hContexts] at h
      cases h
      refine ⟨_, rfl, fun left outer hSome => ?_⟩
      cases hContexts.symm.trans hSome
  | cons left outer =>
      rw [MemoizedBody.inContext_eq hBody hContexts] at h
      cases h
      refine ⟨finished, rfl, fun left' outer' hSome => ?_⟩
      exact (List.cons.inj (hContexts.symm.trans hSome)).1

theorem inRun_contexts (mode : Mode) (x : Construction host α) (s : Session host) :
    (inRun mode x s).2.contexts = (x (s.opened (.start mode))).2.contexts := by
  rw [inRun_eq_closeRun]
  unfold closeRun
  split <;> rfl

/-- A prove pass that succeeds has executed its body, and leaves the circuit of its run and the
contexts of the body behind. -/
theorem exists_of_prove {a : α} {cs : ConstraintSystem} (h : prove x s = (.ok (a, cs), s')) :
    ∃ after, x (s.opened (.start .prove)) = (.ok a, after) ∧ s'.contexts = after.contexts ∧
      ∀ run outer, after.runs = run :: outer → cs = run.constraintSystem := by
  obtain ⟨⟨a', run⟩, between, hRun, h⟩ := bind_eq_ok h
  obtain ⟨_, -, h⟩ := lift_bind_eq_ok h
  cases h
  obtain ⟨after, hBody, hLast⟩ := inRun_eq_ok hRun
  have hContexts := inRun_contexts .prove x s
  rw [hRun, hBody] at hContexts
  refine ⟨after, hBody, hContexts, fun left outer hRuns => ?_⟩
  rw [hLast left outer hRuns]

end Construction

/-! ## Passes -/

/-- From a slot on a context holds what is asked for, with the contents of values. -/
inductive Held (r : Registry) (ctx : MemoContext) :
    Nat → List Request → List Part.Law → List Value → Prop where
  | nil (index : Nat) : Held r ctx index [] [] []
  | cons {index : Nat} {request : Request} {requests : List Request} {law : Part.Law}
    {laws : List Part.Law} {v : Value} {values : List Value} {slot : Slot}
    (hHeld : request.held? ctx index = some slot)
    (hLaw : (r.codec request.type).part.Lawful law) (hFits : slot.Fits law)
    (hContents : (r.codec request.type).contents v = .ok slot.contents)
    (hRest : Held r ctx (request.next index) requests laws values) :
    Held r ctx index (request :: requests) (law :: laws) (v :: values)

theorem Held.lawful {r : Registry} {ctx : MemoContext} {index : Nat} {requests : List Request}
    {laws : List Part.Law} {values : List Value} (h : Held r ctx index requests laws values) :
    List.Forall₂ (fun (request : Request) law => (r.codec request.type).part.Lawful law)
      requests laws := by
  induction h with
  | nil => exact .nil
  | cons _ hLaw _ _ _ ih => exact .cons hLaw ih

namespace MemoCalls

variable {calls : MemoCalls host} {s s' : Session host} {values : List Value}

/-- A plain pass leaves in the context what its calls ask for. -/
theorem held_of_run {all : List Request} {r : Registry} {ctx : MemoContext}
    {contexts : List MemoContext} (hAll : ∀ request ∈ all, request.type.Regular r)
    (hAgree : Registry.AgreeOn all r s.registry) (hCalls : calls.requests ⊆ all)
    (hApart : ∀ call ∈ calls, call.Apart all) (hRuns : s.runs = [])
    (hContexts : s.contexts = ctx :: contexts) (hSize : ctx.slots.size = ctx.cursor)
    (hOk : calls.run s = (.ok values, s')) :
    ∃ ctx' laws, s'.contexts = ctx' :: contexts ∧ ctx.Kept ctx' ∧
      Held r ctx' ctx.cursor calls.requests laws values := by
  induction calls generalizing s ctx values with
  | nil =>
      cases hOk
      exact ⟨ctx, [], hContexts, .refl ctx, .nil _⟩
  | cons call rest ih =>
      obtain ⟨v, between, values', hHead, hRest, rfl⟩ := run_cons_eq_ok hOk
      have hMem : call.request ∈ all := hCalls List.mem_cons_self
      obtain ⟨width, rules, hLaw⟩ := (hAll call.request hMem).lawful
      have hCodec := hAgree call.request hMem
      rw [← hCodec] at hLaw
      obtain ⟨ctx₁, hContexts₁, hPins⟩ :=
        MemoCall.pins_of_run (hApart call List.mem_cons_self) hMem hRuns hContexts hSize hLaw hHead
      obtain ⟨ctx', laws, hContexts', hKept, hHeldRest⟩ :=
        ih (hAgree.trans hPins.agree) (fun _ h => hCalls (List.mem_cons_of_mem _ h))
          (fun other h => hApart other (List.mem_cons_of_mem _ h)) hPins.runs_eq hContexts₁
          hPins.size_eq hRest
      obtain ⟨slot, hHeld, hFits, hContents⟩ := hPins.held
      rw [hCodec] at hLaw hContents
      rw [hPins.cursor_eq] at hHeldRest
      exact ⟨ctx', _ :: laws, hContexts', hPins.kept.trans hKept,
        .cons (hKept.held? hHeld) hLaw hFits hContents hHeldRest⟩

/-- A prove pass where every call finds what it asks for has values of the same contents, moves
nothing in the context but the cursor, and adds the inputs of the types to the circuit. -/
theorem run_of_held {r : Registry} {ctx : MemoContext} {contexts : List MemoContext} {index : Nat}
    {requests : List Request} {laws : List Part.Law} {values values' : List Value} {run : Run}
    {outer : List Run} (hHeld : Held r ctx index requests laws values)
    (hRequests : calls.requests = requests) (hAgree : Registry.AgreeOn requests r s.registry)
    (hContexts : s.contexts = ctx.seek index :: contexts) (hRuns : s.runs = run :: outer)
    (hMode : run.mode = .prove) (hOk : calls.run s = (.ok values', s')) :
    ∃ last run', s'.contexts = ctx.seek last :: contexts ∧ s'.runs = run' :: outer ∧
      run'.constraintSystem = laws.foldl ConstraintSystem.withInputs run.constraintSystem ∧
      SameAll r (requests.map Request.type) values values' := by
  induction hHeld generalizing calls s run values' with
  | nil index =>
      obtain rfl := List.map_eq_nil_iff.1 hRequests
      cases hOk
      exact ⟨index, run, hContexts, hRuns, rfl, .nil⟩
  | @cons index request requests law laws v values slot hHead hLaw hFits hContents _ ih =>
      cases calls with
      | nil => cases hRequests
      | cons call rest =>
          obtain ⟨rfl, hRest⟩ := List.cons.inj hRequests
          obtain ⟨w, between, values'', hCall, hOthers, rfl⟩ := run_cons_eq_ok hOk
          have hLaw' := hLaw
          rw [← hAgree.head] at hLaw'
          obtain ⟨hSame, rfl⟩ :=
            MemoCall.prove_of_held hContexts hRuns hMode hHead hLaw' hFits hCall
          have hLength : (slot.fields.map some).length = law.width.fields := by
            rw [List.length_map, hFits.fields_length]
          obtain ⟨last, run', hContexts', hRuns', hCircuit, hSameRest⟩ :=
            ih (s := { s with
                contexts := ctx.seek (call.request.next index) :: contexts
                runs := run.withInputs (slot.fields.map some) law.rules :: outer })
              hRest hAgree.tail rfl rfl ((Run.withInputs_mode _ _ _).trans hMode) hOthers
          rw [hAgree.head] at hSame
          refine ⟨last, run', hContexts', hRuns', ?_, .cons ⟨_, hContents, hSame⟩ hSameRest⟩
          rw [hCircuit, Run.constraintSystem_withInputs run hLength]
          rfl

/-- A compile pass adds the inputs of the types to the circuit. -/
theorem run_compile {r : Registry} {requests : List Request} {laws : List Part.Law} {run : Run}
    {outer : List Run}
    (hLaws : List.Forall₂ (fun (request : Request) law => (r.codec request.type).part.Lawful law)
      requests laws)
    (hRequests : calls.requests = requests) (hAgree : Registry.AgreeOn requests r s.registry)
    (hRuns : s.runs = run :: outer) (hMode : run.mode = .compile) :
    ∃ values run', calls.run s = (.ok values, { s with runs := run' :: outer }) ∧
      run'.constraintSystem = laws.foldl ConstraintSystem.withInputs run.constraintSystem := by
  induction hLaws generalizing calls s run with
  | nil =>
      obtain rfl := List.map_eq_nil_iff.1 hRequests
      refine ⟨[], run, ?_, rfl⟩
      rw [← hRuns]
      rfl
  | @cons request law requests laws hLaw _ ih =>
      cases calls with
      | nil => cases hRequests
      | cons call rest =>
          obtain ⟨rfl, hRest⟩ := List.cons.inj hRequests
          rw [← hAgree.head] at hLaw
          obtain ⟨v, hHead⟩ := MemoCall.run_compile hRuns hMode hLaw
          obtain ⟨values, run', hOthers, hCircuit⟩ :=
            ih (s := { s with runs := run.withInputs _ law.rules :: outer }) hRest hAgree.tail rfl
              ((Run.withInputs_mode _ _ _).trans hMode)
          refine ⟨v :: values, run', run_cons_ok hHead hOthers, ?_⟩
          rw [hCircuit, Run.constraintSystem_withInputs run List.length_replicate]
          rfl

open Construction in
/--
Calls for regular types succeed outside every circuit in a new context, with computations that touch
neither circuits nor contexts. The context is rewound, and a prove pass over the same calls,
whatever their computations are, succeeds in it. Then the values of the two passes have the same
contents, the context has the same slots and the same blinding value as before, and every compile
pass over the same calls leaves behind the circuit that the prove pass did.
-/
theorem replays_plain {calls calls' : MemoCalls host} {s s' t t' : Session host}
    {ctx ctx' : MemoContext} {values values' : List Value} {cs : ConstraintSystem}
    (hTypes : ∀ request ∈ calls.requests, request.type.Regular s.registry)
    (hApart : ∀ call ∈ calls, call.Apart calls.requests) (hPlain : s.runs = [])
    (hFirst : inContext .empty calls.run s = ((.ok values, ctx), s'))
    (hRequests : calls'.requests = calls.requests)
    (hAgree : Registry.AgreeOn calls.requests s.registry t.registry)
    (hSecond : inContext ctx.rewind (prove calls'.run) t = ((.ok (values', cs), ctx'), t')) :
    SameAll s.registry (calls.requests.map Request.type) values values' ∧
      ctx'.slots = ctx.slots ∧ ctx'.blinding? = ctx.blinding? ∧
      ∀ (calls'' : MemoCalls host) (u : Session host), calls''.requests = calls.requests →
        Registry.AgreeOn calls.requests s.registry u.registry →
        (compile calls''.run u).1 = .ok cs := by
  obtain ⟨after, hOk, hLeft⟩ := exists_of_inContext hFirst
  obtain ⟨ctx₁, laws, hContexts, -, hHeld⟩ := held_of_run (s := s.within .empty) hTypes
    (.refl _ _) (List.Subset.refl _) hApart hPlain rfl rfl hOk
  obtain rfl := hLeft _ _ hContexts
  obtain ⟨again, hProve, hLeft'⟩ := exists_of_inContext hSecond
  obtain ⟨finished, hBody, hKept, hCircuit⟩ := exists_of_prove hProve
  obtain ⟨last, run, hContexts', hRuns, hCircuits, hSame⟩ :=
    run_of_held (s := (t.within ctx.rewind).opened (.start .prove)) hHeld hRequests hAgree rfl rfl
      rfl hBody
  obtain rfl := hLeft' _ _ (hKept.trans hContexts')
  refine ⟨hSame, rfl, rfl, fun calls'' u hRequests' hAgree' => ?_⟩
  obtain ⟨values'', run', hCompiled, hCircuits'⟩ := run_compile (s := u.opened (.start .compile))
    hHeld.lawful hRequests' hAgree' rfl rfl
  have hRuns' : (calls''.run (u.opened (.start .compile))).2.runs = run' :: u.runs := by
    rw [hCompiled]
  rw [compile_of_runs hRuns', hCompiled, hCircuit _ _ hRuns, hCircuits]
  exact congrArg Except.ok hCircuits'

/-- A session in which nothing is open, with a word to draw. -/
private def drawing : Session Unit := Session.start [5] ()

/-- A pair of a random element and host data, the blinding value, and a bit. -/
private def sampled : MemoCalls Unit :=
  [.witness (.tuple [.field, .opaqueHost]) (do
      let x ← Construction.drawElement
      return .array [.ofElement x, .opaqueValue "note"]),
    .blinding, .witness .boolean (return .ofBool true)]

/-- The same calls, with computations that fail. -/
private def unsampled : MemoCalls Unit :=
  [.witness (.tuple [.field, .opaqueHost]) (throw .valueUnavailable), .blinding,
    .witness .boolean (throw .valueUnavailable)]

/-- A session in which a type is registered. -/
private def furnished : Session Unit :=
  { drawing with registry := ⟨[("Note", [("text", .opaqueHost)])]⟩ }

/-- What the plain pass pins. -/
private def sampledContext : MemoContext :=
  ⟨#[some ⟨[5], [.opaqueValue "note"]⟩, some ⟨[1], []⟩], 2, some 0⟩

open Construction in
/-- A plain pass draws an element and the blinding value, and a prove pass finds both, although a
type was registered in between. -/
theorem replays_plain_sampled : ∃ values s' values' cs ctx' t',
    inContext .empty sampled.run drawing = ((.ok values, sampledContext), s') ∧
      inContext sampledContext.rewind (prove unsampled.run) furnished =
        ((.ok (values', cs), ctx'), t') ∧
      SameAll drawing.registry (sampled.requests.map Request.type) values values' ∧
      ctx'.slots = sampledContext.slots ∧ ctx'.blinding? = some 0 ∧
      (compile sampled.run drawing).1 = .ok cs := by
  have hTypes : ∀ request ∈ sampled.requests, request.type.Regular drawing.registry := by
    intro request hRequest
    rcases hRequest with _ | ⟨_, _ | ⟨_, _ | ⟨_, hRequest⟩⟩⟩
    · refine .tuple fun d hd => ?_
      rcases hd with _ | ⟨_, _ | ⟨_, hd⟩⟩
      · exact .leaf .field
      · exact .leaf .opaqueHost
      · cases hd
    · exact .leaf .field
    · exact .leaf .boolean
    · cases hRequest
  have hApart : ∀ call ∈ sampled, call.Apart sampled.requests := by
    intro call hCall
    rcases hCall with _ | ⟨_, _ | ⟨_, _ | ⟨_, hCall⟩⟩⟩
    · exact fun s => ⟨rfl, rfl, .refl _ _⟩
    · trivial
    · exact fun s => ⟨rfl, rfl, .refl _ _⟩
    · cases hCall
  have hRequests : unsampled.requests = sampled.requests := rfl
  have hAgree : Registry.AgreeOn sampled.requests drawing.registry furnished.registry :=
    .of_nameless (by decide) _ _
  obtain ⟨values, s', hFirst⟩ : ∃ values s',
      inContext .empty sampled.run drawing = ((.ok values, sampledContext), s') := ⟨_, _, rfl⟩
  have hOk : (inContext sampledContext.rewind (prove unsampled.run) furnished).1.1.isOk = true := by
    decide +kernel
  rcases hSecond : inContext sampledContext.rewind (prove unsampled.run) furnished with
    ⟨⟨e | ⟨values', cs⟩, ctx'⟩, t'⟩
  · rw [hSecond] at hOk
    cases hOk
  · obtain ⟨hSame, hSlots, hBlinding, hCompiled⟩ :=
      replays_plain hTypes hApart rfl hFirst hRequests hAgree hSecond
    exact ⟨values, s', values', cs, ctx', t', hFirst, rfl, hSame, hSlots, hBlinding,
      hCompiled sampled drawing rfl (.refl _ _)⟩

end MemoCalls

end TypedCircuit
