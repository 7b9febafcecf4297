import TypedCircuit.Proofs.Memo.PlainPass
import TypedCircuit.Proofs.Runs.Programs

/-!
# What operations do to the contexts

Open memoization contexts form a stack. An operation gives it to the code of the caller that it
executes, and does next to nothing to it itself: it reserves and fills a slot, draws a blinding
value, or puts a context on top and takes it away again. So the stack that an operation leaves is
the stack that the code of the caller leaves, or the one before if that is not executed.

A program is *contained* if it does nothing to the contexts but by such operations, as code that
has no other access to them. A contained program only grows the innermost context, and the
contexts below stay as they are, whatever fails on the way and however it is dealt with.

## Main results

* `Construction.witness_contexts`, `Construction.pinned_computes` — the stack after an operation
  in terms of the stack after its computation.
* `Scope.contexts_grow`, `Call.contexts_grow` — one operation only grows the innermost context.
* `Program.contexts_grow` — and so does a contained program.
-/

namespace TypedCircuit

variable {host α β γ : Type}

/-! ## Contexts that grow -/

/-- A context has grown to another one, and has kept its blinding value. -/
structure MemoContext.Grows (ctx ctx' : MemoContext) : Prop where
  extend : ctx.Extends ctx'
  kept : ctx.Kept ctx'

namespace MemoContext

variable {ctx between ctx' : MemoContext}

theorem Grows.refl (ctx : MemoContext) : ctx.Grows ctx := ⟨.refl ctx, .refl ctx⟩

theorem Grows.trans (h : ctx.Grows between) (h' : between.Grows ctx') : ctx.Grows ctx' :=
  ⟨h.extend.trans h'.extend, h.kept.trans h'.kept⟩

theorem grows_reserve (ctx : MemoContext) : ctx.Grows ctx.reserve.2 :=
  ⟨extends_reserve ctx, (extends_reserve ctx).slot?_some, id⟩

/-- Filling a slot changes no slot that was filled before, if the slot is empty. -/
theorem kept_fill {index : Nat} (h : ctx.slot? index = none) (slot : Slot) :
    ctx.Kept (ctx.fill index slot) := by
  refine ⟨fun {other filled} hFilled => ?_, id⟩
  have hOther : index ≠ other := by
    rintro rfl
    rw [h] at hFilled
    cases hFilled
  rwa [slot?_fill_ne ctx slot hOther]

/-- A slot that was reserved while it was empty is still empty when it is to be filled. -/
theorem Grows.slot?_reserved (h : ctx.reserve.2.Grows ctx')
    (hEmpty : ctx.slot? ctx.cursor = none) : ctx'.slot? ctx.cursor = none := by
  rw [h.extend.slot?_eq (Nat.lt_succ_self ctx.cursor), slot?_reserve, hEmpty]

theorem Grows.fill (h : ctx.reserve.2.Grows ctx') (hEmpty : ctx.slot? ctx.cursor = none)
    {slot : Slot} (hHost : ∀ a ∈ slot.aux, a.HostData) : ctx.Grows (ctx'.fill ctx.cursor slot) :=
  ⟨extends_fill hEmpty h.extend hHost,
    ((grows_reserve ctx).kept.trans h.kept).trans (kept_fill (h.slot?_reserved hEmpty) slot)⟩

theorem grows_draw (h : ctx.blinding? = none) (x : Element) :
    ctx.Grows { ctx with blinding? := some x } := by
  refine ⟨⟨Nat.le_refl _, Nat.le_refl _, fun _ => rfl, id, id, id⟩, id, fun hOther => ?_⟩
  rw [h] at hOther
  cases hOther

end MemoContext

/-- Stacks of contexts before and after: nothing happened but to the innermost context, which has
grown. -/
inductive ContextsGrow : List MemoContext → List MemoContext → Prop where
  | nil : ContextsGrow [] []
  | cons {ctx ctx' : MemoContext} (h : ctx.Grows ctx') (outer : List MemoContext) :
    ContextsGrow (ctx :: outer) (ctx' :: outer)

namespace ContextsGrow

variable {contexts between contexts' : List MemoContext}

theorem refl : ∀ contexts, ContextsGrow contexts contexts
  | [] => .nil
  | ctx :: outer => .cons (.refl ctx) outer

theorem trans (h : ContextsGrow contexts between) (h' : ContextsGrow between contexts') :
    ContextsGrow contexts contexts' := by
  cases h with
  | nil => exact h'
  | cons h outer =>
      cases h' with
      | cons h' => exact .cons (h.trans h') outer

theorem exists_cons {ctx : MemoContext} {outer : List MemoContext}
    (h : ContextsGrow (ctx :: outer) contexts) :
    ∃ ctx', contexts = ctx' :: outer ∧ ctx.Grows ctx' := by
  cases h with
  | cons h => exact ⟨_, rfl, h⟩

end ContextsGrow

/-! ## The stack after an operation -/

/-- In the session in which a memoized computation is executed, the next slot is reserved. -/
theorem Session.reserved?_eq_some {s t : Session host} (h : s.reserved? = some t) :
    (s.contexts = [] ∧ t = s) ∨ ∃ ctx outer, s.contexts = ctx :: outer ∧
      ctx.slot? ctx.cursor = none ∧ t = { s with contexts := ctx.reserve.2 :: outer } := by
  unfold reserved? at h
  split at h
  · next hContexts => exact .inl ⟨hContexts, (Option.some.inj h).symm⟩
  · next ctx outer hContexts =>
      obtain ⟨hEmpty, hSession⟩ := Option.ite_none_left_eq_some.1 h
      refine .inr ⟨ctx, outer, hContexts, ?_, (Option.some.inj hSession).symm⟩
      rwa [Option.isSome_iff_ne_none, ne_eq, not_not] at hEmpty

/-- A memoized computation is not executed if the next slot is filled. -/
theorem Session.reserved?_eq_none {s : Session host} (h : s.reserved? = none) :
    ∃ ctx outer slot, s.contexts = ctx :: outer ∧ ctx.slot? ctx.cursor = some slot := by
  unfold reserved? at h
  split at h
  · cases h
  · next ctx outer hContexts =>
      split at h
      · next hFilled =>
          obtain ⟨slot, hSlot⟩ := Option.isSome_iff_exists.1 hFilled
          exact ⟨ctx, outer, slot, hContexts, hSlot⟩
      · cases h

namespace Construction

variable {s t : Session host} {ctx ctx' : MemoContext} {outer : List MemoContext} {d : Descriptor}

/-- What leaves the contexts as they are can be left out at the end. -/
theorem contexts_bind {x : Construction host α} {f : α → Construction host β}
    (h : ∀ a t, (f a t).2.contexts = t.contexts) (s : Session host) :
    ((x >>= f) s).2.contexts = (x s).2.contexts := by
  rcases hx : x s with ⟨e | a, t⟩
  · rw [bind_error hx]
  · rw [bind_ok hx, h]

theorem lift_contexts (x : Except Error α) (s : Session host) :
    (liftM x : Construction host α) s |>.2.contexts = s.contexts := by
  cases x <;> rfl

theorem counted_contexts (size : Nat) (compute : Construction host (List Element × α))
    (s : Session host) : (counted size compute s).2.contexts = (compute s).2.contexts := by
  refine contexts_bind ?_ s
  rintro ⟨values, a⟩ t
  show ((if values.length = size then _ else _ : Construction host _) t).2.contexts = _
  split <;> rfl

/-- Private inputs leave what their computation does. -/
theorem introduce_contexts (size : Nat) (compute : Construction host (List Element × α))
    (s : Session host) :
    (introduce size compute s).2.contexts =
      if activeMode? s.runs = some .compile then s.contexts else (compute s).2.contexts := by
  have hMode : mode? s = (.ok (activeMode? s.runs), s) := rfl
  unfold introduce
  rw [bind_ok hMode]
  rcases activeMode? s.runs with _ | _ | _
  · exact (contexts_bind (fun _ _ => rfl) s).trans (counted_contexts size compute s)
  · rfl
  · exact (contexts_bind (fun _ _ => rfl) s).trans (counted_contexts size compute s)

theorem elementsOf_contexts (d : Descriptor) (v : Value) (s : Session host) :
    (elementsOf d v s).2.contexts = s.contexts := by
  unfold elementsOf
  rw [bind_ok (codecOf_eq d s)]
  cases hFields : (s.registry.codec d).toFields v with
  | error e => rfl
  | ok fields => rw [bind_ok (lift_ok rfl s), mapM_lift_eq]

theorem computeSlot_contexts (d : Descriptor) (compute : Construction host Value)
    (s : Session host) : (computeSlot d compute s).2.contexts = (compute s).2.contexts := by
  refine contexts_bind (fun v t => ?_) s
  exact (contexts_bind (fun _ _ => rfl) t).trans (elementsOf_contexts d v t)

/-- A witness leaves what its computation does, if that is executed. -/
theorem witness_contexts (d : Descriptor) (compute : Construction host Value) (s : Session host) :
    (witness d compute s).2.contexts =
      if s.computes d then (compute s).2.contexts else s.contexts := by
  cases hRuns : s.runs with
  | nil =>
      rw [witness_unchecked hRuns, Session.computes, hRuns]
      rfl
  | cons run outer =>
      have hMode : activeMode? s.runs = some run.mode := by rw [hRuns]; rfl
      unfold witness
      rw [bind_ok (isChecked_eq hRuns)]
      show ((codecOf d >>= _) s).2.contexts = _
      rw [bind_ok (codecOf_eq d s), Session.computes, hMode]
      cases hWidth : (s.registry.codec d).width () with
      | error e => cases run.mode <;> rfl
      | ok width =>
          rw [bind_ok (lift_ok rfl s), contexts_bind, introduce_contexts, hMode]
          · cases run.mode with
            | compile => rfl
            | prove =>
                refine contexts_bind (fun v t => ?_) s
                rw [bind_ok (codecOf_eq d t)]
                exact (contexts_bind (fun _ _ => rfl) t).trans (elementsOf_contexts d v t)
          · rintro ⟨fields, aux?⟩ t
            show ((codecOf d >>= _) t).2.contexts = _
            rw [bind_ok (codecOf_eq d t)]
            refine (contexts_bind (fun width u => ?_) t).trans (lift_contexts _ t)
            refine (contexts_bind (fun v u' => ?_) u).trans (lift_contexts _ u)
            exact contexts_bind (fun _ _ => rfl) u'

/-- With a filled slot at the cursor, pinning only reserves it. -/
theorem pinned_replays (h : s.contexts = ctx :: outer) {slot : Slot}
    (hSlot : ctx.slot? ctx.cursor = some slot) (compute : Construction host Value) :
    (pinned d compute s).2.contexts = ctx.reserve.2 :: outer := by
  rw [pinned_filled h hSlot, replay_eq]

/-- With an empty slot at the cursor, pinning leaves what the computation leaves after the slot was
reserved, with the slot filled if something came out of it. -/
theorem pinned_computes (h : s.contexts = ctx :: outer) (hEmpty : ctx.slot? ctx.cursor = none)
    {compute : Construction host Value}
    (hCompute : (compute { s with contexts := ctx.reserve.2 :: outer }).2.contexts =
      ctx' :: outer) :
    (pinned d compute s).2.contexts =
      (match (computeSlot d compute { s with contexts := ctx.reserve.2 :: outer }).1 with
        | .ok slot => ctx'.fill ctx.cursor slot
        | .error _ => ctx') :: outer := by
  have hSlot := computeSlot_contexts d compute { s with contexts := ctx.reserve.2 :: outer }
  rw [hCompute] at hSlot
  rw [pinned_empty h hEmpty]
  rcases hOk : computeSlot d compute { s with contexts := ctx.reserve.2 :: outer } with
    ⟨e | slot, t⟩
  · rw [hOk] at hSlot
    rw [bind_error hOk]
    exact hSlot
  · rw [hOk] at hSlot
    rw [bind_ok hOk, bind_ok (updateContext_eq hSlot _), replay_eq]

/-- If the next slot is empty, pinning grows the contexts as its computation does. -/
theorem pinned_grow {compute : Construction host Value}
    (h : ∀ t, s.reserved? = some t → ContextsGrow t.contexts (compute t).2.contexts) :
    ContextsGrow s.contexts (pinned d compute s).2.contexts := by
  rcases hReserved : s.reserved? with _ | t
  · obtain ⟨ctx, outer, slot, hContexts, hSlot⟩ := Session.reserved?_eq_none hReserved
    rw [pinned_replays hContexts hSlot, hContexts]
    exact .cons (MemoContext.grows_reserve ctx) outer
  · have hCompute := h t hReserved
    rcases Session.reserved?_eq_some hReserved with
      ⟨hContexts, rfl⟩ | ⟨ctx, outer, hContexts, hEmpty, rfl⟩
    · rwa [pinned_unmemoized hContexts]
    · obtain ⟨ctx', hAfter, hGrows⟩ := hCompute.exists_cons
      rw [pinned_computes hContexts hEmpty hAfter, hContexts]
      refine .cons ?_ outer
      rcases hOk : computeSlot d compute { s with contexts := ctx.reserve.2 :: outer } with
        ⟨e | slot, t⟩
      · exact (MemoContext.grows_reserve ctx).trans hGrows
      · exact hGrows.fill hEmpty (hostData_of_computeSlot hOk)

/-- Whether a context is open or not, a memoized witness is the witness of what is pinned. -/
theorem memoizedWitness_eq_pinned (d : Descriptor) (compute : Construction host Value)
    (s : Session host) : memoizedWitness d compute s = witness d (pinned d compute) s := by
  rw [memoizedWitness_eq]
  refine witness_congr ?_ d
  split
  · next hEmpty => rw [pinned_unmemoized (List.isEmpty_iff.1 hEmpty)]
  · rfl

/-- A memoized witness leaves what pinning does, if its computation is to be executed. -/
theorem memoizedWitness_contexts (d : Descriptor) (compute : Construction host Value)
    (s : Session host) :
    (memoizedWitness d compute s).2.contexts =
      if s.computes d then (pinned d compute s).2.contexts else s.contexts := by
  rw [memoizedWitness_eq_pinned, witness_contexts]

theorem whereValued_contexts (body : Construction host Unit) (s : Session host) :
    (whereValued body s).2.contexts =
      if haveValues s.runs then (body s).2.contexts else s.contexts := by
  have hValues : hasValues s = (.ok (haveValues s.runs), s) := rfl
  unfold whereValued
  rw [bind_ok hValues]
  cases haveValues s.runs <;> rfl

/-- A pass leaves what its body does. -/
theorem compile_contexts (body : Construction host α) (s : Session host) :
    (compile body s).2.contexts = (body (s.opened (.start .compile))).2.contexts :=
  (contexts_bind (fun _ _ => rfl) s).trans (inRun_contexts .compile body s)

theorem prove_contexts (body : Construction host α) (s : Session host) :
    (prove body s).2.contexts = (body (s.opened (.start .prove))).2.contexts := by
  refine (contexts_bind ?_ s).trans (inRun_contexts .prove body s)
  rintro ⟨a, run⟩ t
  exact (contexts_bind (fun _ _ => rfl) t).trans (lift_contexts run.verify t)

/-- A context that a body is executed in is taken away again. -/
theorem inContext_eq {body : Construction host α}
    (h : (body (s.within ctx)).2.contexts = ctx' :: outer) :
    inContext ctx body s = (((body (s.within ctx)).1, ctx'),
      { (body (s.within ctx)).2 with contexts := outer }) :=
  MemoizedBody.inContext_eq rfl h

/-- Nothing happens to the contexts but that a blinding value is drawn for the innermost one, if it
has none. -/
theorem blindingElement_contexts (s : Session host) :
    (blindingElement s).2.contexts = s.contexts ∨
      ∃ ctx outer x, s.contexts = ctx :: outer ∧ ctx.blinding? = none ∧
        (blindingElement s).2.contexts = { ctx with blinding? := some x } :: outer := by
  obtain ⟨runs, contexts, registry, entropy, data⟩ := s
  rcases contexts with _ | ⟨⟨slots, cursor, _ | x⟩, outer⟩
  · exact .inl rfl
  · exact .inr ⟨_, _, _, rfl, rfl, rfl⟩
  · exact .inl rfl

/-- The blinding value is asked for where witnesses are computed. -/
theorem blindingValue_contexts (s : Session host) :
    (blindingValue s).2.contexts =
      if s.computes .field then (blindingElement s).2.contexts else s.contexts := by
  have hDrawn : ((blindingElement >>= fun x => pure (.ofElement x) : Construction host Value)
      s).2.contexts = (blindingElement s).2.contexts := contexts_bind (fun _ _ => rfl) s
  rw [← hDrawn, ← witness_contexts]
  exact contexts_bind (fun v t => lift_contexts (Codec.expectSignal "Field" v) t) s

end Construction

/-! ## One operation -/

variable {s t : Session host}

/-- An operation on the innermost run does nothing to the contexts but draw a blinding value for the
innermost one, if it has none. -/
theorem Call.contexts_cases (call : Call β) (s : Session host) :
    (call.perform s).2.contexts = s.contexts ∨
      ∃ ctx outer x, s.contexts = ctx :: outer ∧ ctx.blinding? = none ∧
        (call.perform s).2.contexts = { ctx with blinding? := some x } :: outer := by
  cases call with
  | blinding =>
      have hBlinding := Construction.blindingValue_contexts s
      by_cases hComputes : s.computes .field = true
      · rw [if_pos hComputes] at hBlinding
        exact hBlinding ▸ Construction.blindingElement_contexts s
      · rw [if_neg hComputes] at hBlinding
        exact .inl hBlinding
  | _ => exact .inl rfl

theorem Call.contexts_grow (call : Call β) (s : Session host) :
    ContextsGrow s.contexts (call.perform s).2.contexts := by
  rcases call.contexts_cases s with hSame | ⟨ctx, outer, x, hContexts, hNone, hDrawn⟩
  · rw [hSame]
    exact .refl s.contexts
  · rw [hDrawn, hContexts]
    exact .cons (MemoContext.grows_draw hNone x) outer

namespace Scope

/-- Whether an operation leaves the contexts to its body: it neither consults nor opens one. -/
def Transparent : Scope β γ → Prop
  | introduce _ | witness _ | whereValued | compile | prove => True
  | memoizedWitness _ | inContext _ => False

variable {scope : Scope β γ} {body : Construction host β}

/-- The body of a transparent operation starts with the contexts as they are. -/
theorem Transparent.contexts_start (h : scope.Transparent) (hStart : scope.start? s = some t) :
    t.contexts = s.contexts := by
  cases scope with
  | introduce size => rw [Option.some.inj (Option.ite_none_left_eq_some.1 hStart).2]
  | witness d | whereValued => rw [Option.some.inj (Option.ite_none_right_eq_some.1 hStart).2]
  | compile | prove => cases hStart; rfl
  | memoizedWitness | inContext => exact h.elim

/-- A transparent operation leaves what its body does, if that is executed. -/
theorem Transparent.contexts_enclose (h : scope.Transparent) (body : Construction host β)
    (s : Session host) : (scope.enclose body s).2.contexts =
      (scope.start? s).elim s.contexts fun t => (body t).2.contexts := by
  cases scope with
  | introduce size =>
      refine (Construction.introduce_contexts size body s).trans ?_
      show _ = (if activeMode? s.runs = some .compile then none else some s).elim _ _
      split <;> rfl
  | witness d =>
      refine (Construction.witness_contexts d body s).trans ?_
      show _ = (if s.computes d then some s else none).elim _ _
      split <;> rfl
  | whereValued =>
      refine (Construction.whereValued_contexts body s).trans ?_
      show _ = (if haveValues s.runs then some s else none).elim _ _
      split <;> rfl
  | compile => exact Construction.compile_contexts body s
  | prove => exact Construction.prove_contexts body s
  | memoizedWitness | inContext => exact h.elim

/-- An operation only grows the innermost context if its body does, in case it is executed. -/
theorem contexts_grow
    (h : ∀ t, scope.start? s = some t → ContextsGrow t.contexts (body t).2.contexts) :
    ContextsGrow s.contexts (scope.enclose body s).2.contexts := by
  by_cases hClear : scope.Transparent
  · rw [hClear.contexts_enclose]
    cases hStart : scope.start? s with
    | none => exact .refl s.contexts
    | some t => exact hClear.contexts_start hStart ▸ h t hStart
  · cases scope with
    | introduce | witness | whereValued | compile | prove => exact absurd trivial hClear
    | memoizedWitness d =>
        show ContextsGrow _ (Construction.memoizedWitness d body s).2.contexts
        rw [Construction.memoizedWitness_contexts]
        split
        · next hComputes =>
            exact Construction.pinned_grow fun t hReserved =>
              h t ((if_pos hComputes).trans hReserved)
        · exact .refl s.contexts
    | inContext ctx =>
        obtain ⟨ctx', hContexts, -⟩ := (h _ rfl).exists_cons
        show ContextsGrow _ (Construction.inContext ctx body s).2.contexts
        rw [Construction.inContext_eq hContexts]
        exact .refl s.contexts

end Scope

/-! ## Contained programs -/

namespace Program

/-- Whether a program leaves the contexts to the operations that are there for them. -/
def Contained : {α : Type} → Program host α → Prop
  | _, returns _ => True
  | _, does x _ next => (∀ s, (x s).2.contexts = s.contexts) ∧ ∀ result, (next result).Contained
  | _, calls _ next => ∀ result, (next result).Contained
  | _, encloses _ body next => body.Contained ∧ ∀ result, (next result).Contained

/-- A contained program only grows the innermost context. -/
theorem contexts_grow {p : Program host α} (h : p.Contained) (s : Session host) :
    ContextsGrow s.contexts (p.run s).2.contexts := by
  induction p generalizing s with
  | returns result => cases result <;> exact .refl s.contexts
  | does x hRuns next ih =>
      have hRest := ih (x s).1 (h.2 _) (x s).2
      rwa [h.1] at hRest
  | calls call next ih => exact (call.contexts_grow s).trans (ih _ (h _) _)
  | encloses scope body next ihBody ih =>
      exact (scope.contexts_grow fun t _ => ihBody h.1 t).trans (ih _ (h.2 _) _)

end Program

end TypedCircuit
