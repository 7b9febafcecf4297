import Mathlib.Order.Defs.Unbundled
import TypedCircuit.Proofs.Circuit.Steps
import TypedCircuit.Proofs.Memo.Contexts
import TypedCircuit.Proofs.Passes.Codecs

/-!
# Constructions that only grow their contexts

Whatever a construction does that is made of witnesses and of operations on signals, it
registers nothing, leaves the pass in its mode, and does no more to the innermost memoization
context than to grow it. This holds whether it succeeds or fails, so a computation that goes on
after the failure of a witness is no exception.

What may happen to the contexts is a parameter, a relation between the contexts before and after.
Only memoized witnesses make them grow; without these, the same constructions leave them as they
are.

## Main results

* `Steady.pinned`, `Steady.witness`, `Steady.memoizedWitness` — what is built from steady
  computations is steady.
* `Construction.pinned_filled`, `Construction.pinned_empty` — the two ways to pin a value.
-/

namespace TypedCircuit

variable {host α β : Type}

/-- The innermost of the open contexts has grown. -/
inductive ContextsExtend : List MemoContext → List MemoContext → Prop where
  | nil : ContextsExtend [] []
  | cons {ctx ctx' : MemoContext} (h : ctx.Extends ctx') (outer : List MemoContext) :
    ContextsExtend (ctx :: outer) (ctx' :: outer)

namespace ContextsExtend

theorem refl : ∀ contexts, ContextsExtend contexts contexts
  | [] => .nil
  | ctx :: outer => .cons (.refl ctx) outer

theorem trans {xs ys zs : List MemoContext} (h : ContextsExtend xs ys)
    (h' : ContextsExtend ys zs) : ContextsExtend xs zs := by
  cases h with
  | nil => exact h'
  | cons h outer =>
      cases h' with
      | cons h' => exact .cons (h.trans h') outer

theorem exists_cons {ctx : MemoContext} {outer contexts : List MemoContext}
    (h : ContextsExtend (ctx :: outer) contexts) :
    ∃ ctx', contexts = ctx' :: outer ∧ ctx.Extends ctx' := by
  cases h with
  | cons h => exact ⟨_, rfl, h⟩

theorem extends_head {ctx ctx' : MemoContext} {outer outer' : List MemoContext}
    (h : ContextsExtend (ctx :: outer) (ctx' :: outer')) : ctx.Extends ctx' := by
  cases h with
  | cons h => exact h

instance : IsPreorder (List MemoContext) ContextsExtend where
  refl := refl
  trans _ _ _ := trans

end ContextsExtend

variable {R : List MemoContext → List MemoContext → Prop}

/-- From one session to another no type was registered, no pass begun or ended, and no more
happened to contexts than a relation allows. -/
structure Session.Evolves (R : List MemoContext → List MemoContext → Prop)
    (s s' : Session host) : Prop where
  registry_eq : s'.registry = s.registry
  mode_eq : activeMode? s'.runs = activeMode? s.runs
  contexts : R s.contexts s'.contexts

theorem Session.Evolves.refl [IsPreorder _ R] (s : Session host) : s.Evolves R s :=
  ⟨rfl, rfl, Std.Refl.refl _⟩

theorem Session.Evolves.trans [IsPreorder _ R] {s t u : Session host} (h : s.Evolves R t)
    (h' : t.Evolves R u) : s.Evolves R u :=
  ⟨h'.registry_eq.trans h.registry_eq, h'.mode_eq.trans h.mode_eq,
    IsTrans.trans _ _ _ h.contexts h'.contexts⟩

namespace Construction

variable {s s' : Session host} {ctx : MemoContext} {outer : List MemoContext}

/-! ## Pinning -/

theorem updateContext_eq (h : s.contexts = ctx :: outer) (f : MemoContext → α × MemoContext) :
    updateContext f s = (.ok (some (f ctx).1), { s with contexts := (f ctx).2 :: outer }) := by
  obtain ⟨runs, contexts, registry, entropy, data⟩ := s
  cases h
  rfl

/-- The value of a slot as constants. -/
def replayed (c : Codec) (slot : Slot) : Except Error Value := do
  let width ← c.width ()
  if slot.fields.length = width.fields then
    c.ofFieldsWithAux (slot.fields.map .constant) slot.aux
  else throw (.elements c.typeName width.fields slot.fields.length)

/-- A replay only looks at the slot and at what is registered. -/
theorem replay_eq (d : Descriptor) (slot : Slot) (s : Session host) :
    replay d slot s = (replayed (s.registry.codec d) slot, s) := by
  unfold replay replayed
  rw [bind_ok (codecOf_eq d s)]
  cases hWidth : (s.registry.codec d).width () with
  | error e => rfl
  | ok width =>
      rw [bind_ok (lift_ok rfl s)]
      show (if slot.fields.length = width.fields then _ else _ : Construction host Value) s =
        (if slot.fields.length = width.fields then _ else _, s)
      split
      · cases (s.registry.codec d).ofFieldsWithAux (slot.fields.map .constant) slot.aux <;> rfl
      · rfl

/-- What a slot is filled with. -/
def computeSlot (d : Descriptor) (compute : Construction host Value) :
    Construction host Slot := do
  let v ← compute
  let fields ← elementsOf d v
  return ⟨fields, (← codecOf d).auxiliary v⟩

theorem pin_eq (d : Descriptor) (index : Nat) (compute : Construction host Value) :
    pin d index compute = computeSlot d compute >>= fun slot =>
      updateContext (fun ctx => ((), ctx.fill index slot)) >>= fun _ => pure slot := by
  unfold pin computeSlot
  simp only [bind_assoc, pure_bind]

/-- Without a context, pinning is a computation. -/
theorem pinned_unmemoized (h : s.contexts = []) (d : Descriptor)
    (compute : Construction host Value) : pinned d compute s = compute s := by
  obtain ⟨runs, contexts, registry, entropy, data⟩ := s
  cases h
  rfl

/-- With a filled slot at the cursor, pinning is a replay. -/
theorem pinned_filled (h : s.contexts = ctx :: outer) {slot : Slot}
    (hSlot : ctx.slot? ctx.cursor = some slot) (d : Descriptor)
    (compute : Construction host Value) :
    pinned d compute s =
      replay d slot { s with contexts := ctx.reserve.2 :: outer } := by
  unfold pinned
  rw [bind_ok (updateContext_eq h _), MemoContext.reserve_fst, hSlot]

/-- With an empty slot at the cursor, pinning is a computation, whose result the slot is filled
with. -/
theorem pinned_empty (h : s.contexts = ctx :: outer) (hSlot : ctx.slot? ctx.cursor = none)
    (d : Descriptor) (compute : Construction host Value) :
    pinned d compute s =
      (computeSlot d compute >>= fun slot =>
        updateContext (fun ctx' => ((), ctx'.fill ctx.cursor slot)) >>= fun _ =>
          replay d slot) { s with contexts := ctx.reserve.2 :: outer } := by
  unfold pinned
  rw [bind_ok (updateContext_eq h _), MemoContext.reserve_fst, hSlot]
  dsimp only
  rw [pin_eq]
  simp only [bind_assoc, pure_bind]

/-- Elements are looked up without any effect. -/
theorem elementsOf_ok {d : Descriptor} {v : Value} {elements : List Element}
    (h : elementsOf d v s = (.ok elements, s')) :
    s' = s ∧ ∃ fields, (s.registry.codec d).toFields v = .ok fields ∧
      (fields.mapM fun x : Signal => x.value) = .ok elements := by
  unfold elementsOf at h
  rw [bind_ok (codecOf_eq d s)] at h
  obtain ⟨fields, hFields, h⟩ := lift_bind_eq_ok h
  have hValues := (mapM_lift_eq (fun x : Signal => x.value) fields s).symm.trans h
  exact ⟨(congrArg Prod.snd hValues).symm, fields, hFields, congrArg Prod.fst hValues⟩

theorem computeSlot_ok {d : Descriptor} {compute : Construction host Value} {slot : Slot}
    (h : computeSlot d compute s = (.ok slot, s')) :
    ∃ v fields, compute s = (.ok v, s') ∧ (s'.registry.codec d).toFields v = .ok fields ∧
      (fields.mapM fun x : Signal => x.value) = .ok slot.fields ∧
      slot.aux = (s'.registry.codec d).auxiliary v := by
  obtain ⟨v, between, hCompute, h⟩ := bind_eq_ok h
  obtain ⟨elements, after, hElements, h⟩ := bind_eq_ok h
  obtain ⟨hSame, fields, hFields, hValues⟩ := elementsOf_ok hElements
  rw [hSame, bind_ok (codecOf_eq d between)] at h
  cases h
  exact ⟨v, fields, hCompute, hFields, hValues, rfl⟩

/-! ## Steady constructions -/

/-- A construction evolves its session, whether it succeeds or fails. -/
def Steady (R : List MemoContext → List MemoContext → Prop) (x : Construction host α) : Prop :=
  ∀ s : Session host, s.Evolves R (x s).2

namespace Steady

theorem attempt {x : Construction host α} (h : Steady R x) : Steady R (Construction.attempt x) := h

theorem codecOf_bind {d : Descriptor} {f : Codec → Construction host α}
    (h : ∀ r : Registry, Steady R (f (r.codec d))) : Steady R (codecOf d >>= f) :=
  fun s => h s.registry s

variable [IsPreorder (List MemoContext) R]

theorem pure (a : α) : Steady R (Pure.pure a : Construction host α) := Session.Evolves.refl

theorem lift (x : Except Error α) : Steady R (liftM x : Construction host α) := by
  cases x <;> exact Session.Evolves.refl

theorem read (f : Session host → α) : Steady R (Construction.read f) := Session.Evolves.refl

theorem bind {x : Construction host α} {f : α → Construction host β} (h : Steady R x)
    (hNext : ∀ a, Steady R (f a)) : Steady R (x >>= f) := by
  intro s
  have hFirst := h s
  rcases hx : x s with ⟨_ | a, between⟩
  · rw [bind_error hx]
    rw [hx] at hFirst
    exact hFirst
  · rw [bind_ok hx]
    rw [hx] at hFirst
    exact hFirst.trans (hNext a between)

theorem ofCircuit {c : Circuit α} (h : KeepsMode c) :
    Steady R (liftM c : Construction host α) := fun s => ⟨rfl, h s.runs, Std.Refl.refl _⟩

theorem elementsOf (d : Descriptor) (v : Value) :
    Steady R (Construction.elementsOf d v : Construction host (List Element)) := by
  refine (read _).bind fun _ => (lift _).bind fun fields s => ?_
  rw [mapM_lift_eq]
  exact .refl s

theorem computeSlot (d : Descriptor) {compute : Construction host Value} (h : Steady R compute) :
    Steady R (Construction.computeSlot d compute) :=
  h.bind fun _ => (elementsOf d _).bind fun _ => (read _).bind fun _ => pure _

theorem allocateInputs (values : List (Option Element)) :
    Steady R (liftM (liftM (Construction.allocateInputs values) : Circuit (List Signal)) :
      Construction host (List Signal)) := by
  refine ofCircuit ?_
  rintro (_ | ⟨run, outer⟩)
  · rfl
  · show some (run.introduce values).2.mode = some run.mode
    rw [Run.introduce_eq]

theorem introduce (size : Nat) {compute : Construction host (List Element × α)}
    (h : Steady R compute) : Steady R (Construction.introduce size compute) := by
  have hCounted : Steady R (counted size compute) := by
    refine h.bind ?_
    rintro ⟨values, a⟩
    show Steady R (if values.length = size then _ else _)
    split
    · exact pure _
    · exact lift (.error _)
  refine (read _).bind ?_
  rintro (_ | _ | _)
  · exact hCounted.bind fun _ => pure _
  · exact (allocateInputs _).bind fun _ => pure _
  · exact hCounted.bind fun _ => (allocateInputs _).bind fun _ => pure _

theorem witness (d : Descriptor) {compute : Construction host Value} (h : Steady R compute) :
    Steady R (Construction.witness d compute) := by
  refine (read _).bind fun isChecked => ?_
  split
  · exact h
  · refine (read _).bind fun _ => (lift _).bind fun width => (introduce width.fields ?_).bind ?_
    · exact h.bind fun _ => (read _).bind fun _ => (elementsOf d _).bind fun _ => pure _
    · rintro ⟨fields, aux?⟩
      exact codecOf_bind fun r => (lift _).bind fun width => (lift _).bind fun v =>
        (ofCircuit ((r.uniform_codec d).keepsMode v)).bind fun _ => pure v

end Steady

theorem evolves_reserve (h : s.contexts = ctx :: outer) :
    s.Evolves ContextsExtend { s with contexts := ctx.reserve.2 :: outer } :=
  ⟨rfl, rfl, by rw [h]; exact .cons (MemoContext.extends_reserve ctx) outer⟩

/-- A slot is filled with what was computed after it was reserved. -/
theorem pinned_computed (h : s.contexts = ctx :: outer) (hSlot : ctx.slot? ctx.cursor = none)
    {d : Descriptor} {compute : Construction host Value} (hCompute : Steady ContextsExtend compute)
    {slot : Slot}
    (hOk : computeSlot d compute { s with contexts := ctx.reserve.2 :: outer } = (.ok slot, s')) :
    ∃ ctx', ctx.reserve.2.Extends ctx' ∧ s'.contexts = ctx' :: outer ∧
      pinned d compute s =
        replay d slot { s' with contexts := ctx'.fill ctx.cursor slot :: outer } := by
  have hGrown := (hCompute.computeSlot d { s with contexts := ctx.reserve.2 :: outer }).contexts
  rw [hOk] at hGrown
  obtain ⟨ctx', hContexts, hExtends⟩ := hGrown.exists_cons
  refine ⟨ctx', hExtends, hContexts, ?_⟩
  rw [pinned_empty h hSlot, bind_ok hOk, bind_ok (updateContext_eq hContexts _)]

theorem hostData_of_computeSlot {d : Descriptor} {compute : Construction host Value} {slot : Slot}
    (h : computeSlot d compute s = (.ok slot, s')) : ∀ a ∈ slot.aux, a.HostData := by
  obtain ⟨v, fields, -, hFields, -, hAux⟩ := computeSlot_ok h
  rw [hAux]
  exact Codec.hostData_of_toFields (s'.registry.uniform_codec d) hFields

namespace Steady

/-- Pinning grows the context by a slot that is filled, or stays empty because of a failure. -/
theorem pinned (d : Descriptor) {compute : Construction host Value}
    (h : Steady ContextsExtend compute) :
    Steady ContextsExtend (Construction.pinned d compute) := by
  intro s
  cases hContexts : s.contexts with
  | nil =>
      rw [pinned_unmemoized hContexts]
      exact h s
  | cons ctx outer =>
      have hReserve := evolves_reserve hContexts
      cases hSlot : ctx.slot? ctx.cursor with
      | some slot =>
          rw [pinned_filled hContexts hSlot, replay_eq]
          exact hReserve
      | none =>
          have hSlotComputed := hReserve.trans (h.computeSlot d _)
          rcases hOk : Construction.computeSlot d compute
              { s with contexts := ctx.reserve.2 :: outer } with ⟨e | slot, s'⟩
          · rw [hOk] at hSlotComputed
            rw [pinned_empty hContexts hSlot, bind_error hOk]
            exact hSlotComputed
          · rw [hOk] at hSlotComputed
            obtain ⟨ctx', hExtends, -, hPinned⟩ := pinned_computed hContexts hSlot h hOk
            rw [hPinned, replay_eq]
            refine ⟨hSlotComputed.registry_eq, hSlotComputed.mode_eq, ?_⟩
            rw [hContexts]
            exact .cons (MemoContext.extends_fill hSlot hExtends (hostData_of_computeSlot hOk)) outer

theorem memoizedWitness (d : Descriptor) {compute : Construction host Value}
    (h : Steady ContextsExtend compute) :
    Steady ContextsExtend (Construction.memoizedWitness d compute) := by
  refine (read _).bind fun isMemoized => ?_
  split
  · exact witness d (pinned d h)
  · exact witness d h

end Steady

end Construction

end TypedCircuit
