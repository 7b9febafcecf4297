import TypedCircuit.Proofs.Scopes.Course

/-!
# What is pinned stays pinned

A memoization context lives on from pass to pass: it is rewound, and bodies are executed in it, in
sessions that may have nothing else in common. While a body is executed the context is on the
stack, below the contexts that are opened inside, and it is updated there by whatever operation
comes to it. The moments of such a life are all of these, in the order of time.

From one moment to a later one, slots that are filled keep what they hold, and so does the blinding
value once it is drawn. A slot is filled by a memoized witness only, after its computation, and
only if something came of it; then it holds the elements and the auxiliary data of the value. The
elements are always as many as the type declares, since they are counted. Auxiliary data are not
counted, but regular types carry as many as they declare.

## Main results

* `Program.trace_follows` — what one body does to a context, at all moments.
* `MemoContext.write_once` — what holds of every life of a context.
-/

namespace TypedCircuit

variable {host α β γ : Type} {s t : Session host} {level : Nat}

/-! ## Moments in order -/

/-- From one moment to another by moments in between, of which each is related to all later
ones. -/
structure Ascends {σ : Type} (R : σ → σ → Prop) (first : σ) (moments : List σ) (last : σ) :
    Prop where
  pairwise : moments.Pairwise R
  of_first : ∀ m ∈ moments, R first m
  to_last : ∀ m ∈ moments, R m last
  ends : R first last

namespace Ascends

variable {σ : Type} {R : σ → σ → Prop} {a b c d : σ} {xs ys : List σ}

theorem nil (h : R a b) : Ascends R a [] b :=
  ⟨.nil, List.forall_mem_nil _, List.forall_mem_nil _, h⟩

variable [IsPreorder σ R]

theorem cons (h : R a b) (h' : Ascends R b xs c) : Ascends R a (a :: xs) c where
  pairwise := .cons (fun m hm => IsTrans.trans _ _ _ h (h'.of_first m hm)) h'.pairwise
  of_first := List.forall_mem_cons.2
    ⟨Std.Refl.refl a, fun m hm => IsTrans.trans _ _ _ h (h'.of_first m hm)⟩
  to_last := List.forall_mem_cons.2 ⟨IsTrans.trans _ _ _ h h'.ends, h'.to_last⟩
  ends := IsTrans.trans _ _ _ h h'.ends

theorem append (h : Ascends R a xs b) (hStep : R b c) (h' : Ascends R c ys d) :
    Ascends R a (xs ++ ys) d := by
  have hEnd : R b d := IsTrans.trans _ _ _ hStep h'.ends
  refine ⟨List.pairwise_append.2 ⟨h.pairwise, h'.pairwise, fun m hm n hn => ?_⟩,
    List.forall_mem_append.2 ⟨h.of_first, fun n hn => ?_⟩,
    List.forall_mem_append.2 ⟨fun m hm => ?_, h'.to_last⟩, IsTrans.trans _ _ _ h.ends hEnd⟩
  · exact IsTrans.trans _ _ _ (h.to_last m hm) (IsTrans.trans _ _ _ hStep (h'.of_first n hn))
  · exact IsTrans.trans _ _ _ h.ends (IsTrans.trans _ _ _ hStep (h'.of_first n hn))
  · exact IsTrans.trans _ _ _ (h.to_last m hm) hEnd

end Ascends

/-! ## Contexts at two moments -/

/-- Whatever was pinned in a context is still pinned at a later moment, and the slots that were
filled in between are among some. -/
structure MemoContext.Follows (filled : Nat → Slot → Prop) (ctx ctx' : MemoContext) : Prop where
  kept : ctx.Kept ctx'
  filled_of {index : Nat} {slot : Slot} (h : ctx'.slot? index = some slot) :
    ctx.slot? index = some slot ∨ filled index slot

namespace MemoContext.Follows

variable {filled : Nat → Slot → Prop} {ctx between ctx' : MemoContext}

theorem refl (ctx : MemoContext) : ctx.Follows filled ctx := ⟨.refl ctx, .inl⟩

theorem trans (h : ctx.Follows filled between) (h' : between.Follows filled ctx') :
    ctx.Follows filled ctx' :=
  ⟨h.kept.trans h'.kept, fun hSlot => (h'.filled_of hSlot).elim h.filled_of .inr⟩

/-- Nothing is filled where slots stay as they are. -/
theorem of_slots (hSlots : ∀ index, ctx'.slot? index = ctx.slot? index)
    (hBlinding : ∀ x, ctx.blinding? = some x → ctx'.blinding? = some x) :
    ctx.Follows filled ctx' :=
  ⟨⟨(hSlots _).trans, hBlinding _⟩, fun hSlot => .inl ((hSlots _).symm.trans hSlot)⟩

theorem reserve (ctx : MemoContext) : ctx.Follows filled ctx.reserve.2 :=
  of_slots (slot?_reserve ctx) fun _ => id

theorem rewind (ctx : MemoContext) : ctx.Follows filled ctx.rewind :=
  of_slots (fun _ => rfl) fun _ => id

/-- A slot that is empty is filled. -/
theorem fill {index : Nat} {slot : Slot} (hEmpty : ctx.slot? index = none)
    (h : filled index slot) : ctx.Follows filled (ctx.fill index slot) := by
  refine ⟨kept_fill hEmpty slot, fun {other content} hContent => ?_⟩
  by_cases hOther : index = other
  · subst hOther
    by_cases hBound : index < ctx.slots.size
    · rw [slot?_fill_self slot hBound] at hContent
      cases hContent
      exact .inr h
    · rw [MemoContext.fill, Array.setIfInBounds_eq_of_size_le (Nat.not_lt.1 hBound)] at hContent
      exact .inl hContent
  · rw [slot?_fill_ne ctx slot hOther] at hContent
    exact .inl hContent

end MemoContext.Follows

instance {filled : Nat → Slot → Prop} : IsPreorder MemoContext (MemoContext.Follows filled) where
  refl := .refl
  trans _ _ _ := .trans

/-! ## The context of a level -/

/-- The context that has some number of contexts below it. -/
def contextAt (contexts : List MemoContext) (level : Nat) : Option MemoContext :=
  contexts.reverse[level]?

section

variable {ctx ctx' : MemoContext} {outer contexts between contexts' : List MemoContext}

theorem contextAt_cons_self (ctx : MemoContext) (outer : List MemoContext) :
    contextAt (ctx :: outer) outer.length = some ctx := by
  unfold contextAt
  rw [List.reverse_cons, List.getElem?_append_right (Nat.le_of_eq List.length_reverse),
    List.length_reverse, Nat.sub_self]
  rfl

theorem contextAt_cons_of_lt (h : level < outer.length) (ctx : MemoContext) :
    contextAt (ctx :: outer) level = contextAt outer level := by
  unfold contextAt
  rw [List.reverse_cons, List.getElem?_append_left (by rwa [List.length_reverse])]

theorem lt_length_of_contextAt (h : contextAt contexts level = some ctx) :
    level < contexts.length := by
  obtain ⟨hLevel, -⟩ := List.getElem?_eq_some_iff.1 h
  rwa [List.length_reverse] at hLevel

/-- At two moments, the context of a level follows itself. -/
def ContextsFollow (filled : Nat → Slot → Prop) (level : Nat)
    (contexts contexts' : List MemoContext) : Prop :=
  ∀ ctx, contextAt contexts level = some ctx →
    ∃ ctx', contextAt contexts' level = some ctx' ∧ ctx.Follows filled ctx'

namespace ContextsFollow

variable {filled : Nat → Slot → Prop}

theorem refl (contexts : List MemoContext) : ContextsFollow filled level contexts contexts :=
  fun ctx h => ⟨ctx, h, .refl ctx⟩

theorem trans (h : ContextsFollow filled level contexts between)
    (h' : ContextsFollow filled level between contexts') :
    ContextsFollow filled level contexts contexts' := by
  intro ctx hCtx
  obtain ⟨middle, hMiddle, hFirst⟩ := h ctx hCtx
  obtain ⟨ctx', hCtx', hLast⟩ := h' middle hMiddle
  exact ⟨ctx', hCtx', hFirst.trans hLast⟩

theorem lt_length (h : ContextsFollow filled level contexts contexts')
    (hLevel : level < contexts.length) : level < contexts'.length := by
  have hReverse : level < contexts.reverse.length := by rwa [List.length_reverse]
  obtain ⟨ctx', hCtx', -⟩ := h _ (List.getElem?_eq_getElem hReverse)
  exact lt_length_of_contextAt hCtx'

/-- Where only the innermost context changes, it is all that matters. -/
theorem cons (h : level = outer.length → ctx.Follows filled ctx') :
    ContextsFollow filled level (ctx :: outer) (ctx' :: outer) := by
  intro found hFound
  rcases Nat.lt_succ_iff_lt_or_eq.1 (lt_length_of_contextAt hFound) with hBelow | hTop
  · rw [contextAt_cons_of_lt hBelow] at hFound ⊢
    exact ⟨found, hFound, .refl found⟩
  · subst hTop
    rw [contextAt_cons_self] at hFound ⊢
    cases hFound
    exact ⟨ctx', rfl, h rfl⟩

theorem opened (ctx : MemoContext) (contexts : List MemoContext) :
    ContextsFollow filled level contexts (ctx :: contexts) := by
  intro found hFound
  rw [contextAt_cons_of_lt (lt_length_of_contextAt hFound)]
  exact ⟨found, hFound, .refl found⟩

theorem closed (h : level < contexts.length) (ctx : MemoContext) :
    ContextsFollow filled level (ctx :: contexts) contexts := by
  intro found hFound
  rw [contextAt_cons_of_lt h] at hFound
  exact ⟨found, hFound, .refl found⟩

end ContextsFollow

/-- In two sessions, the context of a level follows itself. -/
def Session.Follows (filled : Nat → Slot → Prop) (level : Nat) (s t : Session host) : Prop :=
  ContextsFollow filled level s.contexts t.contexts

instance {filled : Nat → Slot → Prop} :
    IsPreorder (Session host) (Session.Follows filled level) where
  refl s := .refl s.contexts
  trans _ _ _ := .trans

end

/-! ## What fills slots -/

/-- In a session, a memoized witness of a type fills a slot of the context of a level with what
comes of its computation. The types are those that are registered when the computation has ended. -/
def Session.Fills (s : Session host) (level index : Nat) (d : Descriptor)
    (compute : Construction host Value) (slot : Slot) (types : Registry) : Prop :=
  ∃ ctx outer after, s.contexts = ctx :: outer ∧ outer.length = level ∧ ctx.cursor = index ∧
    ctx.slot? ctx.cursor = none ∧ s.computes d = true ∧
    Construction.computeSlot d compute { s with contexts := ctx.reserve.2 :: outer } =
      (.ok slot, after) ∧ after.registry = types

/-- In the course of a program, a memoized witness of a type fills a slot of the context of a
level. -/
def Program.Fills (p : Program host α) (s : Session host) (level index : Nat) (d : Descriptor)
    (slot : Slot) (types : Registry) : Prop :=
  ∃ (δ : Type) (body : Program host Value) (next : Except Error Value → Program host δ)
    (t : Session host), p.ComesTo s (.encloses (.memoizedWitness d) body next) t ∧
      t.Fills level index d body.run slot types

theorem Program.Fills.of_comesTo {p : Program host α} {q : Program host β} {index : Nat}
    {d : Descriptor} {slot : Slot} {types : Registry} (h : p.ComesTo s q t)
    (hFills : q.Fills t level index d slot types) : p.Fills s level index d slot types := by
  obtain ⟨δ, body, next, u, hComes, hFills⟩ := hFills
  exact ⟨δ, body, next, u, h.trans hComes, hFills⟩

/-- A slot has as many elements and auxiliary entries as a type declares. Only the elements are
counted when the slot is filled; that the auxiliary entries are right is due to the type. -/
structure Slot.Counted (slot : Slot) (d : Descriptor) (types : Registry) : Prop where
  /-- As many as the type declares with the types that are registered when the slot is filled. -/
  counts : ∃ width, types.width d = .ok width ∧ slot.fields.length = width.fields ∧
    (d.Regular types → slot.aux.length = width.aux)
  /-- A type that mentions no registered types declares as many at all times. -/
  always (hRegular : d.Regular types) (hNames : d.mentions = []) (r : Registry) :
    r.width d = .ok ⟨slot.fields.length, slot.aux.length⟩

/-- What comes of a computation has the counts of its type. -/
theorem Construction.counted_of_computeSlot {d : Descriptor} {compute : Construction host Value}
    {slot : Slot} (h : computeSlot d compute s = (.ok slot, t)) :
    slot.Counted d t.registry := by
  obtain ⟨v, fields, -, hFields, hValues, -⟩ := computeSlot_ok h
  obtain ⟨width, hWidth, hLength⟩ := Codec.length_of_toFields hFields
  have hDeclared : t.registry.width d = .ok width :=
    (Registry.codec_part_width d).symm.trans hWidth
  have hCount : slot.fields.length = width.fields :=
    (mapM_eq_ok.1 hValues).length_eq.symm.trans hLength
  have hAux (hRegular : d.Regular t.registry) : slot.aux.length = width.aux := by
    obtain ⟨other, rules, hLaw⟩ := hRegular.lawful
    rw [(fits_of_computeSlot hLaw h).aux_length]
    exact congrArg Width.aux (Except.ok.inj (hLaw.width_eq.symm.trans hWidth))
  refine ⟨⟨width, hDeclared, hCount, hAux⟩, fun hRegular hNames r => ?_⟩
  have hSame : r.width d = t.registry.width d := by
    refine d.width_congr fun name hName => ?_
    rw [hNames] at hName
    cases hName
  rw [hSame, hDeclared, hCount, hAux hRegular]

/-! ## One operation -/

variable {filled : Nat → Slot → Prop}

theorem Call.contexts_follow (call : Call β) (s : Session host) :
    ContextsFollow filled level s.contexts (call.perform s).2.contexts := by
  rcases call.contexts_cases s with hSame | ⟨ctx, outer, x, hContexts, hNone, hDrawn⟩
  · rw [hSame]
    exact .refl s.contexts
  · rw [hDrawn, hContexts]
    refine .cons fun _ => .of_slots (fun _ => rfl) fun y hy => ?_
    rw [hNone] at hy
    cases hy

namespace Scope

variable {scope : Scope β γ}

/-- Where the body of an operation starts, every context is as it was, apart from a slot that is
reserved. -/
theorem follow_start (hStart : scope.start? s = some t) :
    ContextsFollow filled level s.contexts t.contexts := by
  by_cases hClear : scope.Transparent
  · rw [hClear.contexts_start hStart]
    exact .refl s.contexts
  · cases scope with
    | introduce | witness | whereValued | compile | prove => exact absurd trivial hClear
    | memoizedWitness d =>
        rcases Session.reserved?_eq_some (Option.ite_none_right_eq_some.1 hStart).2 with
          ⟨-, rfl⟩ | ⟨ctx, outer, hContexts, -, rfl⟩
        · exact .refl t.contexts
        · rw [hContexts]
          exact .cons fun _ => .reserve ctx
    | inContext ctx =>
        cases hStart
        exact .opened ctx s.contexts

/-- Without its body an operation reserves a slot at most. -/
theorem follow_skipped (body : Construction host β) (hStart : scope.start? s = none) :
    ContextsFollow filled level s.contexts (scope.enclose body s).2.contexts := by
  by_cases hClear : scope.Transparent
  · rw [hClear.contexts_enclose, hStart]
    exact .refl s.contexts
  · cases scope with
    | introduce | witness | whereValued | compile | prove => exact absurd trivial hClear
    | memoizedWitness d =>
        show ContextsFollow _ _ _ (Construction.memoizedWitness d body s).2.contexts
        rw [Construction.memoizedWitness_contexts]
        split
        · next hComputes =>
            obtain ⟨ctx, outer, slot, hContexts, hSlot⟩ :=
              Session.reserved?_eq_none ((if_pos hComputes).symm.trans hStart)
            rw [Construction.pinned_replays hContexts hSlot, hContexts]
            exact .cons fun _ => .reserve ctx
        · exact .refl s.contexts
    | inContext => cases hStart

/-- After its body an operation takes a context away, or fills the slot that was reserved. -/
theorem follow_end {body : Program host β} {next : Except Error γ → Program host α}
    (hContained : body.Contained) (hLevel : level < s.contexts.length)
    (hStart : scope.start? s = some t)
    (hFilled : ∀ index d slot types,
      (Program.encloses scope body next).Fills s level index d slot types → filled index slot) :
    ContextsFollow filled level (body.run t).2.contexts (scope.enclose body.run s).2.contexts := by
  have hGrow := Program.contexts_grow hContained t
  by_cases hClear : scope.Transparent
  · rw [hClear.contexts_enclose, hStart]
    exact .refl (body.run t).2.contexts
  · cases scope with
    | introduce | witness | whereValued | compile | prove => exact absurd trivial hClear
    | memoizedWitness d =>
        obtain ⟨hComputes, hReserved⟩ := Option.ite_none_right_eq_some.1 hStart
        show ContextsFollow _ _ _ (Construction.memoizedWitness d body.run s).2.contexts
        rw [Construction.memoizedWitness_contexts, if_pos hComputes]
        rcases Session.reserved?_eq_some hReserved with
          ⟨hContexts, rfl⟩ | ⟨ctx, outer, hContexts, hEmpty, rfl⟩
        · rw [Construction.pinned_unmemoized hContexts]
          exact .refl (body.run t).2.contexts
        · obtain ⟨ctx', hAfter, hGrows⟩ := hGrow.exists_cons
          rw [Construction.pinned_computes hContexts hEmpty hAfter, hAfter]
          refine .cons fun hTop => ?_
          rcases hOk : Construction.computeSlot d body.run
              { s with contexts := ctx.reserve.2 :: outer } with ⟨e | slot, after⟩
          · exact .refl ctx'
          · refine .fill (hGrows.slot?_reserved hEmpty) (hFilled _ d slot after.registry ?_)
            exact ⟨α, body, next, s, .here _ s, ctx, outer, after, hContexts, hTop.symm, rfl,
              hEmpty, hComputes, hOk, rfl⟩
    | inContext ctx =>
        cases hStart
        obtain ⟨ctx', hAfter, -⟩ := hGrow.exists_cons
        show ContextsFollow _ _ _ (Construction.inContext ctx body.run s).2.contexts
        rw [Construction.inContext_eq hAfter, hAfter]
        exact .closed hLevel ctx'

end Scope

/-! ## One body -/

/-- What a contained body does to a context below it or on top: at every moment, what was pinned at
an earlier one is still pinned, and what was not is filled in the course of the body. -/
theorem Program.trace_follows {p : Program host α} (hContained : p.Contained)
    (hLevel : level < s.contexts.length)
    (hFilled : ∀ index d slot types, p.Fills s level index d slot types → filled index slot) :
    Ascends (Session.Follows filled level) s (p.trace s) (p.run s).2 := by
  induction p generalizing s with
  | returns result =>
      have hSame : ((returns result : Program host _).run s).2 = s := by cases result <;> rfl
      rw [hSame]
      exact .cons (Std.Refl.refl s) (.nil (Std.Refl.refl s))
  | does x hRuns next ih =>
      have hStep : s.Follows filled level (x s).2 := by
        show ContextsFollow _ _ _ (x s).2.contexts
        rw [hContained.1]
        exact .refl s.contexts
      refine .cons hStep (ih _ (hContained.2 _) (hStep.lt_length hLevel) ?_)
      exact fun index d slot types hFills =>
        hFilled index d slot types (.of_comesTo (.does x hRuns next (.here _ _)) hFills)
  | calls call next ih =>
      have hStep : s.Follows filled level (call.perform s).2 := call.contexts_follow s
      refine .cons hStep (ih _ (hContained _) (hStep.lt_length hLevel) ?_)
      exact fun index d slot types hFills =>
        hFilled index d slot types (.of_comesTo (.calls call next (.here _ _)) hFills)
  | encloses scope body next ihBody ih =>
      have hRest (hStep : s.Follows filled level (scope.enclose body.run s).2) :=
        ih (scope.enclose body.run s).1 (hContained.2 _) (hStep.lt_length hLevel)
          fun index d slot types hFills =>
            hFilled index d slot types (.of_comesTo (.after scope body next (.here _ _)) hFills)
      cases hStart : scope.start? s with
      | none =>
          have hStep : s.Follows filled level (scope.enclose body.run s).2 :=
            scope.follow_skipped body.run hStart
          rw [trace, hStart]
          exact .cons hStep (hRest hStep)
      | some t =>
          have hFirst : s.Follows filled level t := scope.follow_start hStart
          have hBody := ihBody hContained.1 (hFirst.lt_length hLevel)
            fun index d slot types hFills => hFilled index d slot types
              (.of_comesTo (.inside scope body next hStart (.here _ _)) hFills)
          have hLast : (body.run t).2.Follows filled level (scope.enclose body.run s).2 :=
            scope.follow_end hContained.1 hLevel hStart hFilled
          rw [trace, hStart]
          exact .cons hFirst (hBody.append hLast
            (hRest (hFirst.trans (hBody.ends.trans hLast))))

/-! ## A life -/

namespace MemoContext

/-- What a caller does with a context. -/
inductive Use (host : Type) : Type 1 where
  /-- Moves the cursor back. -/
  | rewind
  /-- Executes a body in the context, from a session. -/
  | run {α : Type} (p : Program host α) (s : Session host)

namespace Use

/-- Whether the body of a use is contained. -/
def Contained : Use host → Prop
  | rewind => True
  | run p _ => p.Contained

/-- The context after a use. -/
def leaves (ctx : MemoContext) : Use host → MemoContext
  | rewind => ctx.rewind
  | run p s => (Construction.inContext ctx p.run s).1.2

/-- The context at the moments of a use, in the order of time. -/
def moments (ctx : MemoContext) : Use host → List MemoContext
  | rewind => []
  | run p s => (p.trace (s.within ctx)).filterMap (contextAt ·.contexts s.contexts.length)

/-- In the course of a use, a memoized witness of a type fills a slot of the context. -/
def Fills (ctx : MemoContext) (index : Nat) (d : Descriptor) (slot : Slot) (types : Registry) :
    Use host → Prop
  | rewind => False
  | run p s => p.Fills (s.within ctx) s.contexts.length index d slot types

end Use

/-- A context after a number of uses, one after another. -/
def after (ctx : MemoContext) : List (Use host) → MemoContext
  | [] => ctx
  | use :: rest => (use.leaves ctx).after rest

/-- A context at all moments of a number of uses, in the order of time. -/
def life (ctx : MemoContext) : List (Use host) → List MemoContext
  | [] => [ctx]
  | use :: rest => ctx :: (use.moments ctx ++ (use.leaves ctx).life rest)

/-- In the course of a number of uses, a memoized witness of a type fills a slot of the context. -/
def FillsIn (ctx : MemoContext) (index : Nat) (d : Descriptor) (slot : Slot) (types : Registry) :
    List (Use host) → Prop
  | [] => False
  | use :: rest =>
    use.Fills ctx index d slot types ∨ (use.leaves ctx).FillsIn index d slot types rest

variable {ctx ctx' : MemoContext} {index : Nat} {d : Descriptor} {slot : Slot} {types : Registry}

theorem FillsIn.counted {uses : List (Use host)} (h : ctx.FillsIn index d slot types uses) :
    slot.Counted d types := by
  induction uses generalizing ctx with
  | nil => exact h.elim
  | cons use rest ih =>
      rcases h with h | h
      · cases use with
        | rewind => exact h.elim
        | run p s =>
            obtain ⟨δ, body, next, t, -, at', outer, after, -, -, -, -, -, hOk, rfl⟩ := h
            exact Construction.counted_of_computeSlot hOk
      · exact ih h

end MemoContext

/-- The context of a level at moments in order. -/
theorem Ascends.contextAt {moments : List (Session host)} {ctx ctx' : MemoContext}
    (h : Ascends (Session.Follows filled level) s moments t)
    (hFirst : contextAt s.contexts level = some ctx)
    (hLast : contextAt t.contexts level = some ctx') :
    Ascends (MemoContext.Follows filled) ctx
      (moments.filterMap (TypedCircuit.contextAt ·.contexts level)) ctx' := by
  have hBoth {u v : Session host} {c c' : MemoContext} (hFollows : u.Follows filled level v)
      (hc : TypedCircuit.contextAt u.contexts level = some c)
      (hc' : TypedCircuit.contextAt v.contexts level = some c') : c.Follows filled c' := by
    obtain ⟨found, hFound, hFollows⟩ := hFollows c hc
    rw [hc'] at hFound
    cases hFound
    exact hFollows
  refine ⟨List.pairwise_filterMap.2 (h.pairwise.imp fun hFollows c hc c' hc' =>
    hBoth hFollows hc hc'), fun m hm => ?_, fun m hm => ?_, hBoth h.ends hFirst hLast⟩
  · obtain ⟨u, hu, hm⟩ := List.mem_filterMap.1 hm
    exact hBoth (h.of_first u hu) hFirst hm
  · obtain ⟨u, hu, hm⟩ := List.mem_filterMap.1 hm
    exact hBoth (h.to_last u hu) hm hLast

namespace MemoContext

variable {ctx : MemoContext}

theorem Use.ascends {use : Use host} (hContained : use.Contained)
    (hFilled : ∀ index d slot types, use.Fills ctx index d slot types → filled index slot) :
    Ascends (Follows filled) ctx (use.moments ctx) (use.leaves ctx) := by
  cases use with
  | rewind => exact .nil (.rewind ctx)
  | run p s =>
      have hTrace := p.trace_follows hContained (Nat.lt_succ_self s.contexts.length) hFilled
      obtain ⟨ctx', hAfter, -⟩ := (Program.contexts_grow hContained (s.within ctx)).exists_cons
      have hLeaves : (run p s).leaves ctx = ctx' := by
        show (Construction.inContext ctx p.run s).1.2 = ctx'
        rw [Construction.inContext_eq hAfter]
      rw [hLeaves]
      refine hTrace.contextAt (contextAt_cons_self ctx s.contexts) ?_
      rw [hAfter]
      exact contextAt_cons_self ctx' s.contexts

/-- At every moment of a life, what was pinned at an earlier one is still pinned, and what was not
is filled in the course of the life. -/
theorem life_ascends (filled : Nat → Slot → Prop) {uses : List (Use host)}
    (hContained : ∀ use ∈ uses, use.Contained)
    (hFilled : ∀ index d slot types, ctx.FillsIn index d slot types uses → filled index slot) :
    Ascends (Follows filled) ctx (ctx.life uses) (ctx.after uses) := by
  induction uses generalizing ctx with
  | nil => exact .cons (.refl ctx) (.nil (.refl ctx))
  | cons use rest ih =>
      obtain ⟨hUse, hRest⟩ := List.forall_mem_cons.1 hContained
      have hFirst : Ascends (Follows filled) ctx (use.moments ctx) (use.leaves ctx) :=
        use.ascends hUse fun index d slot types hFills =>
          hFilled index d slot types (.inl hFills)
      have hLater : Ascends (Follows filled) (use.leaves ctx) ((use.leaves ctx).life rest)
          ((use.leaves ctx).after rest) :=
        ih hRest fun index d slot types hFills => hFilled index d slot types (.inr hFills)
      exact .cons (.refl ctx) (hFirst.append (.refl _) hLater)

end MemoContext

/-- The slot that a memoized witness has reserved is filled if something comes of its computation,
and is left empty otherwise. -/
theorem Construction.memoizedWitness_slot {d : Descriptor} {body : Program host Value}
    (hContained : body.Contained) {ctx : MemoContext} {outer : List MemoContext}
    (hContexts : s.contexts = ctx :: outer) (hEmpty : ctx.slot? ctx.cursor = none)
    (hComputes : s.computes d = true) :
    ∃ ctx', (memoizedWitness d body.run s).2.contexts = ctx' :: outer ∧
      ctx'.slot? ctx.cursor = (computeSlot d body.run
        { s with contexts := ctx.reserve.2 :: outer }).1.toOption := by
  obtain ⟨ctx', hAfter, hGrows⟩ := (Program.contexts_grow hContained
    { s with contexts := ctx.reserve.2 :: outer }).exists_cons
  rw [memoizedWitness_contexts, if_pos hComputes, pinned_computes hContexts hEmpty hAfter]
  rcases (computeSlot d body.run { s with contexts := ctx.reserve.2 :: outer }).1 with e | slot
  · exact ⟨ctx', rfl, hGrows.slot?_reserved hEmpty⟩
  · exact ⟨ctx'.fill ctx.cursor slot, rfl, MemoContext.slot?_fill_reserved hGrows.extend slot⟩

/--
Let a context be used a number of times, one after another: rewound, or given to contained bodies,
each from a session of its own. At every moment of its life, what was pinned at an earlier moment is
still pinned, slot by slot, and so is the blinding value. A slot that is filled then was filled
already in the beginning, or by a memoized witness in the course of the life, and in that case it
has as many elements as the type of the witness declares, and as many auxiliary entries if the type
is regular. Whenever a memoized witness reserves a slot that is empty, it leaves the slot empty unless
something came of its computation, and it does so if the computation fails.
-/
theorem MemoContext.write_once {uses : List (Use host)}
    (hContained : ∀ use ∈ uses, use.Contained) (ctx : MemoContext) :
    (ctx.life uses).Pairwise Kept ∧
      (∀ moment ∈ ctx.life uses, ∀ index slot, moment.slot? index = some slot →
        ctx.slot? index = some slot ∨
          ∃ d types, ctx.FillsIn index d slot types uses ∧ slot.Counted d types) ∧
      ∀ (d : Descriptor) (body : Program host Value) (s : Session host) (held : MemoContext)
        (outer : List MemoContext), body.Contained → s.contexts = held :: outer →
        held.slot? held.cursor = none → s.computes d = true →
        ∃ left, (Construction.memoizedWitness d body.run s).2.contexts = left :: outer ∧
          left.slot? held.cursor = (Construction.computeSlot d body.run
            { s with contexts := held.reserve.2 :: outer }).1.toOption ∧
          ∀ e, (body.run { s with contexts := held.reserve.2 :: outer }).1 = .error e →
            left.slot? held.cursor = none := by
  refine ⟨?_, fun moment hMoment index slot hSlot => ?_, ?_⟩
  · have hLife : Ascends (Follows fun _ _ => True) ctx (ctx.life uses) (ctx.after uses) :=
      life_ascends _ hContained fun _ _ _ _ _ => trivial
    exact hLife.pairwise.imp Follows.kept
  · have hLife : Ascends (Follows fun index slot => ∃ d types, ctx.FillsIn index d slot types uses)
        ctx (ctx.life uses) (ctx.after uses) :=
      life_ascends _ hContained fun _ d _ types hFills => ⟨d, types, hFills⟩
    rcases (hLife.of_first moment hMoment).filled_of hSlot with hFirst | ⟨d, types, hFills⟩
    · exact .inl hFirst
    · exact .inr ⟨d, types, hFills, hFills.counted⟩
  · intro d body s held outer hBody hContexts hEmpty hComputes
    obtain ⟨left, hAfter, hSlot⟩ :=
      Construction.memoizedWitness_slot hBody hContexts hEmpty hComputes
    refine ⟨left, hAfter, hSlot, fun e hFails => ?_⟩
    rcases hRun : body.run { s with contexts := held.reserve.2 :: outer } with ⟨result, after⟩
    rw [hRun] at hFails
    cases hFails
    have hNothing : Construction.computeSlot d body.run
        { s with contexts := held.reserve.2 :: outer } = (.error e, after) :=
      Construction.bind_error hRun
    rw [hSlot, hNothing]
    rfl

/-! ## A context that is used twice -/

/-- Memoizes a computation that fails, then one that memoizes another value itself, and asks for
the blinding value. -/
private def faltering : Program Unit Unit :=
  .encloses (.memoizedWitness .field) (.returns (.error .valueUnavailable)) fun _ =>
    .encloses (.memoizedWitness .field)
      (.encloses (.memoizedWitness .boolean) (.returns (.ok (.bit ⟨.constant 1⟩))) fun _ =>
        .returns (.ok (.ofElement 5))) fun _ =>
      .calls .blinding fun _ => .returns (.ok ())

/-- Memoizes two values, and the first time none was memoized in the first place. -/
private def recovering : Program Unit Unit :=
  .encloses (.memoizedWitness .field) (.returns (.ok (.ofElement 7))) fun _ =>
    .encloses (.memoizedWitness .field) (.returns (.ok (.ofElement 8))) fun _ =>
      .returns (.ok ())

/-- Both bodies, the second one in a prove pass of its own. -/
private def twice : List (MemoContext.Use Unit) :=
  [.run faltering (Session.start [] ()), .rewind,
    .run (.encloses .prove recovering fun _ => .returns (.ok ())) (Session.start [] ())]

private theorem contained_twice : ∀ use ∈ twice, use.Contained := by
  have hFaltering : faltering.Contained :=
    ⟨trivial, fun _ => ⟨⟨trivial, fun _ => trivial⟩, fun _ _ => trivial⟩⟩
  have hRecovering : recovering.Contained :=
    ⟨trivial, fun _ => ⟨trivial, fun _ => trivial⟩⟩
  exact List.forall_mem_cons.2 ⟨hFaltering, List.forall_mem_cons.2 ⟨trivial,
    List.forall_mem_cons.2 ⟨⟨hRecovering, fun _ => trivial⟩, List.forall_mem_nil _⟩⟩⟩

/-- The slot of the computation that failed is filled the second time. The next one keeps the value
of the first time, and so do the slot that was filled inside of it and the blinding value. -/
theorem write_once_twice :
    (∀ use ∈ twice, use.Contained) ∧ (MemoContext.empty.life twice).Pairwise MemoContext.Kept ∧
      (MemoContext.empty.after (twice.take 1)).slot? 0 = none ∧
      (MemoContext.empty.after (twice.take 1)).slot? 1 = some ⟨[5], []⟩ ∧
      (MemoContext.empty.after twice).slot? 0 = some ⟨[7], []⟩ ∧
      (MemoContext.empty.after twice).slot? 1 = some ⟨[5], []⟩ ∧
      (MemoContext.empty.after twice).slot? 2 = some ⟨[1], []⟩ := by
  obtain ⟨hKept, -, -⟩ := MemoContext.write_once contained_twice .empty
  exact ⟨contained_twice, hKept, rfl, rfl, rfl, rfl, rfl⟩

end TypedCircuit
