import TypedCircuit.Proofs.Codec.Regular
import TypedCircuit.Proofs.Memo.Computations
import TypedCircuit.Proofs.Memo.Pinning

/-!
# Replaying a body

A body is executed in a new context, the context is rewound, and a body of the same types is
executed in it. If the second pass replays the first, its values have the contents of the first
pass, and nothing of it depends on its computations.

The second pass takes the slots one after another, since a witness that is replayed leaves the
slots of its nested witnesses alone. The first pass did not: a memoized witness inside a
computation took the next slot, and the calls after it took later ones. The second pass
therefore replays the first exactly if each call meets, in the slot of its own number, what it
had put into the slot it took.

## Main results

* `MemoizedBody.pinned_of_run` — a pass leaves the contents of its values in the slots it took.
* `MemoizedBody.replays_iff` — when a second pass replays the first.
* `MemoizedBody.replays_of_unnested` — it does if at most the last call has nested calls.
-/

namespace TypedCircuit

variable {host : Type}

/-! ## Values of the same contents -/

/-- Two values of a type have the same contents. -/
def Codec.Same (c : Codec) (v w : Value) : Prop :=
  ∃ contents, c.contents v = .ok contents ∧ c.contents w = .ok contents

/-- Values of types have the same contents, one by one. -/
inductive SameAll (r : Registry) : List Descriptor → List Value → List Value → Prop where
  | nil : SameAll r [] [] []
  | cons {d : Descriptor} {types : List Descriptor} {v w : Value} {values values' : List Value}
    (h : (r.codec d).Same v w) (hRest : SameAll r types values values') :
    SameAll r (d :: types) (v :: values) (w :: values')

/-- Values of types have the contents of the slots at given positions, and the slots serve. -/
inductive Pinned (r : Registry) (mode? : Option Mode) (ctx : MemoContext) :
    List Descriptor → List Nat → List Value → Prop where
  | nil : Pinned r mode? ctx [] [] []
  | cons {d : Descriptor} {types : List Descriptor} {position : Nat} {positions : List Nat}
    {v : Value} {values : List Value} {slot : Slot} (hSlot : ctx.slot? position = some slot)
    (hServes : slot.Serves (r.codec d) mode?)
    (hContents : (r.codec d).contents v = .ok slot.contents)
    (hRest : Pinned r mode? ctx types positions values) :
    Pinned r mode? ctx (d :: types) (position :: positions) (v :: values)

namespace Pinned

variable {r : Registry} {mode? : Option Mode} {ctx ctx' : MemoContext} {types : List Descriptor}
  {positions : List Nat} {values values' : List Value}

theorem mono (h : Pinned r mode? ctx types positions values)
    (hSlots : ∀ index slot, ctx.slot? index = some slot → ctx'.slot? index = some slot) :
    Pinned r mode? ctx' types positions values := by
  induction h with
  | nil => exact .nil
  | cons hSlot hServes hContents _ ih => exact .cons (hSlots _ _ hSlot) hServes hContents ih

/-- Values of the same contents are pinned to equal slots. -/
theorem slot?_eq {start : Nat} (h : Pinned r mode? ctx types positions values)
    (h' : Pinned r mode? ctx types (List.range' start types.length) values')
    (hSame : SameAll r types values values') {index position : Nat}
    (hPosition : positions[index]? = some position) :
    ctx.slot? (start + index) = ctx.slot? position := by
  induction h generalizing start values' index with
  | nil => cases hPosition
  | @cons d types first positions v values slot hSlot hServes hContents hRest ih =>
      cases hSame with
      | cons hHead hSameRest =>
          cases h' with
          | cons hSlot' _ hContents' hRest' =>
              cases index with
              | zero =>
                  cases hPosition
                  obtain ⟨contents, hFirst, hSecond⟩ := hHead
                  have hSlots := Slot.contents_injective (Except.ok.inj
                    ((hContents.symm.trans hFirst).trans (hSecond.symm.trans hContents')))
                  rw [Nat.add_zero, hSlot, hSlot', hSlots]
              | succ index =>
                  rw [← Nat.add_assoc, Nat.add_right_comm]
                  exact ih hRest' hSameRest hPosition

end Pinned

/-! ## The first pass -/

/-- The slot that is reserved next, counted from zero. -/
def Session.cursor (s : Session host) : Nat :=
  match s.contexts with
  | [] => 0
  | ctx :: _ => ctx.cursor

/-- A session in which one more context is open. -/
def Session.within (s : Session host) (ctx : MemoContext) : Session host :=
  { s with contexts := ctx :: s.contexts }

namespace MemoizedBody

/-- The slots that the calls of a body take, each after what the calls before it have done. -/
def slotsTaken : MemoizedBody host → Session host → List Nat
  | [], _ => []
  | (d, compute) :: rest, s =>
    s.cursor :: slotsTaken rest (Construction.memoizedWitness d compute.run s).2

/-- What a call has done that succeeded where nothing is filled from the cursor on: its slot is
filled with the contents of its value, and it has taken no other slot if nothing in its computation
is memoized. -/
structure Called (d : Descriptor) (compute : Computation host) (s between : Session host)
    (ctx ctx' : MemoContext) (v : Value) : Prop where
  registry_eq : between.registry = s.registry
  mode_eq : activeMode? between.runs = activeMode? s.runs
  fresh : ctx'.Fresh
  filled : ∃ slot, ctx'.slot? ctx.cursor = some slot ∧
    slot.Serves (s.registry.codec d) (activeMode? s.runs) ∧
    (s.registry.codec d).contents v = .ok slot.contents
  cursor_eq (h : compute.Unnested) : ctx'.cursor = ctx.cursor + 1

namespace Called

variable {d : Descriptor} {compute : Computation host} {s between : Session host}
  {ctx ctx' : MemoContext} {v : Value}

theorem types_regular (h : Called d compute s between ctx ctx' v) {rest : MemoizedBody host}
    (hTypes : ∀ d' ∈ types ((d, compute) :: rest), d'.Regular s.registry) :
    ∀ d' ∈ types rest, d'.Regular between.registry := by
  intro d' hd'
  rw [h.registry_eq]
  exact hTypes d' (List.mem_cons_of_mem _ hd')

theorem valued (h : Called d compute s between ctx ctx' v)
    (hValued : activeMode? s.runs ≠ some .compile) :
    activeMode? between.runs ≠ some .compile := by rwa [h.mode_eq]

end Called

theorem called_of_run {d : Descriptor} {compute : Computation host} {rest : MemoizedBody host}
    {s s' : Session host} {ctx : MemoContext} {outer : List MemoContext} {values : List Value}
    (hType : d.Regular s.registry) (hContexts : s.contexts = ctx :: outer) (hFresh : ctx.Fresh)
    (hValued : activeMode? s.runs ≠ some .compile)
    (hOk : run ((d, compute) :: rest) s = (.ok values, s')) :
    ∃ v values' between ctx', Called d compute s between ctx ctx' v ∧
      between.contexts = ctx' :: outer ∧ run rest between = (.ok values', s') ∧
      values = v :: values' ∧
      slotsTaken ((d, compute) :: rest) s = ctx.cursor :: slotsTaken rest between := by
  obtain ⟨v, between, values', hHead, hRest, hValues⟩ := run_cons_eq_ok hOk
  obtain ⟨width, rules, hLaw⟩ := hType.lawful
  obtain ⟨slot, ctx', hContexts', hSlot, hServes, hContents, hCursor⟩ :=
    Construction.memoizedWitness_ok hContexts (hFresh _ (Nat.le_refl _)) hValued
      compute.steady hLaw hHead
  have hEvolves := Construction.Steady.memoizedWitness d compute.steady s
  rw [hHead] at hEvolves
  have hGrown := hEvolves.contexts
  rw [hContexts, hContexts'] at hGrown
  refine ⟨v, values', between, ctx', ⟨hEvolves.registry_eq, hEvolves.mode_eq,
    hGrown.extends_head.fresh hFresh, ⟨slot, hSlot, hServes, hContents⟩,
    fun h => hCursor h.steady⟩, hContexts', hRest, hValues, ?_⟩
  have hStart : s.cursor = ctx.cursor := by
    unfold Session.cursor
    rw [hContexts]
  rw [slotsTaken, hStart, hHead]

/-- A pass that succeeded has left the contents of its values in the slots it took. -/
theorem pinned_of_run {body : MemoizedBody host} {s s' : Session host} {ctx : MemoContext}
    {outer : List MemoContext} {values : List Value}
    (hTypes : ∀ d ∈ body.types, d.Regular s.registry) (hContexts : s.contexts = ctx :: outer)
    (hFresh : ctx.Fresh) (hValued : activeMode? s.runs ≠ some .compile)
    (hOk : body.run s = (.ok values, s')) :
    ∃ ctx', s'.contexts = ctx' :: outer ∧
      Pinned s.registry (activeMode? s.runs) ctx' body.types (body.slotsTaken s) values := by
  induction body generalizing s ctx values with
  | nil =>
      cases hOk
      exact ⟨ctx, hContexts, .nil⟩
  | cons call rest ih =>
      obtain ⟨v, values', between, ctx₁, hCalled, hContexts₁, hRest, rfl, hTaken⟩ :=
        called_of_run (hTypes call.1 List.mem_cons_self) hContexts hFresh hValued hOk
      obtain ⟨ctx', hContexts', hPinned⟩ := ih (hCalled.types_regular hTypes) hContexts₁
        hCalled.fresh (hCalled.valued hValued) hRest
      rw [hCalled.registry_eq, hCalled.mode_eq] at hPinned
      have hLater := (MemoizedBody.steady rest between).contexts
      rw [hRest, hContexts₁, hContexts'] at hLater
      obtain ⟨slot, hSlot, hServes, hContents⟩ := hCalled.filled
      refine ⟨ctx', hContexts', ?_⟩
      rw [hTaken]
      exact .cons (hLater.extends_head.slot?_some hSlot) hServes hContents hPinned

/-- If nothing is memoized in the computations of the calls but the last, the calls take the slots
one after another. -/
theorem slotsTaken_of_unnested {body : MemoizedBody host} {s s' : Session host}
    {ctx : MemoContext} {outer : List MemoContext} {values : List Value}
    (hTypes : ∀ d ∈ body.types, d.Regular s.registry) (hContexts : s.contexts = ctx :: outer)
    (hFresh : ctx.Fresh) (hValued : activeMode? s.runs ≠ some .compile)
    (hOk : body.run s = (.ok values, s'))
    (hUnnested : ∀ call ∈ body.dropLast, call.2.Unnested) {index position : Nat}
    (h : (body.slotsTaken s)[index]? = some position) : position = ctx.cursor + index := by
  induction body generalizing s ctx values index with
  | nil => cases h
  | cons call rest ih =>
      obtain ⟨v, values', between, ctx₁, hCalled, hContexts₁, hRest, rfl, hTaken⟩ :=
        called_of_run (hTypes call.1 List.mem_cons_self) hContexts hFresh hValued hOk
      rw [hTaken] at h
      cases index with
      | zero => cases h; rfl
      | succ index =>
          cases rest with
          | nil => cases h
          | cons next rest =>
              have hNext := ih (hCalled.types_regular hTypes) hContexts₁ hCalled.fresh
                (hCalled.valued hValued) hRest
                (fun other hOther => hUnnested other (List.mem_cons_of_mem _ hOther)) h
              rw [hNext, hCalled.cursor_eq (hUnnested call List.mem_cons_self)]
              omega

/-! ## The second pass -/

/-- A body whose computations all fail. -/
def failing (e : Error) (types : List Descriptor) : MemoizedBody host :=
  types.map fun d => (d, .fails e)

theorem types_failing (e : Error) (types : List Descriptor) :
    (failing e types : MemoizedBody host).types = types := by
  unfold failing MemoizedBody.types
  rw [List.map_map]
  exact List.map_id types

/-- If each call of a body meets what is pinned for it, the pass is the same for all bodies of the
same types. -/
theorem run_of_pinned {t : Session host} {ctx again : MemoContext} {outer : List MemoContext}
    {types : List Descriptor} {positions : List Nat} {values : List Value}
    (h : Pinned t.registry (activeMode? t.runs) ctx types positions values)
    (hContexts : t.contexts = again :: outer) (hSlots : ∀ index, again.slot? index = ctx.slot? index)
    (hValued : activeMode? t.runs ≠ some .compile)
    (hMet : ∀ index position, positions[index]? = some position →
      ctx.slot? (again.cursor + index) = ctx.slot? position) :
    ∃ values' t' ctx', (∀ body : MemoizedBody host, body.types = types →
        body.run t = (.ok values', t')) ∧ t'.contexts = ctx' :: outer ∧
      SameAll t.registry types values values' := by
  induction types generalizing t again positions values with
  | nil =>
      cases h
      refine ⟨[], t, again, fun body hTypes => ?_, hContexts, .nil⟩
      obtain rfl := List.map_eq_nil_iff.1 hTypes
      rfl
  | cons d types ih =>
      cases h with
      | @cons _ _ position positions v values slot hSlot hServes hContents hRest =>
          have hFilled : again.slot? again.cursor = some slot := by
            rw [hSlots, ← hSlot]
            exact hMet 0 position rfl
          obtain ⟨w, runs, hHead, hMode, hSame⟩ :=
            Construction.memoizedWitness_filled hContexts hFilled hValued hServes
          have hMet' : ∀ index position, positions[index]? = some position →
              ctx.slot? (again.reserve.2.cursor + index) = ctx.slot? position := by
            intro index position hPosition
            have hNext := hMet (index + 1) position hPosition
            rwa [MemoContext.cursor_reserve, Nat.add_right_comm]
          have hSlots' : ∀ index, again.reserve.2.slot? index = ctx.slot? index :=
            fun index => (MemoContext.slot?_reserve again index).trans (hSlots index)
          obtain ⟨values', t', ctx', hAll, hContexts', hSameRest⟩ :=
            ih (t := { t with runs, contexts := again.reserve.2 :: outer })
              (by rw [hMode]; exact hRest) rfl hSlots' (by rw [hMode]; exact hValued) hMet'
          refine ⟨w :: values', t', ctx', fun body hTypes => ?_, hContexts',
            .cons ⟨slot.contents, hContents, hSame⟩ hSameRest⟩
          cases body with
          | nil => cases hTypes
          | cons call rest =>
              obtain ⟨d', compute⟩ := call
              obtain ⟨rfl, hRestTypes⟩ := List.cons.inj hTypes
              exact run_cons_ok (hHead compute.run) (hAll rest hRestTypes)

/-- A pass that has succeeded although all its computations fail has met a slot that serves for
each call in turn. -/
theorem pinned_of_failing {e : Error} {types : List Descriptor} {t t' : Session host}
    {ctx : MemoContext} {outer : List MemoContext} {values : List Value}
    (hTypes : ∀ d ∈ types, d.Regular t.registry) (hContexts : t.contexts = ctx :: outer)
    (hSound : ctx.Sound) (hValued : activeMode? t.runs ≠ some .compile)
    (hOk : (failing e types).run t = (.ok values, t')) :
    Pinned t.registry (activeMode? t.runs) ctx types (List.range' ctx.cursor types.length)
      values := by
  induction types generalizing t ctx values with
  | nil =>
      cases hOk
      exact .nil
  | cons d types ih =>
      obtain ⟨v, between, values', hHead, hRest, rfl⟩ := run_cons_eq_ok hOk
      obtain ⟨width, rules, hLaw⟩ := (hTypes d List.mem_cons_self).lawful
      obtain ⟨slot, hSlot, hServes⟩ :=
        Construction.exists_slot_of_failing hContexts hSound hValued hLaw hHead
      obtain ⟨w, runs, hAll, hMode, hContents⟩ :=
        Construction.memoizedWitness_filled hContexts hSlot hValued hServes
      obtain ⟨hValue, hSession⟩ := Prod.mk.inj (hHead.symm.trans (hAll _))
      obtain rfl := Except.ok.inj hValue
      subst hSession
      have hPinned := ih (t := { t with runs, contexts := ctx.reserve.2 :: outer })
        (fun d hd => hTypes d (List.mem_cons_of_mem _ hd)) rfl
        ((MemoContext.extends_reserve ctx).sound hSound) (by rw [hMode]; exact hValued) hRest
      rw [hMode] at hPinned
      refine .cons hSlot hServes hContents (hPinned.mono fun index slot h => ?_)
      rwa [MemoContext.slot?_reserve] at h

/-! ## Passes without values -/

/-- Compile passes over bodies of the same types have the same contents, reserve no slot and
execute no computation. -/
theorem run_compile {types : List Descriptor} {s t : Session host}
    (hTypes : ∀ d ∈ types, d.Regular s.registry) (hRegistry : t.registry = s.registry)
    (hCompile : activeMode? s.runs = some .compile)
    (hCompile' : activeMode? t.runs = some .compile) :
    ∃ values s' values' t', (∀ body : MemoizedBody host, body.types = types →
        body.run s = (.ok values, s') ∧ body.run t = (.ok values', t')) ∧
      s'.contexts = s.contexts ∧ t'.contexts = t.contexts ∧
      SameAll t.registry types values values' := by
  induction types generalizing s t with
  | nil =>
      refine ⟨[], s, [], t, fun body hBody => ?_, rfl, rfl, .nil⟩
      obtain rfl := List.map_eq_nil_iff.1 hBody
      exact ⟨rfl, rfl⟩
  | cons d types ih =>
      obtain ⟨width, rules, hLaw⟩ := (hTypes d List.mem_cons_self).lawful
      have hLaw' := hLaw
      rw [← hRegistry] at hLaw'
      obtain ⟨v, runs, hHead, hMode, hContents⟩ :=
        Construction.memoizedWitness_compile hCompile hLaw
      obtain ⟨w, runs', hHead', hMode', hContents'⟩ :=
        Construction.memoizedWitness_compile hCompile' hLaw'
      obtain ⟨values, s', values', t', hAll, hContexts, hContexts', hSame⟩ :=
        ih (s := { s with runs }) (t := { t with runs := runs' })
          (fun d hd => hTypes d (List.mem_cons_of_mem _ hd)) hRegistry (hMode.trans hCompile)
          (hMode'.trans hCompile')
      rw [← hRegistry] at hContents
      refine ⟨v :: values, s', w :: values', t', fun body hBody => ?_, hContexts, hContexts',
        .cons ⟨_, hContents, hContents'⟩ hSame⟩
      cases body with
      | nil => cases hBody
      | cons call rest =>
          obtain ⟨d', compute⟩ := call
          obtain ⟨rfl, hRest⟩ := List.cons.inj hBody
          exact ⟨run_cons_ok (hHead compute.run) (hAll rest hRest).1,
            run_cons_ok (hHead' compute.run) (hAll rest hRest).2⟩

/-! ## Both passes -/

open Construction in
theorem inContext_eq {α : Type} {x : Construction host α} {result : Except Error α}
    {s s' : Session host} {ctx ctx' : MemoContext} {outer : List MemoContext}
    (h : x (s.within ctx) = (result, s')) (hContexts : s'.contexts = ctx' :: outer) :
    inContext ctx x s = ((result, ctx'), { s' with contexts := outer }) := by
  have hBody : x { s with contexts := ctx :: s.contexts } = (result, s') := h
  unfold inContext
  simp only [hBody, hContexts]

open Construction in
/-- What a body did in a context that was opened for it. -/
theorem exists_of_inContext {body : MemoizedBody host} {s s' : Session host}
    {ctx ctx' : MemoContext} {result : Except Error (List Value)}
    (h : inContext ctx body.run s = ((result, ctx'), s')) :
    ∃ after, body.run (s.within ctx) = (result, after) ∧ after.contexts = ctx' :: s.contexts := by
  have hGrown := (body.steady (s.within ctx)).contexts
  rcases hBody : body.run (s.within ctx) with ⟨result', after⟩
  rw [hBody] at hGrown
  obtain ⟨left, hContexts, -⟩ := hGrown.exists_cons
  rw [inContext_eq hBody hContexts] at h
  cases h
  exact ⟨after, rfl, hContexts⟩

open Construction in
/-- After a first pass with the given values, passes over all bodies of the same types in the
rewound context do the same, and their values have the contents of the first pass. -/
def Replays (body : MemoizedBody host) (values : List Value) (ctx : MemoContext)
    (t : Session host) : Prop :=
  ∃ values' ctx' t', (∀ body' : MemoizedBody host, body'.types = body.types →
      inContext ctx.rewind body'.run t = ((.ok values', ctx'), t')) ∧
    SameAll t.registry body.types values values'

/-- In the context a first pass has left, the slot of the number of each call holds what the slot
holds that the call took. -/
def Aligned (body : MemoizedBody host) (s : Session host) (ctx : MemoContext) : Prop :=
  ∀ index position, (body.slotsTaken (s.within .empty))[index]? = some position →
    ctx.slot? index = ctx.slot? position

section

open Construction

variable {body : MemoizedBody host} {s s' t : Session host} {values : List Value}
  {ctx : MemoContext} (hTypes : ∀ d ∈ body.types, d.Regular s.registry)
  (hFirst : inContext .empty body.run s = ((.ok values, ctx), s'))

include hTypes hFirst

/-- A compile pass is replayed and leaves the context empty. -/
theorem replays_of_compile (hRegistry : t.registry = s.registry)
    (hMode : activeMode? t.runs = activeMode? s.runs)
    (hCompile : activeMode? s.runs = some .compile) :
    ctx = .empty ∧ body.Replays values ctx t := by
  obtain ⟨after, hOk, hContexts⟩ := exists_of_inContext hFirst
  obtain ⟨values₁, s₁, values', t', hAll, hContexts₁, hContexts', hSame⟩ :=
    run_compile (s := s.within .empty) (t := t.within ctx.rewind) hTypes hRegistry hCompile
      (hMode.trans hCompile)
  obtain ⟨hValues, hAfter⟩ := Prod.mk.inj (hOk.symm.trans (hAll body rfl).1)
  obtain rfl := Except.ok.inj hValues
  rw [hAfter] at hContexts
  exact ⟨(List.cons.inj (hContexts.symm.trans hContexts₁)).1, values', _, _,
    fun body' hBody => inContext_eq (hAll body' hBody).2 hContexts', hSame⟩

/-- A pass with values has left the contents of its values in the slots it took, and host data in
all slots. -/
theorem pinned_of_inContext (hValued : activeMode? s.runs ≠ some .compile) :
    ctx.Sound ∧ Pinned s.registry (activeMode? s.runs) ctx body.types
      (body.slotsTaken (s.within .empty)) values := by
  obtain ⟨after, hOk, hContexts⟩ := exists_of_inContext hFirst
  obtain ⟨ctx₁, hContexts₁, hPinned⟩ :=
    pinned_of_run (s := s.within .empty) hTypes rfl MemoContext.fresh_empty hValued hOk
  obtain rfl := (List.cons.inj (hContexts.symm.trans hContexts₁)).1
  have hGrown := (body.steady (s.within .empty)).contexts
  rw [hOk, hContexts] at hGrown
  exact ⟨hGrown.extends_head.sound MemoContext.sound_empty, hPinned⟩

/-- If each call meets what it had pinned, the pass is replayed. -/
theorem replays_of_aligned (hRegistry : t.registry = s.registry)
    (hMode : activeMode? t.runs = activeMode? s.runs) (hAligned : body.Aligned s ctx) :
    body.Replays values ctx t := by
  by_cases hCompile : activeMode? s.runs = some .compile
  · exact (replays_of_compile hTypes hFirst hRegistry hMode hCompile).2
  · obtain ⟨-, hPinned⟩ := pinned_of_inContext hTypes hFirst hCompile
    rw [← hRegistry, ← hMode] at hPinned
    rw [← hMode] at hCompile
    obtain ⟨values', t', ctx', hAll, hContexts, hSame⟩ :=
      run_of_pinned (t := t.within ctx.rewind) hPinned rfl (fun _ => rfl) hCompile
        fun index position hPosition => by
          rw [show ctx.rewind.cursor + index = index from Nat.zero_add index]
          exact hAligned index position hPosition
    exact ⟨values', ctx', _, fun body' hBody => inContext_eq (hAll body' hBody) hContexts, hSame⟩

/-- If the pass is replayed, each call meets what it had pinned: otherwise a body whose computations
fail would tell the passes apart. -/
theorem aligned_of_replays (hRegistry : t.registry = s.registry)
    (hMode : activeMode? t.runs = activeMode? s.runs) (h : body.Replays values ctx t) :
    body.Aligned s ctx := by
  intro index position hPosition
  by_cases hCompile : activeMode? s.runs = some .compile
  · obtain ⟨rfl, -⟩ := replays_of_compile hTypes hFirst hRegistry hMode hCompile
    rfl
  · obtain ⟨hSound, hPinned⟩ := pinned_of_inContext hTypes hFirst hCompile
    rw [← hRegistry] at hTypes
    rw [← hRegistry, ← hMode] at hPinned
    rw [← hMode] at hCompile
    obtain ⟨values', ctx', t', hAll, hSame⟩ := h
    have hFailing := hAll (failing .valueUnavailable body.types) (types_failing _ _)
    obtain ⟨after, hOk, -⟩ := exists_of_inContext hFailing
    have hMet := pinned_of_failing (t := t.within ctx.rewind) hTypes rfl hSound hCompile hOk
    have hSlots := hPinned.slot?_eq (hMet.mono fun _ _ h => h) hSame hPosition
    rwa [show ctx.rewind.cursor + index = index from Nat.zero_add index] at hSlots

/-- A body in which at most the last call has nested memoized calls is replayed. -/
theorem replays_of_unnested (hRegistry : t.registry = s.registry)
    (hMode : activeMode? t.runs = activeMode? s.runs)
    (hUnnested : ∀ call ∈ body.dropLast, call.2.Unnested) : body.Replays values ctx t := by
  by_cases hCompile : activeMode? s.runs = some .compile
  · exact (replays_of_compile hTypes hFirst hRegistry hMode hCompile).2
  · refine replays_of_aligned hTypes hFirst hRegistry hMode fun index position hPosition => ?_
    obtain ⟨after, hOk, -⟩ := exists_of_inContext hFirst
    have hTaken := slotsTaken_of_unnested (s := s.within .empty) hTypes rfl
      MemoContext.fresh_empty hCompile hOk hUnnested hPosition
    rw [hTaken, show MemoContext.empty.cursor + index = index from Nat.zero_add index]

end

open Construction in
/--
A body of regular types succeeds in a new context, and the context is rewound. In the same mode a
second pass replays the first, whatever its computations are, exactly if for each call of the
body the slot of the number of the call holds what the slot holds that the call took in the first
pass.
-/
theorem replays_iff {body : MemoizedBody host} {s s' t : Session host} {values : List Value}
    {ctx : MemoContext} (hTypes : ∀ d ∈ body.types, d.Regular s.registry)
    (hFirst : inContext .empty body.run s = ((.ok values, ctx), s'))
    (hRegistry : t.registry = s.registry) (hMode : activeMode? t.runs = activeMode? s.runs) :
    body.Replays values ctx t ↔ body.Aligned s ctx := by
  constructor
  · exact aligned_of_replays hTypes hFirst hRegistry hMode
  · exact replays_of_aligned hTypes hFirst hRegistry hMode

/-! ## Nested calls -/

/-- A call whose computation makes another call. -/
def outerCall : Descriptor × Computation Unit :=
  (.field, .brings true .field (.returns (.ofElement 7)) fun _ => .returns (.ofElement 8))

/-- A call without nested calls. -/
def plainCall : Descriptor × Computation Unit := (.field, .returns (.ofElement 5))

private def nothing : Session Unit := Session.start [] ()

open Construction in
/-- A nested call in the last computation does no harm. -/
theorem replays_nested_last : ∃ ctx s',
    inContext .empty (MemoizedBody.run [plainCall, outerCall]) nothing =
        ((.ok [.ofElement 5, .ofElement 8], ctx), s') ∧
      ctx.filled = 3 ∧
      MemoizedBody.Replays [plainCall, outerCall] [.ofElement 5, .ofElement 8] ctx nothing := by
  have hTypes : ∀ d ∈ MemoizedBody.types [plainCall, outerCall],
      d.Regular nothing.registry := by
    intro d hd
    rcases hd with _ | ⟨_, _ | ⟨_, hd⟩⟩
    · exact .leaf .field
    · exact .leaf .field
    · cases hd
  refine ⟨_, _, rfl, rfl, (replays_iff hTypes rfl rfl rfl).2 ?_⟩
  intro index position hPosition
  match index, hPosition with
  | 0, hPosition => cases hPosition; rfl
  | 1, hPosition => cases hPosition; rfl

open Construction in
/-- A nested call in another computation shifts the calls after it: a second pass over the same
body returns the value of the nested call in place of the value of the second call. -/
theorem not_replays_nested_first : ∃ ctx s' ctx' t',
    inContext .empty (MemoizedBody.run [outerCall, plainCall]) nothing =
        ((.ok [.ofElement 8, .ofElement 5], ctx), s') ∧
      inContext ctx.rewind (MemoizedBody.run [outerCall, plainCall]) nothing =
        ((.ok [.ofElement 8, .ofElement 7], ctx'), t') ∧
      ¬ MemoizedBody.Replays [outerCall, plainCall] [.ofElement 8, .ofElement 5] ctx nothing := by
  refine ⟨_, _, _, _, rfl, rfl, ?_⟩
  rintro ⟨values', ctx', t', hAll, hSame⟩
  have hAgain := hAll [outerCall, plainCall] rfl
  cases hAgain
  cases hSame with
  | cons _ hRest =>
      cases hRest with
      | cons hSecond _ =>
          obtain ⟨contents, hFirst, hOther⟩ := hSecond
          cases hFirst
          cases hOther

end MemoizedBody

end TypedCircuit
