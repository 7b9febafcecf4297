import TypedCircuit.Proofs.Codec.Compositional
import TypedCircuit.Proofs.Runs.Elementary

/-!
# Programs in elementary operations

The operations that a type has are walks over its elements, and in the end sequences of elementary
operations on signals; so are the checks of all types, whatever is registered. An operation with a
body is its body with elementary operations before and after it. Therefore every program can be
written out in elementary operations, and what is said of elementary operations is said of all
programs.

## Main results

* `Registry.elementary_check` — checks of types.
* `Call.elementary`, `Scope.elementary` — operations, and operations with bodies.
* `Program.exists_elementary` — every program is written out in elementary operations.
-/

namespace TypedCircuit

variable {host α β γ : Type}

/-- A construction that can be written out in elementary operations. -/
def Construction.IsElementary (x : Construction host α) : Prop :=
  ∃ e : Elementary host α, e.run = x

namespace Construction.IsElementary

theorem lift (x : Except Error α) : IsElementary (liftM x : Construction host α) :=
  ⟨.returns x, rfl⟩

theorem pure (a : α) : IsElementary (Pure.pure a : Construction host α) := lift (.ok a)

/-- What leaves the open runs as they are. -/
theorem does {x : Construction host α} (h : ∀ s, (x s).2.runs = s.runs) : IsElementary x := by
  refine ⟨.does x h .returns, funext fun s => ?_⟩
  show (liftM (x s).1 : Construction host α) (x s).2 = x s
  rcases x s with ⟨_ | _, _⟩ <;> rfl

theorem read (f : Session host → α) : IsElementary (Construction.read f) := does fun _ => rfl

/-- Going on after a construction, whether it succeeded or failed. -/
theorem andThen {x : Construction host α} {f : Except Error α → Construction host β}
    (h : IsElementary x) (hNext : ∀ result, IsElementary (f result)) :
    IsElementary fun s => f (x s).1 (x s).2 := by
  obtain ⟨e, rfl⟩ := h
  choose next hEq using hNext
  refine ⟨e.andThen next, funext fun s => ?_⟩
  rw [Elementary.run_andThen, hEq]

theorem bind {x : Construction host α} {f : α → Construction host β} (h : IsElementary x)
    (hNext : ∀ a, IsElementary (f a)) : IsElementary (x >>= f) := by
  have hAll := andThen (f := fun result => liftM result >>= f) h fun result => ?_
  · refine (congrArg IsElementary (funext fun s => ?_)).mp hAll
    rcases hx : x s with ⟨e | a, between⟩
    · exact (bind_error hx).symm
    · exact (bind_ok hx).symm
  · cases result with
    | error e => exact lift (.error e)
    | ok a => exact hNext a

theorem inRun (mode : Mode) {x : Construction host α} (h : IsElementary x) :
    IsElementary (Construction.inRun mode x) := by
  obtain ⟨e, rfl⟩ := h
  refine ⟨.opens mode e .returns, funext fun s => ?_⟩
  show (liftM (Construction.inRun mode e.run s).1 : Construction host _) _ = _
  rcases Construction.inRun mode e.run s with ⟨_ | _, _⟩ <;> rfl

end Construction.IsElementary

/-! ## Circuits -/

/-- An operation on the open runs that can be written out in elementary operations, in sessions
with any data of the caller. -/
def Circuit.IsElementary (c : Circuit α) : Prop :=
  ∀ host : Type, (liftM c : Construction host α).IsElementary

namespace Circuit.IsElementary

theorem primitive (op : Primitive β) : IsElementary op.perform := by
  intro host
  refine ⟨.performs op .returns, funext fun s => ?_⟩
  show (liftM ((liftM op.perform : Construction host _) s).1 : Construction host β) _ = _
  rcases (liftM op.perform : Construction host _) s with ⟨_ | _, _⟩ <;> rfl

theorem lift (x : Except Error α) : IsElementary (liftM x : Circuit α) := by
  intro host
  have hLift : (liftM (liftM x : Circuit α) : Construction host α) = liftM x := by
    cases x <;> rfl
  rw [hLift]
  exact Construction.IsElementary.lift x

theorem pure (a : α) : IsElementary (Pure.pure a : Circuit α) := lift (.ok a)

theorem bind {c : Circuit α} {f : α → Circuit β} (h : IsElementary c)
    (hNext : ∀ a, IsElementary (f a)) : IsElementary (c >>= f) := by
  intro host
  have hBind : (liftM (c >>= f) : Construction host β) =
      (liftM c : Construction host α) >>= fun a => liftM (f a) := by
    funext s
    show ((ExceptT.bindCont f (c s.runs).1 (c s.runs).2).1, _) =
      ExceptT.bindCont (fun a => (liftM (f a) : Construction host β)) (c s.runs).1
        { s with runs := (c s.runs).2 }
    rcases c s.runs with ⟨_ | a, runs⟩ <;> rfl
  rw [hBind]
  exact (h host).bind fun a => hNext a host

/-- Looking at the open runs. -/
theorem get : IsElementary (getThe (List Run) : Circuit (List Run)) :=
  fun _ => Construction.IsElementary.does fun _ => rfl

theorem forM {f : γ → Circuit PUnit} {xs : List γ} (h : ∀ x ∈ xs, IsElementary (f x)) :
    IsElementary (xs.forM f) := by
  induction xs with
  | nil => exact pure _
  | cons x xs ih =>
      obtain ⟨hHead, hRest⟩ := List.forall_mem_cons.1 h
      exact bind hHead fun _ => ih hRest

theorem mapM {f : γ → Circuit β} (h : ∀ x, IsElementary (f x)) (xs : List γ) :
    IsElementary (xs.mapM f) := by
  induction xs with
  | nil => exact pure _
  | cons x xs ih =>
      rw [List.mapM_cons]
      exact (h x).bind fun _ => ih.bind fun _ => pure _

theorem foldlM {f : β → γ → Circuit β} (h : ∀ b x, IsElementary (f b x)) (xs : List γ) (b : β) :
    IsElementary (xs.foldlM f b) := by
  induction xs generalizing b with
  | nil => exact pure _
  | cons x xs ih =>
      rw [List.foldlM_cons]
      exact (h b x).bind ih

/-- Where no run is open, none is left open. -/
theorem runs_outside {c : Circuit α} (h : IsElementary c) : (c []).2 = [] := by
  obtain ⟨e, he⟩ := h Unit
  have hGrow := e.runs_grow ⟨[], [], Registry.empty, [], ()⟩
  rw [he] at hGrow
  exact hGrow.eq_nil

end Circuit.IsElementary

/-- An operation on the open runs that cannot fail and can be written out in elementary
operations. -/
def Wiring.IsElementary (w : Wiring α) : Prop := Circuit.IsElementary (liftM w : Circuit α)

namespace Wiring.IsElementary

theorem pure (a : α) : IsElementary (Pure.pure a : Wiring α) := Circuit.IsElementary.pure a

theorem bind {w : Wiring α} {f : α → Wiring β} (h : IsElementary w)
    (hNext : ∀ a, IsElementary (f a)) : IsElementary (w >>= f) :=
  Circuit.IsElementary.bind h hNext

theorem combine (operation : Gate.Operation) (a b : Signal) :
    IsElementary (a.combine operation b) := Circuit.IsElementary.primitive (.combine operation a b)

theorem equals (a b : Signal) : IsElementary (a.equals b) :=
  (combine .isEqual a b).bind fun _ => pure _

theorem not (a : Bit) : IsElementary a.not := (combine .sub _ _).bind fun _ => pure _

theorem and (a b : Bit) : IsElementary (a.and b) := (combine .mul _ _).bind fun _ => pure _

theorem or (a b : Bit) : IsElementary (a.or b) :=
  (not a).bind fun _ => (not b).bind fun _ => (and _ _).bind fun _ => not _

end Wiring.IsElementary

theorem Rule.elementary_assert (rule : Rule) (s : Signal) : (rule.assert s).IsElementary :=
  Circuit.IsElementary.primitive (.assertRule rule s)

theorem Signal.elementary_assertEqual (a b : Signal) : (a.assertEqual b).IsElementary :=
  Circuit.IsElementary.primitive (.assertEqual a b)

/-! ## Checks -/

namespace Part

/-- The check of a part can be written out in elementary operations. -/
def ChecksElementary (p : Part) : Prop := ∀ v, (p.check v).IsElementary

theorem elementary_checkAll {parts : List Part} (h : ∀ p ∈ parts, p.ChecksElementary)
    (items : List Value) : (checkAll parts items).IsElementary :=
  Circuit.IsElementary.forM fun _ hMem => h _ (List.of_mem_zip hMem).1 _

theorem elementary_checkMembers {members : List (String × Part)}
    (h : ∀ m ∈ members, m.2.ChecksElementary) (lookup : Lookup) :
    (checkMembers lookup members).IsElementary :=
  Circuit.IsElementary.forM fun m hm => (Circuit.IsElementary.lift (lookup m.1)).bind fun _ =>
    h m hm _

theorem compositional_checksElementary : Compositional ChecksElementary where
  leaf type v := by
    cases type with
    | field => exact .pure _
    | boolean => exact (Circuit.IsElementary.lift _).bind fun _ => Rule.boolean.elementary_assert _
    | uint32 =>
        exact (Circuit.IsElementary.lift _).bind fun _ => (Rule.range 32).elementary_assert _
    | opaqueHost => exact .lift _
  part h := h
  withWidth h _ := h
  ofPart h _ := h
  sequence _ _ h _ := (Circuit.IsElementary.lift _).bind fun _ => elementary_checkAll h _
  replicated _ _ h _ _ := (Circuit.IsElementary.lift _).bind fun _ =>
    Circuit.IsElementary.forM fun v _ => h v
  object _ _ h _ := elementary_checkMembers h _
  constant _ _ _ := .lift _
  composite name json members h v := by
    have hParts : ∀ m ∈ Codec.memberParts members, m.2.ChecksElementary := by
      intro m hm
      obtain ⟨member, hMember, rfl⟩ := List.mem_map.1 hm
      exact h member hMember
    show Circuit.IsElementary (if members.isEmpty then Pure.pure () else _)
    split
    · exact .pure _
    · exact (Circuit.IsElementary.lift _).bind fun _ => elementary_checkMembers hParts _
  deferred _ _ _ build h v := by
    show Circuit.IsElementary (liftM (build v.height) >>= fun c => c.check v)
    cases hBuild : build v.height with
    | error e => exact .lift (.error e)
    | ok c => exact h _ c hBuild v
  plain _ _ h := h
  misdeclared _ _ _ _ := .pure _

end Part

/-- The check of every type can be written out in elementary operations. -/
theorem Registry.elementary_check (r : Registry) (d : Descriptor) (v : Value) :
    ((r.codec d).check v).IsElementary :=
  Part.compositional_checksElementary.codec r d v

/-! ## Operations on values -/

namespace Codec

variable (c : Codec)

theorem elementary_equalOnto (acc : Bit) (pairs : List (Signal × Signal)) :
    (equalOnto acc pairs).IsElementary := by
  induction pairs generalizing acc with
  | nil => exact .pure _
  | cons pair rest ih =>
      exact (Wiring.IsElementary.equals _ _).bind fun _ =>
        (Wiring.IsElementary.and _ _).bind fun _ => ih _

theorem elementary_equal (a b : Value) : (c.equal a b).IsElementary :=
  (Circuit.IsElementary.lift _).bind fun _ => (Circuit.IsElementary.lift _).bind fun _ =>
    elementary_equalOnto _ _

theorem elementary_assertEqual (a b : Value) : (c.assertEqual a b).IsElementary :=
  (Circuit.IsElementary.lift _).bind fun _ => (Circuit.IsElementary.lift _).bind fun _ =>
    Circuit.IsElementary.forM fun _ _ => Signal.elementary_assertEqual _ _

theorem elementary_blend (bit x y : Signal) : (blend bit x y).IsElementary :=
  (Wiring.IsElementary.combine .sub _ _).bind fun _ =>
    (Wiring.IsElementary.combine .mul _ _).bind fun _ => .combine .add _ _

theorem elementary_select (condition : Bit) (yes no : Value) :
    (c.select condition yes no).IsElementary := by
  refine (Circuit.IsElementary.lift _).bind fun xs =>
    (Circuit.IsElementary.lift _).bind fun ys => ?_
  split
  · exact (Circuit.IsElementary.lift _).bind fun _ => .pure _
  · exact (Circuit.IsElementary.mapM (fun _ => elementary_blend _ _ _) _).bind fun _ =>
      (Circuit.IsElementary.lift _).bind fun _ => .lift _

theorem elementary_addWeighted (bit : Bit) (sum element : Signal) :
    (addWeighted bit sum element).IsElementary := by
  unfold addWeighted
  split
  · exact (Wiring.IsElementary.pure element).bind fun _ => .combine .add _ _
  · exact (Wiring.IsElementary.combine .mul _ _).bind fun _ => .combine .add _ _

theorem elementary_addCandidate (sums : List Signal) (bit : Bit) (candidate : Value) :
    (c.addCandidate sums bit candidate).IsElementary := by
  refine (Circuit.IsElementary.lift _).bind fun fields => ?_
  split
  · exact .pure _
  · exact .mapM (fun _ => elementary_addWeighted _ _ _) _

theorem elementary_weightedSum (mask : List Bit) (candidates : List Value) :
    (c.weightedSum mask candidates).IsElementary :=
  (Circuit.IsElementary.lift _).bind fun _ =>
    (Circuit.IsElementary.foldlM (fun _ _ => c.elementary_addCandidate _ _ _) _ _).bind fun _ =>
      (Circuit.IsElementary.lift _).bind fun _ => .lift _

theorem elementary_switch (mask : List Bit) (candidates : List Value) :
    (c.switch mask candidates).IsElementary := by
  have hCounted (x : Except Error Unit) :
      (liftM x >>= fun _ => c.weightedSum mask candidates : Circuit Value).IsElementary :=
    (Circuit.IsElementary.lift x).bind fun _ => c.elementary_weightedSum mask candidates
  unfold switch
  by_cases hLength : mask.length ≠ candidates.length
  · rw [if_pos hLength]
    exact Circuit.IsElementary.lift (.error (.selectorLength mask.length candidates.length))
  · rw [if_neg hLength]
    dsimp only
    split
    · exact hCounted _
    · refine Circuit.IsElementary.get.bind fun runs => ?_
      split
      · exact hCounted _
      · exact c.elementary_weightedSum mask candidates

end Codec

namespace HashInput

theorem elementary_shiftIn (group : Group) (s : Signal) (bits : Nat) :
    (group.shiftIn s bits).IsElementary :=
  (Wiring.IsElementary.combine .mul _ _).bind fun _ =>
    (Wiring.IsElementary.combine .add _ _).bind fun _ => .pure _

theorem elementary_packStep (done : List Signal) (group : Group) (s : Signal) (bits : Nat) :
    (packStep done group s bits).IsElementary := by
  unfold packStep
  split
  · exact (elementary_shiftIn _ _ _).bind fun _ => .pure _
  · exact (elementary_shiftIn _ _ _).bind fun _ => .pure _

theorem elementary_pack (input : HashInput) : input.pack.IsElementary := by
  suffices h : ∀ packed done group, (packFrom done group packed).IsElementary from h _ _ _
  intro packed
  induction packed with
  | nil => exact fun _ _ => .pure _
  | cons entry rest ih => exact fun _ _ => (elementary_packStep _ _ _ _).bind fun _ => ih _ _

end HashInput

/-! ## Witnesses -/

namespace Construction.IsElementary

theorem ofCircuit {c : Circuit α} (h : c.IsElementary) :
    IsElementary (liftM c : Construction host α) := h host

theorem updateContext (f : MemoContext → α × MemoContext) :
    IsElementary (Construction.updateContext f : Construction host (Option α)) := by
  refine does fun s => ?_
  obtain ⟨runs, contexts, registry, entropy, data⟩ := s
  cases contexts <;> rfl

theorem elementsOf (d : Descriptor) (v : Value) :
    IsElementary (Construction.elementsOf d v : Construction host (List Element)) := by
  refine (read _).bind fun _ => (lift _).bind fun fields => does fun s => ?_
  rw [mapM_lift_eq]

theorem introduce (size : Nat) {compute : Construction host (List Element × α)}
    (h : IsElementary compute) : IsElementary (Construction.introduce size compute) := by
  have hAllocate (values : List (Option Element)) :
      IsElementary (liftM (liftM (allocateInputs values) : Circuit (List Signal)) :
        Construction host (List Signal)) :=
    ofCircuit (Circuit.IsElementary.primitive (.allocate values))
  have hCounted : IsElementary (counted size compute) := by
    refine h.bind ?_
    rintro ⟨values, a⟩
    show IsElementary (if values.length = size then _ else _)
    split
    · exact pure _
    · exact lift (.error _)
  refine (read _).bind ?_
  rintro (_ | _ | _)
  · exact hCounted.bind fun _ => pure _
  · exact (hAllocate _).bind fun _ => pure _
  · exact hCounted.bind fun _ => (hAllocate _).bind fun _ => pure _

/-- Looking up a codec, whatever is registered. -/
theorem codecOf_bind {d : Descriptor} {f : Codec → Construction host α}
    (h : ∀ r : Registry, IsElementary (f (r.codec d))) :
    IsElementary (codecOf d >>= f) := by
  have hRead : codecOf d >>= f = Construction.read (·.registry) >>= fun r => f (r.codec d) := rfl
  rw [hRead]
  exact (read _).bind h

theorem witness (d : Descriptor) {compute : Construction host Value} (h : IsElementary compute) :
    IsElementary (Construction.witness d compute) := by
  refine (read _).bind fun isChecked => ?_
  split
  · exact h
  · refine (read _).bind fun _ => (lift _).bind fun width => (introduce width.fields ?_).bind ?_
    · exact h.bind fun _ => (read _).bind fun _ => (elementsOf d _).bind fun _ => pure _
    · rintro ⟨fields, aux?⟩
      exact codecOf_bind fun r => (lift _).bind fun width => (lift _).bind fun v =>
        (ofCircuit (r.elementary_check d v)).bind fun _ => pure v

theorem pinned (d : Descriptor) {compute : Construction host Value} (h : IsElementary compute) :
    IsElementary (Construction.pinned d compute) := by
  have hReplay (slot : Slot) : IsElementary (replay d slot : Construction host Value) :=
    does fun s => by rw [replay_eq]
  refine (updateContext _).bind ?_
  rintro (_ | ⟨index, _ | slot⟩)
  · exact h
  · refine IsElementary.bind ?_ hReplay
    exact h.bind fun _ => (elementsOf d _).bind fun _ => (read _).bind fun _ =>
      (updateContext _).bind fun _ => pure _
  · exact hReplay slot

theorem memoizedWitness (d : Descriptor) {compute : Construction host Value}
    (h : IsElementary compute) : IsElementary (Construction.memoizedWitness d compute) := by
  refine (read _).bind fun isMemoized => ?_
  split
  · exact witness d (pinned d h)
  · exact witness d h

theorem drawElement : IsElementary (Construction.drawElement : Construction host Element) :=
  does fun _ => rfl

theorem blindingValue : IsElementary (Construction.blindingValue : Construction host Signal) := by
  have hElement : IsElementary (blindingElement : Construction host Element) := by
    refine (updateContext _).bind ?_
    rintro (_ | _ | x)
    · exact drawElement
    · exact drawElement.bind fun _ => (updateContext _).bind fun _ => pure _
    · exact pure _
  exact (witness .field (hElement.bind fun _ => pure _)).bind fun _ => lift _

/-- Opens a context. -/
private def enter (ctx : MemoContext) : Construction host Unit := fun s =>
  (.ok (), { s with contexts := ctx :: s.contexts })

/-- Closes the innermost context and returns it; without one it returns the given one. -/
private def leave (ctx : MemoContext) : Construction host MemoContext := fun s =>
  match s.contexts with
  | ctx :: outer => (.ok ctx, { s with contexts := outer })
  | [] => (.ok ctx, s)

/-- A body in a context stands between opening and closing the context. -/
theorem inContext (ctx : MemoContext) {x : Construction host α} (h : IsElementary x) :
    IsElementary (liftM (Construction.inContext ctx x) :
      Construction host (Except Error α × MemoContext)) := by
  have hEnter : IsElementary (enter ctx : Construction host Unit) := does fun _ => rfl
  have hLeave : IsElementary (leave ctx : Construction host MemoContext) := by
    refine does fun s => ?_
    unfold leave
    split <;> rfl
  have hAll := hEnter.bind fun _ => h.andThen fun result =>
    hLeave.bind fun ctx' => pure (result, ctx')
  refine (congrArg IsElementary (funext fun s => ?_)).mp hAll
  rw [bind_ok (show enter ctx s = (.ok (), { s with contexts := ctx :: s.contexts }) from rfl)]
  show _ = (Except.ok (Construction.inContext ctx x s).1, (Construction.inContext ctx x s).2)
  unfold Construction.inContext
  rcases x { s with contexts := ctx :: s.contexts } with ⟨result, t⟩
  obtain ⟨runs, contexts, registry, entropy, data⟩ := t
  cases contexts <;> rfl

end Construction.IsElementary

/-! ## Programs -/

open Construction (IsElementary)

theorem Call.elementary (call : Call β) : IsElementary (call.perform : Construction host β) := by
  cases call with
  | combine operation a b => exact .ofCircuit (Wiring.IsElementary.combine operation a b)
  | assertEqual a b => exact .ofCircuit (Signal.elementary_assertEqual a b)
  | assertBoolean a => exact .ofCircuit (Rule.boolean.elementary_assert a)
  | assertRange a bits => exact .ofCircuit ((Rule.range bits).elementary_assert a)
  | not a => exact .ofCircuit (Wiring.IsElementary.not a)
  | and a b => exact .ofCircuit (Wiring.IsElementary.and a b)
  | or a b => exact .ofCircuit (Wiring.IsElementary.or a b)
  | check d v => exact .codecOf_bind fun r => .ofCircuit (r.elementary_check d v)
  | equal d v w => exact .codecOf_bind fun r => .ofCircuit ((r.codec d).elementary_equal v w)
  | assertSame d v w =>
      exact .codecOf_bind fun r => .ofCircuit ((r.codec d).elementary_assertEqual v w)
  | select d condition yes no =>
      exact .codecOf_bind fun r => .ofCircuit ((r.codec d).elementary_select condition yes no)
  | switch d mask candidates =>
      exact .codecOf_bind fun r => .ofCircuit ((r.codec d).elementary_switch mask candidates)
  | pack input => exact .ofCircuit input.elementary_pack
  | blinding => exact .blindingValue

theorem Scope.elementary (scope : Scope β γ) {body : Construction host β} (h : IsElementary body) :
    IsElementary (scope.enclose body) := by
  cases scope with
  | introduce size => exact .introduce size h
  | witness d => exact .witness d h
  | memoizedWitness d => exact .memoizedWitness d h
  | whereValued =>
      refine IsElementary.bind (.read _) fun valued => ?_
      split
      · exact h
      · exact .pure _
  | compile => exact (h.inRun .compile).bind fun _ => .pure _
  | prove => exact (h.inRun .prove).bind fun _ => (IsElementary.lift _).bind fun _ => .pure _
  | inContext ctx => exact .inContext ctx h

/-- Every program can be written out in elementary operations. -/
theorem Program.exists_elementary (p : Program host α) :
    ∃ e : Elementary host α, e.run = p.run := by
  induction p with
  | returns result => exact IsElementary.lift result
  | does x h next ih => exact (IsElementary.does h).andThen ih
  | calls call next ih => exact call.elementary.andThen ih
  | encloses scope body next ihBody ih => exact (scope.elementary ihBody).andThen ih

end TypedCircuit
