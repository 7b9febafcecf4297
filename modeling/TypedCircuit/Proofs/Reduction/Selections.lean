import TypedCircuit.Proofs.Passes.Operations
import TypedCircuit.Proofs.Reduction.Types

/-!
# Selections in a pass that lacks something

Comparing values of a type works wherever less is known. A selection does not: it is refused if
its candidates carry different auxiliary data, and they may do so only after some of the host
data has become nulls. Whether that happens does not depend on the values of variables.

So three passes are looked at here: a prove pass, the prove pass in which the witnesses have nulls
in place of host data, and the compile pass. Where the first one succeeds, the other two *end
together*: both succeed, or both are refused for the auxiliary data of one type.

A switch also counts the bits that are set. It does so only where they are known, and what is
known in one of the two other passes was known in the first one.

## Main results

* `Codec.equal_follows`, `Codec.assertEqual_follows` — comparing values of a type.
* `Codec.select_together`, `Codec.switch_together` — selecting among values of a type.
-/

namespace TypedCircuit

/-! ## Three passes -/

/-- What is lost between a prove pass and the one with nulls in place of host data. -/
def Loss.hostData : Loss := ⟨False, True, True⟩

/-- What is lost between a prove pass with nulls in place of host data and a compile pass. -/
def Loss.assignment : Loss := ⟨True, True, False⟩

/-- Where the first computation succeeds, the other two end together: both succeed, with related
results and in related states, or both are refused for the auxiliary data of one type. -/
def EndTogether {σ τ υ α β γ : Type} (S : σ → τ → Prop) (T : τ → υ → Prop) (R : α → β → Prop)
    (Q : β → γ → Prop) (x : ExceptT Error (StateM σ) α) (y : ExceptT Error (StateM τ) β)
    (z : ExceptT Error (StateM υ) γ) : Prop :=
  ∀ s t u, S s t → T t u → ∀ a s', x s = (.ok a, s') →
    (∃ b c t' u', y t = (.ok b, t') ∧ z u = (.ok c, u') ∧ R a b ∧ Q b c ∧ S s' t' ∧ T t' u') ∨
      ∃ name, (y t).1 = .error (.auxiliaryDiffers name) ∧
        (z u).1 = .error (.auxiliaryDiffers name)

namespace EndTogether

variable {σ τ υ α β γ α' β' γ' : Type} {S : σ → τ → Prop} {T : τ → υ → Prop}
  {R : α → β → Prop} {Q : β → γ → Prop} {R' : α' → β' → Prop} {Q' : β' → γ' → Prop}
  {x : ExceptT Error (StateM σ) α} {y : ExceptT Error (StateM τ) β}
  {z : ExceptT Error (StateM υ) γ}

/-- What follows succeeds. -/
theorem of_follows (h : Follows S R x y) (h' : Follows T Q y z) : EndTogether S T R Q x y z := by
  intro s t u hS hT a s' ha
  obtain ⟨b, t', hb, hab, hS'⟩ := h s t hS a s' ha
  obtain ⟨c, u', hc, hbc, hT'⟩ := h' t u hT b t' hb
  exact .inl ⟨b, c, t', u', hb, hc, hab, hbc, hS', hT'⟩

/-- What the success of the first computation shows may be used. -/
theorem of_success {P : Prop} (hSuccess : ∀ s a s', x s = (.ok a, s') → P)
    (h : P → EndTogether S T R Q x y z) : EndTogether S T R Q x y z :=
  fun s t u hS hT a s' ha => h (hSuccess s a s' ha) s t u hS hT a s' ha

theorem bind {f : α → ExceptT Error (StateM σ) α'} {g : β → ExceptT Error (StateM τ) β'}
    {k : γ → ExceptT Error (StateM υ) γ'} (h : EndTogether S T R Q x y z)
    (hNext : ∀ a b c, R a b → Q b c → EndTogether S T R' Q' (f a) (g b) (k c)) :
    EndTogether S T R' Q' (x >>= f) (y >>= g) (z >>= k) := by
  intro s t u hS hT a' s' ha'
  obtain ⟨a, between, ha, ha'⟩ := bind_state_eq_ok ha'
  rcases h s t u hS hT a between ha with
    ⟨b, c, t', u', hb, hc, hab, hbc, hS', hT'⟩ | ⟨name, hb, hc⟩
  · rw [bind_state_ok hb g, bind_state_ok hc k]
    exact hNext a b c hab hbc between t' u' hS' hT' a' s' ha'
  · refine .inr ⟨name, ?_, ?_⟩
    · rw [bind_state_error (Prod.ext hb rfl) g]
    · rw [bind_state_error (Prod.ext hc rfl) k]

end EndTogether

namespace Codec

variable {loss : Loss} {c : Codec} {a a' a'' b b' b'' : Value}

/-! ## Comparing -/

theorem equalOnto_follows {acc acc' : Bit} {pairs pairs' : List (Signal × Signal)}
    (hAcc : acc.Reduces loss acc')
    (h : List.Forall₂ (fun x y => x.1.Reduces loss y.1 ∧ x.2.Reduces loss y.2) pairs pairs') :
    WiringsFollow loss (Bit.Reduces loss) (equalOnto acc pairs) (equalOnto acc' pairs') := by
  induction h generalizing acc acc' with
  | nil => exact .pure hAcc
  | cons hHead _ ih =>
      exact (Signal.equals_follows hHead.1 hHead.2).bind fun _ _ hSame =>
        (Bit.and_follows hAcc hSame).bind fun _ _ hBoth => ih hBoth

theorem equal_follows (h : c.Robust) (ha : a.Reduces loss a') (hb : b.Reduces loss b') :
    Follows (RunsReduce loss) (Bit.Reduces loss) (c.equal a b) (c.equal a' b') :=
  (Follows.lift (toFields_follows h ha)).bind fun _ _ hX =>
    (Follows.lift (toFields_follows h hb)).bind fun _ _ hY =>
      (equalOnto_follows (Signal.Reduces.refl _) (forall₂_zip_zip hX hY)).lift

theorem assertEqual_follows (h : c.Robust) (ha : a.Reduces loss a') (hb : b.Reduces loss b') :
    Follows (RunsReduce loss) Unrelated (c.assertEqual a b) (c.assertEqual a' b') :=
  (Follows.lift (toFields_follows h ha)).bind fun _ _ hX =>
    (Follows.lift (toFields_follows h hb)).bind fun _ _ hY =>
      Follows.forM (forall₂_zip_zip hX hY) fun _ _ hPair =>
        Signal.assertEqual_follows hPair.1 hPair.2

/-! ## Elements of selections -/

theorem blend_follows {bit bit' x x' y y' : Signal} (hBit : bit.Reduces loss bit')
    (hx : x.Reduces loss x') (hy : y.Reduces loss y') :
    WiringsFollow loss (Signal.Reduces loss) (blend bit x y) (blend bit' x' y') :=
  (Signal.sub_follows hx hy).bind fun _ _ hDifference =>
    (Signal.mul_follows hBit hDifference).bind fun _ _ hScaled => Signal.add_follows hy hScaled

theorem blendAll_follows {condition condition' : Bit} {xs xs' ys ys' : List Signal}
    (hCondition : condition.Reduces loss condition') (hX : SignalsReduce loss xs xs')
    (hY : SignalsReduce loss ys ys') :
    Follows (RunsReduce loss) (SignalsReduce loss)
      ((xs.zip ys).mapM fun (x, y) => (blend condition.signal x y : Circuit Signal))
      ((xs'.zip ys').mapM fun (x, y) => (blend condition'.signal x y : Circuit Signal)) := by
  refine Follows.mapM (forall₂_zip_zip hX hY) ?_
  rintro ⟨x, y⟩ ⟨x', y'⟩ ⟨hx, hy⟩
  exact (blend_follows hCondition hx hy).lift

theorem addWeighted_follows {bit bit' : Bit} {sum sum' element element' : Signal}
    (hBit : bit.Reduces loss bit') (hSum : sum.Reduces loss sum')
    (hElement : element.Reduces loss element') :
    WiringsFollow loss (Signal.Reduces loss) (addWeighted bit sum element)
      (addWeighted bit' sum' element') := by
  unfold addWeighted
  rw [if_congr (hBit.alike.eq_ofBool_iff true) rfl rfl]
  split
  · exact Signal.add_follows hSum hElement
  · exact (Signal.mul_follows hElement hBit).bind fun _ _ hTerm => Signal.add_follows hSum hTerm

theorem addCandidate_follows (h : c.Robust) {sums sums' : List Signal} {bit bit' : Bit}
    (hSums : SignalsReduce loss sums sums') (hBit : bit.Reduces loss bit')
    (ha : a.Reduces loss a') :
    Follows (RunsReduce loss) (SignalsReduce loss) (c.addCandidate sums bit a)
      (c.addCandidate sums' bit' a') := by
  refine (Follows.lift (toFields_follows h ha)).bind fun fields fields' hFields => ?_
  rw [if_congr (hBit.alike.eq_ofBool_iff false) rfl rfl]
  split
  · exact .pure hSums
  · refine Follows.mapM (forall₂_zip_zip hSums hFields) ?_
    rintro ⟨sum, element⟩ ⟨sum', element'⟩ ⟨hSum, hElement⟩
    exact (addWeighted_follows hBit hSum hElement).lift

/-! ## Auxiliary data -/

variable {candidates candidates' candidates'' : List Value}

/-- Selected elements, with the auxiliary data that all candidates carry. -/
def assemble (c : Codec) (candidates : List Value) (fields : List Signal) : Circuit Value := do
  let aux ← c.sharedAuxiliary candidates
  c.ofFieldsWithAux fields aux

theorem sharedAuxiliary_cons (c : Codec) (v : Value) (rest : List Value) :
    c.sharedAuxiliary (v :: rest) =
      if (rest.map c.auxiliary).all (· == c.auxiliary v) then .ok (c.auxiliary v)
      else .error (.auxiliaryDiffers c.typeName) := rfl

/-- Where candidates shared auxiliary data, what is left of it is shared, or differs. -/
theorem sharedAuxiliary_reduces (h : c.Robust)
    (hCandidates : ValuesReduce loss candidates candidates') {aux : List Value}
    (hShared : c.sharedAuxiliary candidates = .ok aux) :
    (∃ aux', c.sharedAuxiliary candidates' = .ok aux' ∧ ValuesReduce loss aux aux') ∨
      c.sharedAuxiliary candidates' = .error (.auxiliaryDiffers c.typeName) := by
  cases hCandidates with
  | nil =>
      refine .inl ⟨aux, hShared, ?_⟩
      obtain ⟨width, -, rfl⟩ := map_eq_ok.1 hShared
      exact Value.nulls_reduce width.aux
  | cons hHead _ =>
      rw [sharedAuxiliary_cons] at hShared ⊢
      split at hShared
      · cases hShared
        split
        · exact .inl ⟨_, rfl, h.auxiliary hHead⟩
        · exact .inr rfl
      · cases hShared

/-- Without a loss of host data the candidates carry what they carried. -/
theorem map_auxiliary_eq (h : c.Robust) (hBlanks : ¬ loss.blanks)
    (hCandidates : ValuesReduce loss candidates candidates')
    (hHostData : ∀ v ∈ candidates, ∀ x ∈ c.auxiliary v, x.HostData) :
    candidates'.map c.auxiliary = candidates.map c.auxiliary := by
  induction hCandidates with
  | nil => rfl
  | @cons v w rest rest' hHead _ ih =>
      obtain ⟨hFirst, hOthers⟩ := List.forall_mem_cons.1 hHostData
      have hSame : c.auxiliary w = c.auxiliary v :=
        Value.eq_of_reduces (h.auxiliary hHead) hFirst hBlanks
      rw [List.map_cons, List.map_cons, ih hOthers, hSame]

/-- Without a loss of host data the candidates share what they shared. -/
theorem sharedAuxiliary_eq (h : c.Robust) (hBlanks : ¬ loss.blanks)
    (hCandidates : ValuesReduce loss candidates candidates')
    (hHostData : ∀ v ∈ candidates, ∀ x ∈ c.auxiliary v, x.HostData) :
    c.sharedAuxiliary candidates' = c.sharedAuxiliary candidates := by
  unfold sharedAuxiliary
  rw [map_auxiliary_eq h hBlanks hCandidates hHostData]

/-- What candidates carry stays host data. -/
theorem hostData_auxiliary (h : c.Robust) (hCandidates : ValuesReduce loss candidates candidates')
    (hHostData : ∀ v ∈ candidates, ∀ x ∈ c.auxiliary v, x.HostData) :
    ∀ v ∈ candidates', ∀ x ∈ c.auxiliary v, x.HostData := by
  induction hCandidates with
  | nil => exact List.forall_mem_nil _
  | cons hHead _ ih =>
      obtain ⟨hFirst, hOthers⟩ := List.forall_mem_cons.1 hHostData
      exact List.forall_mem_cons.2
        ⟨Value.hostData_of_reduces (h.auxiliary hHead) hFirst, ih hOthers⟩

/-- The one step that may be refused where it was not. -/
theorem assemble_together (h : c.Robust)
    (hHostData : ∀ v ∈ candidates, ∀ x ∈ c.auxiliary v, x.HostData)
    (hBlank : ValuesReduce .hostData candidates candidates')
    (hCompile : ValuesReduce .assignment candidates' candidates'')
    {fields fields' fields'' : List Signal} (hFields : SignalsReduce .hostData fields fields')
    (hFields' : SignalsReduce .assignment fields' fields'') :
    EndTogether (RunsReduce .hostData) (RunsReduce .assignment) (Value.Reduces .hostData)
      (Value.Reduces .assignment) (c.assemble candidates fields) (c.assemble candidates' fields')
      (c.assemble candidates'' fields'') := by
  intro s t u hS hT v s' hOk
  obtain ⟨aux, hShared, hOk⟩ := lift_bind_eq_ok hOk
  unfold assemble
  -- nothing that the candidates carry is lost on the way to the compile pass
  rw [sharedAuxiliary_eq h id hCompile (hostData_auxiliary h hBlank hHostData)]
  rcases sharedAuxiliary_reduces h hBlank hShared with ⟨aux', hShared', hAux⟩ | hDiffers
  · rw [hShared']
    have hKept : ValuesReduce .assignment aux' aux' :=
      List.forall₂_same.2 fun x _ => Value.Reduces.refl trivial x
    have hBack := ofFieldsWithAux_follows h hFields fun _ _ _ => hAux
    have hBack' := ofFieldsWithAux_follows h hFields' fun _ _ _ => hKept
    exact EndTogether.of_follows (Follows.lift hBack) (Follows.lift hBack') s t u hS hT v s' hOk
  · rw [hDiffers]
    exact .inr ⟨c.typeName, rfl, rfl⟩

/-! ## Two candidates -/

theorem select_together (hUniform : c.Uniform) (h : c.Robust)
    {condition condition' condition'' : Bit} (hCondition : condition.Reduces .hostData condition')
    (hCondition' : condition'.Reduces .assignment condition'')
    (ha : a.Reduces .hostData a') (ha' : a'.Reduces .assignment a'')
    (hb : b.Reduces .hostData b') (hb' : b'.Reduces .assignment b'') :
    EndTogether (RunsReduce .hostData) (RunsReduce .assignment) (Value.Reduces .hostData)
      (Value.Reduces .assignment) (c.select condition a b) (c.select condition' a' b')
      (c.select condition'' a'' b'') := by
  refine EndTogether.of_success (P := ∀ v ∈ [a, b], ∀ x ∈ c.auxiliary v, x.HostData) ?_
    fun hHostData => ?_
  · intro s v s' hOk
    obtain ⟨xs, hX, hRest⟩ := lift_bind_eq_ok hOk
    obtain ⟨ys, hY, -⟩ := lift_bind_eq_ok hRest
    have hYes := hostData_of_toFields hUniform hX
    have hNo := hostData_of_toFields hUniform hY
    simpa using ⟨hYes, hNo⟩
  refine EndTogether.bind (.of_follows (Follows.lift (toFields_follows h ha))
    (Follows.lift (toFields_follows h ha'))) fun xs xs' xs'' hX hX' => ?_
  refine EndTogether.bind (.of_follows (Follows.lift (toFields_follows h hb))
    (Follows.lift (toFields_follows h hb'))) fun ys ys' ys'' hY hY' => ?_
  cases hCase : condition.isConstant with
  | true =>
      obtain rfl := hCondition.eq_of_isConstant hCase
      obtain rfl := hCondition'.eq_of_isConstant hCase
      rw [hCase]
      refine EndTogether.bind (.of_follows (Follows.lift (.refl _)) (Follows.lift (.refl _))) ?_
      rintro bit _ _ rfl rfl
      cases bit with
      | true => exact .of_follows (.pure ha) (.pure ha')
      | false => exact .of_follows (.pure hb) (.pure hb')
  | false =>
      rw [← hCondition'.isConstant_eq, ← hCondition.isConstant_eq, hCase]
      exact EndTogether.bind (.of_follows (blendAll_follows hCondition hX hY)
        (blendAll_follows hCondition' hX' hY')) fun _ _ _ hFields hFields' =>
          assemble_together h hHostData (.cons ha (.cons hb .nil)) (.cons ha' (.cons hb' .nil))
            hFields hFields'

/-! ## Any number of candidates -/

/-- The sum of elements, each weighted with the bit of its candidate. -/
def weightedFields (c : Codec) (mask : List Bit) (candidates : List Value) :
    Circuit (List Signal) := do
  let width ← c.width ()
  (mask.zip candidates).foldlM (fun sums (bit, candidate) => c.addCandidate sums bit candidate)
    (List.replicate width.fields Signal.zero)

theorem weightedSum_eq (c : Codec) (mask : List Bit) (candidates : List Value) :
    c.weightedSum mask candidates =
      c.weightedFields mask candidates >>= c.assemble candidates := by
  unfold weightedSum weightedFields
  rw [bind_assoc]
  rfl

theorem weightedFields_follows (h : c.Robust) {mask mask' : List Bit}
    (hMask : List.Forall₂ (Bit.Reduces loss) mask mask')
    (hCandidates : ValuesReduce loss candidates candidates') :
    Follows (RunsReduce loss) (SignalsReduce loss) (c.weightedFields mask candidates)
      (c.weightedFields mask' candidates') := by
  refine (Follows.lift (.refl (c.width ()))).bind ?_
  rintro width _ rfl
  refine Follows.foldlM (forall₂_zip_zip hMask hCandidates) ?_ (.refl _)
  rintro sums sums' ⟨bit, candidate⟩ ⟨bit', candidate'⟩ hSums ⟨hBit, hCandidate⟩
  exact addCandidate_follows h hSums hBit hCandidate

/-- Every candidate of a sum that there is has elements. -/
theorem toFields_of_weightedFields {mask : List Bit} (hLength : mask.length = candidates.length)
    {runs runs' : List Run} {sums : List Signal}
    (hOk : c.weightedFields mask candidates runs = (.ok sums, runs')) :
    ∀ v ∈ candidates, ∃ fields, c.toFields v = .ok fields := by
  obtain ⟨width, -, hFold⟩ := lift_bind_eq_ok hOk
  clear hOk
  generalize List.replicate width.fields Signal.zero = start at hFold
  induction mask generalizing candidates runs start with
  | nil =>
      rw [List.eq_nil_of_length_eq_zero hLength.symm]
      exact List.forall_mem_nil _
  | cons bit mask ih =>
      cases candidates with
      | nil => cases hLength
      | cons v rest =>
          obtain ⟨next, between, hHead, hRest⟩ := bind_state_eq_ok hFold
          obtain ⟨fields, hFields, -⟩ := lift_bind_eq_ok hHead
          exact List.forall_mem_cons.2 ⟨⟨fields, hFields⟩, ih (Nat.succ.inj hLength) _ hRest⟩

theorem weightedSum_together (hUniform : c.Uniform) (h : c.Robust)
    {mask mask' mask'' : List Bit} (hLength : mask.length = candidates.length)
    (hMask : List.Forall₂ (Bit.Reduces .hostData) mask mask')
    (hMask' : List.Forall₂ (Bit.Reduces .assignment) mask' mask'')
    (hBlank : ValuesReduce .hostData candidates candidates')
    (hCompile : ValuesReduce .assignment candidates' candidates'') :
    EndTogether (RunsReduce .hostData) (RunsReduce .assignment) (Value.Reduces .hostData)
      (Value.Reduces .assignment) (c.weightedSum mask candidates)
      (c.weightedSum mask' candidates') (c.weightedSum mask'' candidates'') := by
  rw [weightedSum_eq, weightedSum_eq, weightedSum_eq]
  refine EndTogether.of_success
    (P := ∀ v ∈ candidates, ∀ x ∈ c.auxiliary v, x.HostData) ?_ fun hHostData => ?_
  · intro s v s' hOk w hw
    obtain ⟨sums, between, hSums, -⟩ := bind_state_eq_ok hOk
    obtain ⟨fields, hFields⟩ := toFields_of_weightedFields hLength hSums w hw
    exact hostData_of_toFields hUniform hFields
  exact EndTogether.bind (.of_follows (weightedFields_follows h hMask hBlank)
    (weightedFields_follows h hMask' hCompile)) fun _ _ _ hFields hFields' =>
      assemble_together h hHostData hBlank hCompile hFields hFields'

/-- There are as many bits as candidates, and at most one is set, as far as it is looked at. -/
def Countable (mask : List Bit) (candidates : List Value) (runs : List Run) : Prop :=
  mask.length = candidates.length ∧
    (mask.all Bit.isConstant = true ∨ haveValues runs = true → atMostOne mask = .ok ())

theorem switch_eq_weightedSum {mask : List Bit} {runs : List Run}
    (h : Countable mask candidates runs) :
    c.switch mask candidates runs = c.weightedSum mask candidates runs := by
  unfold switch
  rw [if_neg (not_not.2 h.1)]
  dsimp only
  split
  · next hConstant =>
      rw [h.2 (.inl hConstant)]
      rfl
  · show (if haveValues runs then _ else _ : Circuit Value) runs = _
    split
    · next hValues =>
        rw [h.2 (.inr hValues)]
        rfl
    · rfl

theorem countable_of_switch {mask : List Bit} {runs runs' : List Run} {v : Value}
    (h : c.switch mask candidates runs = (.ok v, runs')) : Countable mask candidates runs := by
  unfold switch at h
  split at h
  · cases h
  · next hLength =>
      refine ⟨not_not.1 hLength, fun hLooked => ?_⟩
      dsimp only at h
      split at h
      · obtain ⟨_, hCount, -⟩ := lift_bind_eq_ok h
        exact hCount
      · next hConstant =>
          have hValues := hLooked.resolve_left hConstant
          change (if haveValues runs then _ else _ : Circuit Value) runs = _ at h
          rw [if_pos hValues] at h
          obtain ⟨_, hCount, -⟩ := lift_bind_eq_ok h
          exact hCount

/-- A pass that lacks something looks at no bit that was not looked at. -/
theorem Countable.reduces {mask mask' : List Bit} {runs runs' : List Run}
    (h : Countable mask candidates runs) (hMask : List.Forall₂ (Bit.Reduces loss) mask mask')
    (hCandidates : ValuesReduce loss candidates candidates')
    (hRuns : RunsReduce loss runs runs') : Countable mask' candidates' runs' := by
  refine ⟨by rw [← hMask.length_eq, ← hCandidates.length_eq, h.1], ?_⟩
  rintro (hConstant | hValues)
  · have hSame : mask' = mask := by
      clear h
      induction hMask with
      | nil => rfl
      | cons hHead _ ih =>
          rw [List.all_cons, Bool.and_eq_true] at hConstant
          rw [ih hConstant.2, hHead.eq_of_isConstant (hHead.isConstant_eq.trans hConstant.1)]
    subst hSame
    exact h.2 (.inl hConstant)
  · cases hRuns with
    | same hLost =>
        have hSame : mask' = mask := by
          clear h
          induction hMask with
          | nil => rfl
          | cons hHead _ ih => rw [ih, hHead.eq hLost]
        subst hSame
        exact h.2 (.inr hValues)
    | erased _ _ _ hMode' =>
        rw [haveValues, hMode'] at hValues
        cases hValues

theorem switch_together (hUniform : c.Uniform) (h : c.Robust) {mask mask' mask'' : List Bit}
    (hMask : List.Forall₂ (Bit.Reduces .hostData) mask mask')
    (hMask' : List.Forall₂ (Bit.Reduces .assignment) mask' mask'')
    (hBlank : ValuesReduce .hostData candidates candidates')
    (hCompile : ValuesReduce .assignment candidates' candidates'') :
    EndTogether (RunsReduce .hostData) (RunsReduce .assignment) (Value.Reduces .hostData)
      (Value.Reduces .assignment) (c.switch mask candidates) (c.switch mask' candidates')
      (c.switch mask'' candidates'') := by
  intro runs runs' runs'' hRuns hRuns' v after hOk
  have hCount := countable_of_switch hOk
  have hCount' := hCount.reduces hMask hBlank hRuns
  have hCount'' := hCount'.reduces hMask' hCompile hRuns'
  rw [switch_eq_weightedSum hCount] at hOk
  rw [switch_eq_weightedSum hCount', switch_eq_weightedSum hCount'']
  exact weightedSum_together hUniform h hCount.1 hMask hMask' hBlank hCompile runs runs' runs''
    hRuns hRuns' v after hOk

end Codec

end TypedCircuit
