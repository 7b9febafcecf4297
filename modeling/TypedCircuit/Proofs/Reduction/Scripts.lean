import TypedCircuit.Proofs.Passes.StraightLine
import TypedCircuit.Proofs.Reduction.Witnesses

/-!
# Operations of scripts in a pass that lacks something

An expression looks at the form of what was saved, and not at host data. So it has a value wherever
it had one, and the operations on it succeed wherever they did, except for selections.

An instruction is *direct* if it computes or asserts with signals and bits, uses a type on values,
or brings private inputs or a witness into the circuit, without memoization and without a hash
input.

## Main results

* `ValueExpr.eval_follows` — an expression where less is known.
* `Operation.run_together` — a direct operation in three passes.
-/

namespace TypedCircuit.Script

open Value (MembersReduce)

variable {loss : Loss}

/-! ## Expressions -/

theorem found_follows {α β : Type} {R : α → β → Prop} (expected : String) {a? : Option α}
    {b? : Option β} (h : Option.Rel R a? b?) :
    ResultFollows R (found expected a?) (found expected b?) := by
  cases h with
  | none => exact .error
  | some hab => exact .ok hab

mutual

/-- An expression has what is left of its value. -/
theorem ValueExpr.eval_follows (hKeeps : loss.keeps) {values values' : Entries Value}
    (h : MembersReduce loss values values') :
    ∀ e : ValueExpr, ResultFollows (Value.Reduces loss) (e.eval values) (e.eval values')
  | .bool _ => .ok (.bit (Signal.Reduces.refl _))
  | .element _ => .ok (.signal (.refl _))
  | .array items => (ValueExpr.evalItems_follows hKeeps h items).bind fun _ _ hItems =>
      .ok (.of_items hItems)
  | .saved name => found_follows _ (h.find? name)
  | .primitive json => .ok (.primitive json)
  | .opaqueValue identity => .ok (.kept hKeeps identity)
  | .record typeName? members =>
      (ValueExpr.evalMembers_follows hKeeps h members).bind fun _ _ hMembers =>
        .ok (.record typeName? hMembers.ofList)
  | .member of name => (ValueExpr.eval_follows hKeeps h of).bind fun _ _ hOf =>
      (found_follows _ hOf.record?).bind fun _ _ hRecord =>
        found_follows _ (hRecord.2.find? name)
  | .item of index => (ValueExpr.eval_follows hKeeps h of).bind fun _ _ hOf =>
      (found_follows _ hOf.items?).bind fun _ _ hItems =>
        found_follows _ (forall₂_getElem? hItems index)
  | .bitOf of => (ValueExpr.eval_follows hKeeps h of).bind fun _ _ hOf =>
      (found_follows _ hOf.signal?).bind fun _ _ hSignal => .ok (.bit hSignal)
  | .signalOf of => (ValueExpr.eval_follows hKeeps h of).bind fun _ _ hOf =>
      (found_follows _ hOf.bit?).bind fun _ _ hBit => .ok (.signal hBit)

theorem ValueExpr.evalItems_follows (hKeeps : loss.keeps) {values values' : Entries Value}
    (h : MembersReduce loss values values') : ∀ items : List ValueExpr,
      ResultFollows (ValuesReduce loss) (ValueExpr.evalItems values items)
        (ValueExpr.evalItems values' items)
  | [] => .ok .nil
  | e :: rest => (ValueExpr.eval_follows hKeeps h e).bind fun _ _ hHead =>
      (ValueExpr.evalItems_follows hKeeps h rest).bind fun _ _ hRest => .ok (.cons hHead hRest)

theorem ValueExpr.evalMembers_follows (hKeeps : loss.keeps) {values values' : Entries Value}
    (h : MembersReduce loss values values') : ∀ members : List (String × ValueExpr),
      ResultFollows (MembersReduce loss) (ValueExpr.evalMembers values members)
        (ValueExpr.evalMembers values' members)
  | [] => .ok .nil
  | (name, e) :: rest => (ValueExpr.eval_follows hKeeps h e).bind fun _ _ hHead =>
      (ValueExpr.evalMembers_follows hKeeps h rest).bind fun _ _ hRest =>
        .ok (.cons name hHead hRest)

end

/-! ## Operands -/

section

variable (hKeeps : loss.keeps)
include hKeeps

theorem evalValue_follows (e : ValueExpr) :
    Follows (SessionsReduce loss) (Value.Reduces loss) (evalValue e) (evalValue e) :=
  (read_follows fun _ _ hState => hState.values).bind fun _ _ hValues =>
    Follows.lift (e.eval_follows hKeeps hValues)

theorem evalSignal_follows (e : ValueExpr) :
    Follows (SessionsReduce loss) (Signal.Reduces loss) (evalSignal e) (evalSignal e) :=
  (evalValue_follows hKeeps e).bind fun _ _ h => Follows.lift (found_follows _ h.signal?)

theorem evalBit_follows (e : ValueExpr) :
    Follows (SessionsReduce loss) (Bit.Reduces loss) (evalBit e) (evalBit e) :=
  (evalValue_follows hKeeps e).bind fun _ _ h => Follows.lift (found_follows _ h.bit?)

theorem evalItems_follows (e : ValueExpr) :
    Follows (SessionsReduce loss) (ValuesReduce loss) (evalItems e) (evalItems e) :=
  (evalValue_follows hKeeps e).bind fun _ _ h => Follows.lift (found_follows _ h.items?)

theorem evalSignals_follows (e : ValueExpr) :
    Follows (SessionsReduce loss) (SignalsReduce loss) (evalSignals e) (evalSignals e) :=
  (evalItems_follows hKeeps e).bind fun _ _ hItems => Follows.mapM hItems fun _ _ hItem =>
    Follows.lift (found_follows _ hItem.signal?)

theorem evalValues_follows (es : List ValueExpr) :
    Follows (SessionsReduce loss) (ValuesReduce loss) (es.mapM evalValue) (es.mapM evalValue) :=
  Follows.mapM (List.forall₂_same.2 fun _ _ => rfl) fun e _ h => h ▸ evalValue_follows hKeeps e

theorem evalBits_follows (es : List ValueExpr) :
    Follows (SessionsReduce loss) (List.Forall₂ (Bit.Reduces loss)) (es.mapM evalBit)
      (es.mapM evalBit) :=
  Follows.mapM (List.forall₂_same.2 fun _ _ => rfl) fun e _ h => h ▸ evalBit_follows hKeeps e

end

theorem wire_follows {α β : Type} {R : α → β → Prop} {x : Wiring α} {y : Wiring β}
    (h : WiringsFollow loss R x y) : Follows (SessionsReduce loss) R (wire x) (wire y) :=
  h.lift.ofCircuit

theorem buildType_follows (t : TypeExpr) :
    Follows (SessionsReduce loss) (· = ·) (buildType t) (buildType t) := by
  refine (read_follows (R := (· = ·)) fun _ _ hState => hState.registry_eq).bind ?_
  rintro registry _ rfl
  refine (read_follows (R := (· = ·)) fun _ _ hState => hState.types_eq).bind ?_
  rintro types _ rfl
  exact Follows.lift (.refl _)

/-! ## Outcomes -/

/-- Two outcomes that offer nothing to save, or a value and what is left of it. Reports may
differ. -/
inductive Outcome.Reduces (loss : Loss) : Outcome → Outcome → Prop where
  | nothing (report report' : Report) : Outcome.Reduces loss ⟨report, none⟩ ⟨report', none⟩
  | saved (report report' : Report) {v w : Value} (h : v.Reduces loss w) :
    Outcome.Reduces loss ⟨report, some (.value v)⟩ ⟨report', some (.value w)⟩

namespace Outcome.Reduces

theorem done : Outcome.done.Reduces loss .done := .nothing _ _

theorem value {v w : Value} (h : v.Reduces loss w) :
    (Outcome.value v).Reduces loss (.value w) := .saved _ _ h

theorem signal {s t : Signal} (h : s.Reduces loss t) :
    (Outcome.signal s).Reduces loss (.signal t) := value (.signal h)

theorem bit {a b : Bit} (h : a.Reduces loss b) : (Outcome.bit a).Reduces loss (.bit b) :=
  value (.bit h)

theorem values {vs ws : List Value} (h : ValuesReduce loss vs ws) :
    (Outcome.values vs).Reduces loss (.values ws) := .saved _ _ (.of_items h)

theorem signals {fields fields' : List Signal} (h : SignalsReduce loss fields fields') :
    (Outcome.signals fields).Reduces loss (.signals fields') :=
  values (List.rel_map (fun _ _ hs => .signal hs) h)

end Outcome.Reduces

theorem save_follows (name? : Option String) {o o' : Outcome} (h : o.Reduces loss o') :
    Follows (SessionsReduce loss) Unrelated (save name? o.saved?) (save name? o'.saved?) := by
  cases name? with
  | none => cases h <;> exact .pure trivial
  | some name =>
      cases h with
      | nothing => exact .pure trivial
      | saved _ _ hValue =>
          rintro s t hState _ _ ⟨⟩
          exact ⟨(), _, rfl, trivial, hState.runs, hState.registry_eq,
            hState.values.insert name hValue, hState.types_eq⟩

/-! ## Operations -/

theorem CircuitOperation.run_follows (hKeeps : loss.keeps) (op : CircuitOperation) :
    Follows (SessionsReduce loss) (Outcome.Reduces loss) op.run op.run := by
  have hSignals {f : Signal → Signal → Wiring Signal}
      (hf : ∀ {a a' b b' : Signal}, a.Reduces loss a' → b.Reduces loss b' →
        WiringsFollow loss (Signal.Reduces loss) (f a b) (f a' b')) (a b : ValueExpr) :
      Follows (SessionsReduce loss) (Outcome.Reduces loss) (onSignals f a b) (onSignals f a b) :=
    (evalSignal_follows hKeeps a).bind fun _ _ hA =>
      (evalSignal_follows hKeeps b).bind fun _ _ hB =>
        (wire_follows (hf hA hB)).bind fun _ _ h => .pure (.signal h)
  have hBits {f : Bit → Bit → Wiring Bit}
      (hf : ∀ {a a' b b' : Bit}, a.Reduces loss a' → b.Reduces loss b' →
        WiringsFollow loss (Bit.Reduces loss) (f a b) (f a' b')) (a b : ValueExpr) :
      Follows (SessionsReduce loss) (Outcome.Reduces loss) (onBits f a b) (onBits f a b) :=
    (evalBit_follows hKeeps a).bind fun _ _ hA => (evalBit_follows hKeeps b).bind fun _ _ hB =>
      (wire_follows (hf hA hB)).bind fun _ _ h => .pure (.bit h)
  cases op with
  | add a b => exact hSignals Signal.add_follows a b
  | sub a b => exact hSignals Signal.sub_follows a b
  | mul a b => exact hSignals Signal.mul_follows a b
  | neg a =>
      exact (evalSignal_follows hKeeps a).bind fun _ _ hA =>
        (wire_follows (Signal.sub_follows (.refl _) hA)).bind fun _ _ h => .pure (.signal h)
  | square a =>
      exact (evalSignal_follows hKeeps a).bind fun _ _ hA =>
        (wire_follows (Signal.mul_follows hA hA)).bind fun _ _ h => .pure (.signal h)
  | equals a b =>
      exact (evalSignal_follows hKeeps a).bind fun _ _ hA =>
        (evalSignal_follows hKeeps b).bind fun _ _ hB =>
          (wire_follows (Signal.equals_follows hA hB)).bind fun _ _ h => .pure (.bit h)
  | assertEqual a b =>
      exact (evalSignal_follows hKeeps a).bind fun _ _ hA =>
        (evalSignal_follows hKeeps b).bind fun _ _ hB =>
          (Signal.assertEqual_follows hA hB).ofCircuit.bind fun _ _ _ => .pure .done
  | assertBoolean a =>
      exact (evalSignal_follows hKeeps a).bind fun _ _ hA =>
        (Signal.assertBoolean_follows hA).ofCircuit.bind fun _ _ _ => .pure .done
  | assertRange a bits =>
      exact (evalSignal_follows hKeeps a).bind fun _ _ hA =>
        (Signal.assertRange_follows hA bits).ofCircuit.bind fun _ _ _ => .pure .done
  | and a b => exact hBits Bit.and_follows a b
  | or a b => exact hBits Bit.or_follows a b
  | not a =>
      exact (evalBit_follows hKeeps a).bind fun _ _ hA =>
        (wire_follows (Bit.not_follows hA)).bind fun _ _ h => .pure (.bit h)
  | bitEquals a b => exact hBits Signal.equals_follows a b
  | bitAssertEqual a b =>
      exact (evalBit_follows hKeeps a).bind fun _ _ hA =>
        (evalBit_follows hKeeps b).bind fun _ _ hB =>
          (Signal.assertEqual_follows hA hB).ofCircuit.bind fun _ _ _ => .pure .done
  | assertTrue a =>
      exact (evalBit_follows hKeeps a).bind fun _ _ hA =>
        (Signal.assertEqual_follows hA (.refl _)).ofCircuit.bind fun _ _ _ => .pure .done

/-! ## Operations in three passes -/

/-- What follows whatever is lost ends together. -/
theorem together {α : Type} {R : Loss → α → α → Prop} {x : Action α}
    (h : ∀ {loss : Loss}, loss.keeps → Follows (SessionsReduce loss) (R loss) x x) :
    EndTogether (SessionsReduce .hostData) (SessionsReduce .assignment) (R .hostData)
      (R .assignment) x x x := .of_follows (h trivial) (h trivial)

/-- The uses of a type on values, apart from those for hashing and for documents. -/
def TypeOperation.Direct : TypeOperation → Prop
  | .toFields _ | .ofFieldsWithAux _ _ | .check _ | .auxiliary _ | .equal _ _ | .assertEqual _ _
  | .select _ _ _ | .switch _ _ => True
  | _ => False

theorem TypeOperation.run_together {op : TypeOperation} (h : op.Direct) (d : Descriptor) :
    EndTogether (SessionsReduce .hostData) (SessionsReduce .assignment)
      (Outcome.Reduces .hostData) (Outcome.Reduces .assignment) (op.run d) (op.run d)
      (op.run d) := by
  refine EndTogether.bind (.of_follows (Construction.codecOf_follows d)
    (Construction.codecOf_follows d)) ?_
  rintro c _ _ ⟨rfl, hUniform, hc⟩ ⟨rfl, -⟩
  cases op with
  | toFields v =>
      exact together fun hKeeps => (evalValue_follows hKeeps v).bind fun _ _ hV =>
        (Follows.lift (Codec.toFields_follows hc hV)).bind fun _ _ h => .pure (.signals h)
  | ofFieldsWithAux fields aux =>
      exact together fun hKeeps => (evalSignals_follows hKeeps fields).bind fun _ _ hFields =>
        (evalItems_follows hKeeps aux).bind fun _ _ hAux =>
          (Follows.lift (Codec.ofFieldsWithAux_follows hc hFields fun _ _ _ => hAux)).bind
            fun _ _ h => .pure (.value h)
  | check v =>
      exact together fun hKeeps => (evalValue_follows hKeeps v).bind fun _ _ hV =>
        (hc.check hV).ofCircuit.bind fun _ _ _ => .pure .done
  | auxiliary v =>
      exact together fun hKeeps => (evalValue_follows hKeeps v).bind fun _ _ hV =>
        .pure (.values (hc.auxiliary hV))
  | equal a b =>
      exact together fun hKeeps => (evalValue_follows hKeeps a).bind fun _ _ hA =>
        (evalValue_follows hKeeps b).bind fun _ _ hB =>
          (Codec.equal_follows hc hA hB).ofCircuit.bind fun _ _ h => .pure (.bit h)
  | assertEqual a b =>
      exact together fun hKeeps => (evalValue_follows hKeeps a).bind fun _ _ hA =>
        (evalValue_follows hKeeps b).bind fun _ _ hB =>
          (Codec.assertEqual_follows hc hA hB).ofCircuit.bind fun _ _ _ => .pure .done
  | select condition yes no =>
      exact (together fun hKeeps => evalBit_follows hKeeps condition).bind
        fun _ _ _ hCondition hCondition' =>
        (together fun hKeeps => evalValue_follows hKeeps yes).bind fun _ _ _ hYes hYes' =>
        (together fun hKeeps => evalValue_follows hKeeps no).bind fun _ _ _ hNo hNo' =>
        (Codec.select_together hUniform hc hCondition hCondition' hYes hYes' hNo
          hNo').ofCircuit.bind fun _ _ _ h h' =>
        .of_follows (.pure (.value h)) (.pure (.value h'))
  | switch mask candidates =>
      exact (together fun hKeeps => evalBits_follows hKeeps mask).bind fun _ _ _ hMask hMask' =>
        (together fun hKeeps => evalValues_follows hKeeps candidates).bind
          fun _ _ _ hCandidates hCandidates' =>
        (Codec.switch_together hUniform hc hMask hMask' hCandidates
          hCandidates').ofCircuit.bind fun _ _ _ h h' =>
        .of_follows (.pure (.value h)) (.pure (.value h'))
  | describe | text | ofFields | toInput | toInputOrFields | toJson | fromJson | toConstant
  | isConstant => cases h

/-- The operations that compute, assert, and use a type, without hash inputs. -/
def Operation.Direct : Operation → Prop
  | .value (.evaluate _) | .circuit _ => True
  | .typed _ op => op.Direct
  | _ => False

/-- A direct operation ends in a compile pass as it does with nulls in place of host data. -/
theorem Operation.run_together {op : Operation} (h : op.Direct) :
    EndTogether (SessionsReduce .hostData) (SessionsReduce .assignment)
      (Outcome.Reduces .hostData) (Outcome.Reduces .assignment) op.run op.run op.run := by
  cases op with
  | value op =>
      cases op with
      | evaluate v =>
          exact together fun hKeeps => (evalValue_follows hKeeps v).bind fun _ _ hV =>
            .pure (.value hV)
      | _ => cases h
  | circuit op => exact together fun hKeeps => op.run_follows hKeeps
  | typed type op =>
      refine EndTogether.bind (.of_follows (buildType_follows type) (buildType_follows type)) ?_
      rintro d _ _ rfl rfl
      exact TypeOperation.run_together h d
  | append | pack | registry | arguments | scope => cases h

end TypedCircuit.Script
