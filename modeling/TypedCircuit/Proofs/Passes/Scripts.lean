import TypedCircuit.Proofs.Passes.Operations
import TypedCircuit.Proofs.Passes.Witnesses
import TypedCircuit.Script.Step

/-!
# Operations of scripts in two passes

An expression looks at the form of what was saved, never at the value of a signal. So the
operations of a circuit have alike operands in alike sessions, and what they offer to save is
alike as well.

An operation is *oblivious* if it belongs to a circuit: if it computes or asserts with signals
and bits, uses a type on values of circuits, packs a hash input, or asks for the blinding
value. The others either look at the value of a signal or have nothing to do with circuits.

## Main results

* `ValueExpr.eval_agree` — an expression in alike workspaces.
* `Operation.run_agree` — an oblivious operation in alike sessions.
-/

namespace TypedCircuit.Script

open Value (MembersAlike)
open Construction (Passive)

/-! ## Expressions -/

theorem found_agree {α β : Type} {R : α → β → Prop} (expected : String) {a? : Option α}
    {b? : Option β} (h : Option.Rel R a? b?) :
    ResultsAgree R (found expected a?) (found expected b?) := by
  cases h with
  | none => exact .error_left
  | some hab => exact .ok hab

theorem forall₂_getElem? {α β : Type} {R : α → β → Prop} {xs : List α} {ys : List β}
    (h : List.Forall₂ R xs ys) (index : Nat) : Option.Rel R xs[index]? ys[index]? := by
  induction h generalizing index with
  | nil => exact .none
  | cons hHead _ ih =>
      cases index with
      | zero => exact .some hHead
      | succ index => exact ih index

mutual

/-- An expression has alike values where alike values are saved. -/
theorem ValueExpr.eval_agree {values values' : Entries Value} (h : MembersAlike values values') :
    ∀ e : ValueExpr, ResultsAgree Value.Alike (e.eval values) (e.eval values')
  | .bool _ => .ok (.bit (Signal.Alike.refl _))
  | .element _ => .ok (.signal (Signal.Alike.refl _))
  | .array items => (ValueExpr.evalItems_agree h items).bind fun _ _ hItems =>
      .ok (.of_items hItems)
  | .saved name => found_agree _ (h.find? name)
  | .primitive json => .ok (.primitive json)
  | .opaqueValue _ => .ok (.hostData rfl rfl)
  | .record typeName? members => (ValueExpr.evalMembers_agree h members).bind fun _ _ hMembers =>
      .ok (.record typeName? hMembers.ofList)
  | .member of name => (ValueExpr.eval_agree h of).bind fun _ _ hOf =>
      (found_agree _ hOf.record?).bind fun _ _ hRecord => found_agree _ (hRecord.2.find? name)
  | .item of index => (ValueExpr.eval_agree h of).bind fun _ _ hOf =>
      (found_agree _ hOf.items?).bind fun _ _ hItems =>
        found_agree _ (forall₂_getElem? hItems index)
  | .bitOf of => (ValueExpr.eval_agree h of).bind fun _ _ hOf =>
      (found_agree _ hOf.signal?).bind fun _ _ hSignal => .ok (.bit hSignal)
  | .signalOf of => (ValueExpr.eval_agree h of).bind fun _ _ hOf =>
      (found_agree _ hOf.bit?).bind fun _ _ hBit => .ok (.signal hBit)

theorem ValueExpr.evalItems_agree {values values' : Entries Value}
    (h : MembersAlike values values') : ∀ items : List ValueExpr,
      ResultsAgree ValuesAlike (ValueExpr.evalItems values items)
        (ValueExpr.evalItems values' items)
  | [] => .ok .nil
  | e :: rest => (ValueExpr.eval_agree h e).bind fun _ _ hHead =>
      (ValueExpr.evalItems_agree h rest).bind fun _ _ hRest => .ok (.cons hHead hRest)

theorem ValueExpr.evalMembers_agree {values values' : Entries Value}
    (h : MembersAlike values values') : ∀ members : List (String × ValueExpr),
      ResultsAgree MembersAlike (ValueExpr.evalMembers values members)
        (ValueExpr.evalMembers values' members)
  | [] => .ok .nil
  | (name, e) :: rest => (ValueExpr.eval_agree h e).bind fun _ _ hHead =>
      (ValueExpr.evalMembers_agree h rest).bind fun _ _ hRest => .ok (.cons name hHead hRest)

end

/-! ## Operands -/

theorem read_agree {α β : Type} {R : α → β → Prop} {f : Session Workspace → α}
    {g : Session Workspace → β} (h : ∀ s t, SessionsAlike s t → R (f s) (g t)) :
    Agree SessionsAlike R (Construction.read f) (Construction.read g) := by
  intro s t hState _ _ _ _ ha hb
  cases ha; cases hb
  exact ⟨h s t hState, hState⟩

theorem evalValue_agree (e : ValueExpr) :
    Agree SessionsAlike Value.Alike (evalValue e) (evalValue e) :=
  (read_agree (R := MembersAlike) fun _ _ hState => hState.host.values).bind
    fun _ _ hValues => Agree.lift (ValueExpr.eval_agree hValues e)

theorem evalSignal_agree (e : ValueExpr) :
    Agree SessionsAlike Signal.Alike (evalSignal e) (evalSignal e) :=
  (evalValue_agree e).bind fun _ _ h => Agree.lift (found_agree _ h.signal?)

theorem evalBit_agree (e : ValueExpr) :
    Agree SessionsAlike Bit.Alike (evalBit e) (evalBit e) :=
  (evalValue_agree e).bind fun _ _ h => Agree.lift (found_agree _ h.bit?)

theorem evalItems_agree (e : ValueExpr) :
    Agree SessionsAlike ValuesAlike (evalItems e) (evalItems e) :=
  (evalValue_agree e).bind fun _ _ h => Agree.lift (found_agree _ h.items?)

theorem evalSignals_agree (e : ValueExpr) :
    Agree SessionsAlike SignalsAlike (evalSignals e) (evalSignals e) :=
  (evalItems_agree e).bind fun _ _ hItems => Agree.mapM hItems fun _ _ hItem =>
    Agree.lift (found_agree _ hItem.signal?)

theorem wire_agree {α β : Type} {R : α → β → Prop} {x : Wiring α} {y : Wiring β}
    (h : WiringsAgree R x y) : Agree SessionsAlike R (wire x) (wire y) := h.lift.ofCircuit

theorem buildType_agree (t : TypeExpr) :
    Agree SessionsAlike (· = ·) (buildType t) (buildType t) := by
  refine (read_agree (R := (· = ·)) fun _ _ hState => hState.registry_eq).bind ?_
  rintro registry _ rfl
  refine (read_agree (R := (· = ·)) fun _ _ hState => hState.host.types_eq).bind ?_
  rintro types _ rfl
  exact Agree.lift (ResultsAgree.refl _)

/-- A type has one codec in both sessions, and the codec is uniform. -/
theorem codecOf_agree (d : Descriptor) :
    Agree SessionsAlike (fun c c' => c = c' ∧ c.Uniform)
      (Construction.codecOf d : Action Codec) (Construction.codecOf d) :=
  read_agree fun s _ hState =>
    ⟨congrArg (Registry.codec · d) hState.registry_eq, s.registry.uniform_codec d⟩

theorem evalInput_agree (input : InputExpr) :
    Agree SessionsAlike HashInput.Alike (evalInput input) (evalInput input) := by
  cases input with
  | saved name =>
      exact (read_agree fun _ _ hState => hState.host.inputs).bind fun _ _ hInputs =>
        Agree.lift (found_agree _ (hInputs.find? name))
  | parts fields packed =>
      refine (evalSignals_agree fields).bind fun _ _ hFields => Agree.bind
        (Agree.mapM (List.forall₂_same.2 fun _ _ => rfl) ?_) fun _ _ hPacked =>
          .pure ⟨hFields, hPacked⟩
      rintro ⟨e, bits⟩ _ rfl
      exact (evalSignal_agree e).bind fun _ _ hSignal => .pure ⟨hSignal, rfl⟩

/-! ## Outcomes -/

/-- Two things to save that differ in no more than the values of variables and host data. -/
inductive SavedAlike : Saved → Saved → Prop where
  | value {v w : Value} (h : v.Alike w) : SavedAlike (.value v) (.value w)
  | input {a b : HashInput} (h : a.Alike b) : SavedAlike (.input a) (.input b)

/-- Two outcomes that offer alike things to save. Reports may differ. -/
def Outcome.Alike (o o' : Outcome) : Prop := Option.Rel SavedAlike o.saved? o'.saved?

namespace Outcome.Alike

theorem done : Outcome.done.Alike .done := .none

theorem value {v w : Value} (h : v.Alike w) : (Outcome.value v).Alike (.value w) :=
  .some (.value h)

theorem signal {s t : Signal} (h : s.Alike t) : (Outcome.signal s).Alike (.signal t) :=
  value (.signal h)

theorem bit {a b : Bit} (h : a.Alike b) : (Outcome.bit a).Alike (.bit b) := value (.bit h)

theorem values {vs ws : List Value} (h : ValuesAlike vs ws) :
    (Outcome.values vs).Alike (.values ws) := .some (.value (.of_items h))

theorem signals {fields fields' : List Signal} (h : SignalsAlike fields fields') :
    (Outcome.signals fields).Alike (.signals fields') :=
  values (List.rel_map (fun _ _ hs => .signal hs) h)

theorem input {a b : HashInput} (h : a.Alike b) : (Outcome.input a).Alike (.input b) :=
  .some (.input h)

end Outcome.Alike

/-- Saving alike things keeps sessions alike. -/
theorem save_agree (name? : Option String) {saved? saved?' : Option Saved}
    (h : Option.Rel SavedAlike saved? saved?') :
    Agree SessionsAlike Unrelated (save name? saved?) (save name? saved?') := by
  cases name? with
  | none => exact .pure trivial
  | some name =>
      cases h with
      | none => exact .pure trivial
      | some hSaved =>
          intro s t hState _ _ _ _ ha hb
          cases ha; cases hb
          refine ⟨trivial, hState.runs, hState.registry_eq, ?_⟩
          cases hSaved with
          | value h => exact { hState.host with values := hState.host.values.insert name h }
          | input h => exact { hState.host with inputs := hState.host.inputs.insert name h }

/-! ## Operations -/

theorem CircuitOperation.run_agree (op : CircuitOperation) :
    Agree SessionsAlike Outcome.Alike op.run op.run := by
  have hSignals {f : Signal → Signal → Wiring Signal}
      (hf : ∀ {a a' b b' : Signal}, a.Alike a' → b.Alike b' →
        WiringsAgree Signal.Alike (f a b) (f a' b')) (a b : ValueExpr) :
      Agree SessionsAlike Outcome.Alike (onSignals f a b) (onSignals f a b) :=
    (evalSignal_agree a).bind fun _ _ hA => (evalSignal_agree b).bind fun _ _ hB =>
      (wire_agree (hf hA hB)).bind fun _ _ h => .pure (.signal h)
  have hBits {f : Bit → Bit → Wiring Bit}
      (hf : ∀ {a a' b b' : Bit}, a.Alike a' → b.Alike b' →
        WiringsAgree Bit.Alike (f a b) (f a' b')) (a b : ValueExpr) :
      Agree SessionsAlike Outcome.Alike (onBits f a b) (onBits f a b) :=
    (evalBit_agree a).bind fun _ _ hA => (evalBit_agree b).bind fun _ _ hB =>
      (wire_agree (hf hA hB)).bind fun _ _ h => .pure (.bit h)
  cases op with
  | add a b => exact hSignals Signal.add_agree a b
  | sub a b => exact hSignals Signal.sub_agree a b
  | mul a b => exact hSignals Signal.mul_agree a b
  | neg a =>
      exact (evalSignal_agree a).bind fun _ _ hA =>
        (wire_agree (Signal.sub_agree (Signal.Alike.refl _) hA)).bind fun _ _ h =>
          .pure (.signal h)
  | square a =>
      exact (evalSignal_agree a).bind fun _ _ hA =>
        (wire_agree (Signal.mul_agree hA hA)).bind fun _ _ h => .pure (.signal h)
  | equals a b =>
      exact (evalSignal_agree a).bind fun _ _ hA => (evalSignal_agree b).bind fun _ _ hB =>
        (wire_agree (Signal.equals_agree hA hB)).bind fun _ _ h => .pure (.bit h)
  | assertEqual a b =>
      exact (evalSignal_agree a).bind fun _ _ hA => (evalSignal_agree b).bind fun _ _ hB =>
        (Signal.assertEqual_agree hA hB).ofCircuit.bind fun _ _ _ => .pure .done
  | assertBoolean a =>
      exact (evalSignal_agree a).bind fun _ _ hA =>
        (Signal.assertBoolean_agree hA).ofCircuit.bind fun _ _ _ => .pure .done
  | assertRange a bits =>
      exact (evalSignal_agree a).bind fun _ _ hA =>
        (Signal.assertRange_agree hA bits).ofCircuit.bind fun _ _ _ => .pure .done
  | and a b => exact hBits Bit.and_agree a b
  | or a b => exact hBits Bit.or_agree a b
  | not a =>
      exact (evalBit_agree a).bind fun _ _ hA =>
        (wire_agree (Bit.not_agree hA)).bind fun _ _ h => .pure (.bit h)
  | bitEquals a b => exact hBits Signal.equals_agree a b
  | bitAssertEqual a b =>
      exact (evalBit_agree a).bind fun _ _ hA => (evalBit_agree b).bind fun _ _ hB =>
        (Signal.assertEqual_agree hA hB).ofCircuit.bind fun _ _ _ => .pure .done
  | assertTrue a =>
      exact (evalBit_agree a).bind fun _ _ hA =>
        (Signal.assertEqual_agree hA (Signal.Alike.refl _)).ofCircuit.bind fun _ _ _ =>
          .pure .done

/-- The uses of a type that look at no value of a signal, except in order to fail. -/
def TypeOperation.Oblivious : TypeOperation → Prop
  | .toFields _ | .ofFieldsWithAux _ _ | .check _ | .auxiliary _ | .toInput _
  | .toInputOrFields _ | .equal _ _ | .assertEqual _ _ | .select _ _ _ | .switch _ _ => True
  | .describe | .text | .ofFields _ | .toJson _ | .fromJson _ | .toConstant _
  | .isConstant _ => False

theorem TypeOperation.run_agree {op : TypeOperation} (h : op.Oblivious) (d : Descriptor) :
    Agree SessionsAlike Outcome.Alike (op.run d) (op.run d) := by
  refine (codecOf_agree d).bind ?_
  rintro c _ ⟨rfl, hc⟩
  cases op with
  | toFields v =>
      exact (evalValue_agree v).bind fun _ _ hV =>
        (Agree.lift (Codec.toFields_agree hc hV)).bind fun _ _ h => .pure (.signals h)
  | ofFieldsWithAux fields aux =>
      exact (evalSignals_agree fields).bind fun _ _ hFields =>
        (evalItems_agree aux).bind fun _ _ hAux =>
          (Agree.lift (Codec.ofFieldsWithAux_agree hc hFields fun _ => hAux)).bind
            fun _ _ h => .pure (.value h)
  | check v =>
      exact (evalValue_agree v).bind fun _ _ hV =>
        (hc.check hV).ofCircuit.bind fun _ _ _ => .pure .done
  | auxiliary v =>
      exact (evalValue_agree v).bind fun _ _ hV => .pure (.values (hc.auxiliary hV))
  | toInput v =>
      exact (evalValue_agree v).bind fun _ _ hV =>
        (Agree.lift (Codec.toInput_agree hc hV)).bind fun _ _ h => .pure (.input h)
  | toInputOrFields v =>
      exact (evalValue_agree v).bind fun _ _ hV =>
        (Agree.lift (Codec.toInputOrFields_agree hc hV)).bind fun _ _ h => .pure (.input h)
  | equal a b =>
      exact (evalValue_agree a).bind fun _ _ hA => (evalValue_agree b).bind fun _ _ hB =>
        (Codec.equal_agree hc hA hB).ofCircuit.bind fun _ _ h => .pure (.bit h)
  | assertEqual a b =>
      exact (evalValue_agree a).bind fun _ _ hA => (evalValue_agree b).bind fun _ _ hB =>
        (Codec.assertEqual_agree hc hA hB).ofCircuit.bind fun _ _ _ => .pure .done
  | select condition yes no =>
      exact (evalBit_agree condition).bind fun _ _ hCondition =>
        (evalValue_agree yes).bind fun _ _ hYes => (evalValue_agree no).bind fun _ _ hNo =>
          (Codec.select_agree hc hCondition hYes hNo).ofCircuit.bind fun _ _ h =>
            .pure (.value h)
  | switch mask candidates =>
      refine (Agree.mapM (List.forall₂_same.2 fun _ _ => rfl) ?_).bind fun _ _ hMask =>
        (Agree.mapM (List.forall₂_same.2 fun _ _ => rfl) ?_).bind fun _ _ hCandidates =>
          (Codec.switch_agree hc hMask hCandidates).ofCircuit.bind fun _ _ h =>
            .pure (.value h)
      · rintro e _ rfl; exact evalBit_agree e
      · rintro e _ rfl; exact evalValue_agree e
  | describe | text | ofFields | toJson | fromJson | toConstant | isConstant => cases h

/-- The operations that a circuit consists of. -/
def Operation.Oblivious : Operation → Prop
  | .value (.evaluate _) | .circuit _ | .append _ _ | .pack _ | .scope .blinding => True
  | .typed _ op => op.Oblivious
  | _ => False

/-- An oblivious operation does the same in alike sessions. -/
theorem Operation.run_agree {op : Operation} (h : op.Oblivious) :
    Agree SessionsAlike Outcome.Alike op.run op.run := by
  cases op with
  | value op =>
      cases op with
      | evaluate v => exact (evalValue_agree v).bind fun _ _ hV => .pure (.value hV)
      | _ => cases h
  | circuit op => exact op.run_agree
  | typed type op =>
      refine (buildType_agree type).bind ?_
      rintro d _ rfl
      exact TypeOperation.run_agree h d
  | append a b =>
      exact (evalInput_agree a).bind fun _ _ hA => (evalInput_agree b).bind fun _ _ hB =>
        .pure (.input ⟨List.rel_append hA.fields hB.fields, List.rel_append hA.packed hB.packed⟩)
  | pack input =>
      exact (evalInput_agree input).bind fun _ _ hInput =>
        (wire_agree (HashInput.pack_agree hInput)).bind fun _ _ h => .pure (.signals h)
  | registry | arguments => cases h
  | scope op =>
      cases op with
      | blinding =>
          exact Construction.blindingValue_agree.bind fun _ _ hs =>
            .pure (.some (.value (.signal hs)))
      | _ => cases h

end TypedCircuit.Script
