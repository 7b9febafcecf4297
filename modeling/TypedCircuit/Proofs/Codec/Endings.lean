import TypedCircuit.Proofs.Codec.Congruence

/-!
# Operations that come to an end

The number of steps of an operation is limited, and an operation that needs more fails with an error
of its own. That it comes to an end means that it does not fail so. It may fail otherwise: an error
that is found ends an operation as well as a result.

An operation on a type goes from a type to its components and on to the members of the names it
mentions. It comes to an end if following mentions does, for every argument.

## Main results

* `Registry.Grounded.ending` — all operations on a type that leads to no circle come to an end.
-/

namespace TypedCircuit

variable {α β : Type}

/-- An operation does not fail by running out of steps. -/
def Ends (x : Except Error α) : Prop := ∀ name, x ≠ .error (.recursiveType name)

namespace Ends

theorem ok (a : α) : Ends (.ok a) := nofun

theorem bind {x : Except Error α} {f : α → Except Error β} (hx : Ends x) (hf : ∀ a, Ends (f a)) :
    Ends (x >>= f) := by
  cases x with
  | error e => exact fun name h => hx name (by cases h; rfl)
  | ok a => exact hf a

theorem map {x : Except Error α} (hx : Ends x) (f : α → β) : Ends (x.map f) := by
  cases x with
  | error e => exact fun name h => hx name (by cases h; rfl)
  | ok a => exact ok (f a)

theorem mapM {f : α → Except Error β} {xs : List α} (h : ∀ x ∈ xs, Ends (f x)) :
    Ends (xs.mapM f) := by
  induction xs with
  | nil => exact ok []
  | cons x xs ih =>
      obtain ⟨hHead, hRest⟩ := List.forall_mem_cons.1 h
      rw [List.mapM_cons]
      exact hHead.bind fun b => (ih hRest).bind fun bs => ok (b :: bs)

theorem optionBind {x : OptionT (Except Error) α} {f : α → OptionT (Except Error) β}
    (hx : Ends x.run) (hf : ∀ a, Ends (f a).run) : Ends (x >>= f).run :=
  hx.bind fun a? => by
    cases a? with
    | none => exact ok none
    | some a => exact hf a

theorem optionMapM {f : α → OptionT (Except Error) β} {xs : List α}
    (h : ∀ x ∈ xs, Ends (f x).run) : Ends (xs.mapM f).run := by
  induction xs with
  | nil => exact ok (some [])
  | cons x xs ih =>
      obtain ⟨hHead, hRest⟩ := List.forall_mem_cons.1 h
      rw [List.mapM_cons]
      exact optionBind hHead fun b => optionBind (ih hRest) fun bs => ok (some (b :: bs))

end Ends

/-! ## Circuits -/

namespace Circuit

/-- An operation on the open runs does not fail by running out of steps. -/
def Ends (x : Circuit α) : Prop := ∀ runs, TypedCircuit.Ends (x runs).1

namespace Ends

theorem ok (a : α) : Circuit.Ends (pure a : Circuit α) := fun _ => .ok a

theorem lift {x : Except Error α} (hx : TypedCircuit.Ends x) :
    Circuit.Ends (liftM x : Circuit α) := by
  cases x with
  | error e => exact fun _ => hx
  | ok a => exact fun _ => .ok a

theorem bind {x : Circuit α} {f : α → Circuit β} (hx : x.Ends) (hf : ∀ a, (f a).Ends) :
    Circuit.Ends (x >>= f) := by
  intro runs
  have hFirst := hx runs
  rcases h : x runs with ⟨_ | a, between⟩
  · rw [bind_state_error h]
    rw [h] at hFirst
    exact fun name hEq => hFirst name (by cases hEq; rfl)
  · rw [bind_state_ok h]
    exact hf a between

theorem forM {f : α → Circuit Unit} {xs : List α} (h : ∀ x ∈ xs, (f x).Ends) :
    Circuit.Ends (xs.forM f) := by
  induction xs with
  | nil => exact ok ()
  | cons x xs ih =>
      obtain ⟨hHead, hRest⟩ := List.forall_mem_cons.1 h
      exact bind hHead fun _ => ih hRest

end Ends

end Circuit

/-- An assertion that fails at once or may record a gate. -/
private theorem Circuit.ends_asserted {known? : Option Element} {e : Element → Error}
    {violates : Element → Bool} {record : Bool} {gate : Gate}
    (he : ∀ x name, e x ≠ .recursiveType name) :
    Circuit.Ends (do
      match known? with
      | some x => if violates x then throw (e x)
      | none => pure ()
      if record then constrain gate) := by
  have hRecord : Circuit.Ends (if record then liftM (constrain gate) else pure ()) := by
    split
    · exact fun _ => .ok ()
    · exact .ok ()
  cases known? with
  | none => exact hRecord
  | some x =>
      show Circuit.Ends (if _ then _ else _)
      split
      · exact fun _ name h => he x name (Except.error.inj h)
      · exact hRecord

theorem Signal.ends_assertBoolean (s : Signal) : s.assertBoolean.Ends :=
  Circuit.ends_asserted nofun

theorem Signal.ends_assertRange (s : Signal) (bits : Nat) : (s.assertRange bits).Ends :=
  Circuit.ends_asserted nofun

/-! ## Parts -/

/-- Every operation of a part comes to an end. -/
structure Part.Ending (p : Part) : Prop where
  width : Ends (p.width ())
  flatten (v : Value) : Ends (p.flatten v)
  rebuild (fields : List Signal) (aux : List Value) : Ends (p.rebuild fields aux)
  check (v : Value) : (p.check v).Ends
  input (v : Value) : Ends (p.input v)
  encode (v : Value) : Ends (p.encode v)
  decode (json : Json) : Ends (p.decode json)

namespace Part

variable {p : Part} {parts : List Part} {members : List (String × Part)}

theorem ends_expectItems (typeName : String) (count : Nat) (v : Value) :
    Ends (expectItems typeName count v) := by
  unfold expectItems
  split
  · split
    · exact .ok _
    · exact nofun
  · exact nofun

theorem ends_decodeItems (h : ∀ p ∈ parts, p.Ending) (json : Json) :
    Ends (decodeItems parts json) := by
  unfold decodeItems
  split
  · split
    · refine Ends.map ?_ _
      exact Ends.optionMapM fun pair hPair => (h _ (List.of_mem_zip hPair).1).decode pair.2
    · exact .ok none
  · exact .ok none

section Sequences

variable (h : ∀ p ∈ parts, p.Ending)
include h

theorem ends_widths : Ends (widths parts) := Ends.mapM fun p hp => (h p hp).width

theorem ends_flattenAll (items : List Value) : Ends (flattenAll parts items) :=
  (Ends.mapM fun pair hPair => (h _ (List.of_mem_zip hPair).1).flatten pair.2).bind
    fun chunks => .ok chunks.flatten

theorem ends_rebuildAll (shares : List (List Signal × List Value)) :
    Ends (rebuildAll parts shares) :=
  Ends.mapM fun pair hPair => (h _ (List.of_mem_zip hPair).1).rebuild pair.2.1 pair.2.2

theorem ends_checkAll (items : List Value) : (checkAll parts items).Ends :=
  Circuit.Ends.forM fun pair hPair => (h _ (List.of_mem_zip hPair).1).check pair.2

theorem ends_inputAll (items : List Value) : Ends (inputAll parts items) :=
  (Ends.mapM fun pair hPair => (h _ (List.of_mem_zip hPair).1).input pair.2).bind
    fun inputs => .ok (HashInput.concat inputs)

theorem ends_encodeAll (items : List Value) : Ends (encodeAll parts items) :=
  Ends.mapM fun pair hPair => (h _ (List.of_mem_zip hPair).1).encode pair.2

theorem ending_sequence (typeName : String) : (sequence typeName parts).Ending where
  width := (ends_widths h).map Width.sum
  flatten v := (ends_expectItems typeName parts.length v).bind (ends_flattenAll h)
  rebuild fields aux := (ends_widths h).bind fun ws =>
    (ends_rebuildAll h (shares ws fields aux)).bind fun items => .ok (Value.array items)
  check v := (Circuit.Ends.lift (ends_expectItems typeName parts.length v)).bind (ends_checkAll h)
  input v := (ends_expectItems typeName parts.length v).bind (ends_inputAll h)
  encode v := (ends_expectItems typeName parts.length v).bind fun items =>
    (ends_encodeAll h items).bind fun documents => .ok (Json.array documents)
  decode := ends_decodeItems h

end Sequences

theorem ending_replicated (h : p.Ending) (typeName : String) (count : Nat) :
    (replicated typeName p count).Ending := by
  have hItems := ends_expectItems typeName count
  refine ⟨h.width.map _, fun v => (hItems v).bind fun items => ?_,
    fun fields aux => h.width.bind fun w => ?_,
    fun v => (Circuit.Ends.lift (hItems v)).bind fun items => ?_,
    fun v => (hItems v).bind fun items => ?_, fun v => (hItems v).bind fun items => ?_,
    fun json => ?_⟩
  · exact (Ends.mapM fun v _ => h.flatten v).bind fun chunks => .ok chunks.flatten
  · exact (Ends.mapM fun i _ => h.rebuild _ _).bind fun items => .ok (Value.array items)
  · exact Circuit.Ends.forM fun v _ => h.check v
  · exact (Ends.mapM fun v _ => h.input v).bind fun inputs => .ok (HashInput.concat inputs)
  · exact (Ends.mapM fun v _ => h.encode v).bind fun documents => .ok (Json.array documents)
  · rw [replicated_decode]
    exact ends_decodeItems (fun q hq => List.eq_of_mem_replicate hq ▸ h) json

/-! ### Members -/

section Members

variable (h : ∀ m ∈ members, m.2.Ending)
include h

theorem ends_memberWidths : Ends (memberWidths members) := Ends.mapM fun m hm => (h m hm).width

theorem ends_rebuildMembers (fields : List Signal) (aux : List Value) :
    Ends (rebuildMembers members fields aux) := by
  refine (ends_memberWidths h).bind fun ws => ?_
  refine (Ends.mapM fun pair hPair => ?_).bind fun rebuilt => .ok (Entries.ofList rebuilt)
  exact ((h _ (List.of_mem_zip hPair).1).rebuild pair.2.1 pair.2.2).bind fun v => .ok _

theorem ends_decodeMembers (document : Entries Json) : Ends (decodeMembers members document) := by
  refine Ends.optionBind (Ends.optionMapM fun m hm => ?_) fun decoded => .ok _
  refine Ends.optionBind (.ok _) fun json => ?_
  exact Ends.optionBind ((h m hm).decode json) fun v => .ok _

variable {lookup : Lookup} (hLookup : ∀ name, Ends (lookup name))
include hLookup

theorem ends_flattenMembers : Ends (flattenMembers lookup members) :=
  (Ends.mapM fun m hm => (hLookup m.1).bind (h m hm).flatten).bind fun chunks => .ok chunks.flatten

theorem ends_checkMembers : (checkMembers lookup members).Ends :=
  Circuit.Ends.forM fun m hm => (Circuit.Ends.lift (hLookup m.1)).bind (h m hm).check

theorem ends_inputMembers : Ends (inputMembers lookup members) :=
  (Ends.mapM fun m hm => (hLookup m.1).bind (h m hm).input).bind
    fun inputs => .ok (HashInput.concat inputs)

theorem ends_encodeMembers : Ends (encodeMembers lookup members) :=
  (Ends.mapM fun m hm => (hLookup m.1).bind fun v => ((h m hm).encode v).bind
    fun json => .ok (m.1, json)).bind fun documents => .ok (Json.ofMembers documents)

end Members

theorem ends_lookupKey (typeName : String) (v : Value) (name : String) :
    Ends (lookupKey typeName v name) := by
  unfold lookupKey
  split
  · exact nofun
  · split
    · exact .ok _
    · exact nofun

theorem ending_object (h : ∀ m ∈ members, m.2.Ending) (typeName : String) :
    (object typeName members).Ending where
  width := (ends_memberWidths h).map Width.sum
  flatten v := ends_flattenMembers h (ends_lookupKey typeName v)
  rebuild fields aux := (ends_rebuildMembers h fields aux).map _
  check v := ends_checkMembers h (ends_lookupKey typeName v)
  input v := ends_inputMembers h (ends_lookupKey typeName v)
  encode v := ends_encodeMembers h (ends_lookupKey typeName v)
  decode json := by
    simp only [object]
    split
    · exact (ends_decodeMembers h _).map _
    · exact .ok none

theorem ending_constant (typeName : String) (json : Json) : (constant typeName json).Ending := by
  have hExpect : ∀ v, Ends (expectConstant typeName json v) := fun v => by
    unfold expectConstant
    split
    · split
      · exact .ok ()
      · exact nofun
    · exact nofun
  exact {
    width := .ok _
    flatten := fun v => (hExpect v).map _
    rebuild := fun _ _ => .ok _
    check := fun v => Circuit.Ends.lift (hExpect v)
    input := fun v => (hExpect v).map _
    encode := fun v => (hExpect v).map _
    decode := fun _ => .ok _ }

end Part

/-! ## Codecs -/

namespace Codec

variable {c : Codec} {members : List (String × Codec)}

theorem ends_toFields (h : c.uncounted.Ending) (v : Value) : Ends (c.toFields v) := by
  refine (h.flatten v).bind fun fields => h.width.bind fun w => ?_
  split
  · exact .ok _
  · exact nofun

theorem ends_ofFieldsWithAux (h : c.uncounted.Ending) (fields : List Signal) (aux : List Value) :
    Ends (c.ofFieldsWithAux fields aux) := by
  refine h.width.bind fun w => ?_
  split
  · exact h.rebuild fields aux
  · exact nofun

theorem ending_part (h : c.uncounted.Ending) : c.part.Ending where
  width := h.width
  flatten := ends_toFields h
  rebuild := ends_ofFieldsWithAux h
  check := h.check
  input v := by
    show Ends (c.toInputOrFields v)
    unfold toInputOrFields toInput
    split
    · exact h.input v
    · exact (ends_toFields h v).map _
  encode v := by
    show Ends (c.toJson v)
    unfold toJson
    split
    · exact h.encode v
    · exact nofun
  decode json := by
    show Ends (c.fromJson json)
    unfold fromJson
    split
    · exact h.decode json
    · exact nofun

theorem ending_ofPart {p : Part} (h : p.Ending) (capabilities : Capabilities) :
    (ofPart p capabilities).uncounted.Ending where
  width := h.width
  flatten := h.flatten
  rebuild fields aux := by
    refine h.width.bind fun w => ?_
    split
    · exact nofun
    · split
      · exact nofun
      · exact h.rebuild fields aux
  check := h.check
  input := h.input
  encode := h.encode
  decode := h.decode

theorem ends_expectRecord (name : String) (v : Value) : Ends (expectRecord name v) := by
  unfold expectRecord
  split
  · exact nofun
  · exact .ok _
  · split
    · exact .ok _
    · exact nofun

theorem ends_lookupMember (name : String) (record : Entries Value) (field : String) :
    Ends (lookupMember name record field) := by
  unfold lookupMember
  split
  · exact .ok _
  · exact nofun

theorem ends_onMembers {name : String} {nothing : α} {visit : Part.Lookup → Except Error α}
    (h : ∀ lookup, (∀ field, Ends (lookup field)) → Ends (visit lookup)) (v : Value) :
    Ends (onMembers name members nothing visit v) := by
  unfold onMembers
  split
  · exact .ok nothing
  · exact (ends_expectRecord name v).bind fun record => h _ (ends_lookupMember name record)

theorem ending_composite (h : ∀ m ∈ members, m.2.uncounted.Ending) (name : String)
    (json : Bool) : (composite name json members).uncounted.Ending := by
  have hParts : ∀ m ∈ memberParts members, m.2.Ending := fun m hm => by
    obtain ⟨member, hMember, rfl⟩ := List.mem_map.1 hm
    exact ending_part (h member hMember)
  exact {
    width := (Part.ends_memberWidths hParts).map Width.sum
    flatten := ends_onMembers fun _ => Part.ends_flattenMembers hParts
    rebuild := fun fields aux => by
      refine (Part.ends_memberWidths hParts).bind fun ws => ?_
      show Ends (if _ then _ else _)
      split
      · exact nofun
      · split
        · exact nofun
        · exact (Part.ends_rebuildMembers hParts fields aux).map _
    check := fun v => by
      show Circuit.Ends (if _ then _ else _)
      split
      · exact .ok ()
      · exact (Circuit.Ends.lift (ends_expectRecord name v)).bind fun record =>
          Part.ends_checkMembers hParts (ends_lookupMember name record)
    input := ends_onMembers fun _ => Part.ends_inputMembers hParts
    encode := fun v => by
      show Ends (if _ then _ else _)
      split
      · exact ends_onMembers (fun _ => Part.ends_encodeMembers hParts) v
      · exact nofun
    decode := fun document => by
      show Ends (if _ then _ else _)
      split
      · split
        · exact (Part.ends_decodeMembers hParts _).map _
        · exact .ok none
      · exact nofun }

end Codec

/-! ## Types -/

theorem Codec.ends_expectSignal (typeName : String) (v : Value) :
    Ends (expectSignal typeName v) := by
  unfold expectSignal
  split
  · exact .ok _
  · exact nofun

theorem Codec.ends_single (typeName : String) (fields : List Signal) :
    Ends (single typeName fields) := by
  unfold single
  split
  · exact .ok _
  · exact nofun

theorem Signal.ends_value (s : Signal) : Ends s.value := by
  unfold Signal.value
  split
  · exact .ok _
  · exact nofun

namespace Leaf

open Codec

/-- Types of one element, all operations of which begin by looking at the signal of the value. -/
private theorem ends_decimalJson (typeName : String) (v : Value) :
    Ends (expectSignal typeName v >>= decimalJson) :=
  (ends_expectSignal typeName v).bind fun s => s.ends_value.map _

theorem ending (leaf : Leaf) : leaf.codec.uncounted.Ending := by
  have hBit : ∀ v, Ends (expectBit v) := fun v => by
    unfold expectBit
    split
    · exact .ok _
    · exact nofun
  have hOpaque : ∀ v, Ends (expectOpaque v) := fun v => by
    unfold expectOpaque
    split
    · exact .ok ()
    · exact .ok ()
    · exact nofun
  cases leaf with
  | field =>
      exact {
        width := .ok _
        flatten := fun v => (ends_expectSignal "Field" v).map _
        rebuild := fun fields _ => (ends_single "Field" fields).map _
        check := fun _ => .ok ()
        input := fun v => (ends_expectSignal "Field" v).map _
        encode := ends_decimalJson "Field"
        decode := fun _ => .ok _ }
  | boolean =>
      exact {
        width := .ok _
        flatten := fun v => (hBit v).map _
        rebuild := fun fields _ => (ends_single "Bool" fields).map _
        check := fun v => (Circuit.Ends.lift (hBit v)).bind fun b => b.signal.ends_assertBoolean
        input := fun v => (hBit v).map _
        encode := fun v => by
          refine (hBit v).bind fun b => Ends.bind ?_ fun value => .ok _
          refine b.signal.ends_value.bind fun x => ?_
          split
          · exact .ok _
          · split
            · exact .ok _
            · exact nofun
        decode := fun _ => .ok _ }
  | uint32 =>
      exact {
        width := .ok _
        flatten := fun v => (ends_expectSignal "UInt32" v).map _
        rebuild := fun fields _ => (ends_single "UInt32" fields).map _
        check := fun v => (Circuit.Ends.lift (ends_expectSignal "UInt32" v)).bind
          fun s => s.ends_assertRange 32
        input := fun v => (ends_expectSignal "UInt32" v).map _
        encode := ends_decimalJson "UInt32"
        decode := fun _ => .ok _ }
  | opaqueHost =>
      exact {
        width := .ok _
        flatten := fun v => (hOpaque v).map _
        rebuild := fun fields aux => by
          show Ends (rebuildOpaque fields aux)
          unfold rebuildOpaque
          split
          · split
            · exact .ok _
            · exact nofun
          · exact nofun
        check := fun v => Circuit.Ends.lift (hOpaque v)
        input := fun v => (hOpaque v).map _
        encode := fun _ => nofun
        decode := fun _ => nofun }

end Leaf

private theorem forall_left {α β : Type} {P : α → Prop} {xs : List α} {ys : List β}
    (h : List.Forall₂ (fun x _ => P x) xs ys) : ∀ x ∈ xs, P x := by
  induction h with
  | nil => exact List.forall_mem_nil _
  | cons hHead _ ih => exact List.forall_mem_cons.2 ⟨hHead, ih⟩

/-- That all operations come to an end is kept by every way to assemble codecs. -/
theorem Part.congruence_ending : Part.Congruence fun p _ => p.Ending where
  leaf := Leaf.ending
  part _ h := Codec.ending_part h
  withWidth h _ := { h with width := .ok _ }
  ofPart h capabilities := Codec.ending_ofPart h capabilities
  sequence typeName _ _ h := Part.ending_sequence (forall_left h) typeName
  replicated typeName _ _ h count := Part.ending_replicated h typeName count
  object typeName _ _ h := Part.ending_object (forall_left (h.imp fun _ _ hm => hm.2)) typeName
  constant := Part.ending_constant
  empty name := Codec.ending_composite (fun _ h => by cases h) name true
  plain typeName c c' _ h := {
    width := h.width
    flatten := Codec.ends_toFields h
    rebuild := Codec.ends_ofFieldsWithAux h
    check := h.check
    input := fun _ => nofun
    encode := fun _ => nofun
    decode := fun _ => nofun }
  misdeclared typeName claims produces := {
    width := .ok _
    flatten := fun _ => .ok _
    rebuild := fun _ _ => .ok _
    check := fun _ => .ok ()
    input := fun _ => nofun
    encode := fun _ => nofun
    decode := fun _ => nofun }

/-- All operations on a name that leads to no circle come to an end. -/
theorem Registry.Grounded.ending {r : Registry} {name : String} (h : r.Grounded name)
    (json : Bool) : (r.codec (.composite name json)).uncounted.Ending := by
  induction h generalizing json with
  | intro name hAcc ih =>
      rw [codec_composite (Acc.intro name hAcc)]
      refine Codec.ending_composite (fun m hm => ?_) name json
      obtain ⟨member, hMember, rfl⟩ := List.mem_map.1 hm
      exact Part.congruence_ending.descriptorCodec (g := r.names) member.2
        fun other hOther => ih other ⟨member, hMember, hOther⟩

end TypedCircuit
