import Mathlib.Data.List.Induction
import TypedCircuit.Proofs.Entries
import TypedCircuit.Registry

/-!
# The history of a registry

The members of a type are what was offered for it. Members are offered one at a time or by a
builder, which stops at the first name that its type has; what was offered up to there counts,
each name with what was offered first. So the members of a type are said without the registry,
by the calls alone: `offered` lists what was offered for a type, and `Schema.firsts` keeps the
first member of every name.

Calls may fail in between. A refused call leaves the registry as it was, although the entry of
the type is made before its members are looked at: what is refused has a name that is taken, so
the type had its entry.

A handle of the members of a type is taken at one point of the history. Members are appended
and never changed, so it stays a beginning of the members that come later.

## Main results

* `Registry.schema_registerAll` — what a builder adds to its type.
* `Registry.schema_step` — what one call adds to a type.
* `Registry.history` — the members of all types after any calls.
-/

namespace TypedCircuit

/-! ## Lists of members -/

namespace Schema

/-- The first member of every name, in the order of the list. -/
def firsts : Schema → Schema
  | [] => []
  | m :: rest => m :: (firsts rest).filter fun n => n.1 ≠ m.1

/-- The members before the first one of which the name is taken, by one of the given names or by
a member before it. -/
def upToTaken (taken : List String) : Schema → Schema
  | [] => []
  | m :: rest => if m.1 ∈ taken then [] else m :: upToTaken (taken ++ [m.1]) rest

theorem mem_names_firsts {name : String} (members : Schema) :
    name ∈ Entries.names members.firsts ↔ name ∈ Entries.names members := by
  induction members with
  | nil => exact Iff.rfl
  | cons m rest ih =>
      have hFilter : name ∈ Entries.names ((firsts rest).filter fun n => n.1 ≠ m.1) ↔
          name ∈ Entries.names rest ∧ name ≠ m.1 := by
        rw [← ih]
        simp only [Entries.names, List.mem_map, List.mem_filter, decide_eq_true_eq]
        constructor
        · rintro ⟨n, ⟨hn, hNe⟩, rfl⟩
          exact ⟨⟨n, hn, rfl⟩, hNe⟩
        · rintro ⟨⟨n, hn, rfl⟩, hNe⟩
          exact ⟨n, ⟨hn, hNe⟩, rfl⟩
      show name ∈ m.1 :: Entries.names _ ↔ name ∈ m.1 :: Entries.names rest
      rw [List.mem_cons, List.mem_cons, hFilter]
      tauto

/-- A member counts only if its name is new. -/
theorem firsts_append (members : Schema) (m : String × Descriptor) :
    (members ++ [m]).firsts =
      if m.1 ∈ Entries.names members then members.firsts else members.firsts ++ [m] := by
  induction members with
  | nil => rfl
  | cons n rest ih =>
      have hMem : m.1 ∈ Entries.names (n :: rest) ↔ m.1 = n.1 ∨ m.1 ∈ Entries.names rest :=
        List.mem_cons
      show n :: (firsts (rest ++ [m])).filter _ = _
      rw [ih]
      by_cases hRest : m.1 ∈ Entries.names rest
      · rw [if_pos hRest, if_pos (hMem.2 (.inr hRest))]
        rfl
      · rw [if_neg hRest, List.filter_append]
        by_cases hHead : m.1 = n.1
        · rw [if_pos (hMem.2 (.inl hHead))]
          simp [hHead, firsts]
        · rw [if_neg fun hBoth => (hMem.1 hBoth).elim hHead hRest]
          simp [hHead, firsts]

/-- Only which names are taken matters. -/
theorem upToTaken_congr {taken taken' : List String} (h : ∀ name, name ∈ taken ↔ name ∈ taken')
    (members : Schema) : members.upToTaken taken = members.upToTaken taken' := by
  induction members generalizing taken taken' with
  | nil => rfl
  | cons m rest ih =>
      have hRest := @ih (taken ++ [m.1]) (taken' ++ [m.1]) fun name => by
        rw [List.mem_append, List.mem_append, h]
      rw [upToTaken, upToTaken, hRest]
      by_cases hTaken : m.1 ∈ taken
      · rw [if_pos hTaken, if_pos ((h m.1).1 hTaken)]
      · rw [if_neg hTaken, if_neg fun hNot => hTaken ((h m.1).2 hNot)]

/-- Members up to the first taken name are new, so all of them count. -/
theorem firsts_append_upToTaken (before members : Schema) :
    (before ++ members.upToTaken (Entries.names before)).firsts =
      before.firsts ++ members.upToTaken (Entries.names before) := by
  induction members generalizing before with
  | nil => rw [upToTaken, List.append_nil, List.append_nil]
  | cons m rest ih =>
      rw [upToTaken]
      by_cases hTaken : m.1 ∈ Entries.names before
      · rw [if_pos hTaken, List.append_nil, List.append_nil]
      · have hNames : Entries.names before ++ [m.1] = Entries.names (before ++ [m]) := by
          rw [Entries.names, Entries.names, List.map_append]
          rfl
        rw [if_neg hTaken, hNames, List.append_cons before m, ih, firsts_append, if_neg hTaken,
          ← List.append_cons]

end Schema

namespace Registry

/-- The members that have an encoding. -/
def encoded (members : List (String × Option Descriptor)) : Schema :=
  members.filterMap fun (field, member?) => member?.map (field, ·)

/-! ## One member -/

theorem mem_names_iff {schema : Schema} {field : String} :
    field ∈ Entries.names schema ↔ (schema.member? field).isSome := by
  rw [← not_iff_not, ← Entries.find?_eq_none_iff, Bool.not_eq_true, Option.isSome_eq_false_iff,
    Option.isNone_iff_eq_none]
  rfl

/-- A type with a member has an entry. -/
theorem contains_of_member? {r : Registry} {name field : String}
    (h : (Schema.member? (r.schema name) field).isSome) : r.contains name = true := by
  unfold contains
  unfold schema at h
  cases hEntry : r.schemas.find? name with
  | none =>
      rw [hEntry] at h
      cases h
  | some schema => rfl

theorem contains_opened_ne (r : Registry) {name other : String} (hNe : name ≠ other) :
    (r.opened name).contains other = r.contains other := by
  unfold opened
  split
  · rfl
  · unfold contains
    rw [Entries.find?_insert_ne _ _ hNe]

/-- A member is refused if it has an encoding and its name is taken, and then nothing has
changed. Every other member is accepted, and appended if it has an encoding. -/
theorem register_cases (r : Registry) (name field : String) (member? : Option Descriptor) :
    (∃ d, member? = some d ∧ field ∈ Entries.names (r.schema name) ∧
      r.register name field member? = (r, .error (.duplicateMember name field))) ∨
    (¬ (member?.isSome ∧ field ∈ Entries.names (r.schema name)) ∧
      ∃ s, r.register name field member? = (s, .ok ()) ∧
        s.schema name = r.schema name ++ encoded [(field, member?)]) := by
  cases member? with
  | none => exact .inr ⟨nofun, r, rfl, (List.append_nil _).symm⟩
  | some d =>
      by_cases hTaken : field ∈ Entries.names (r.schema name)
      · have hMember := mem_names_iff.1 hTaken
        refine .inl ⟨d, rfl, hTaken, ?_⟩
        rw [register_taken hMember, opened, if_pos (contains_of_member? hMember)]
      · have hMember : Schema.member? (r.schema name) field = none :=
          Entries.find?_eq_none_iff.2 hTaken
        refine .inr ⟨fun hBoth => hTaken hBoth.2, _, register_fresh hMember d, ?_⟩
        exact (congrArg (fun out => out.1.schema name) (register_fresh hMember d)).symm.trans
          (schema_register_self hMember d)

/-- The types that have an entry are those that have a member. -/
def Filled (r : Registry) : Prop := ∀ name, r.contains name = true ↔ r.schema name ≠ []

theorem filled_empty : empty.Filled := fun _ => ⟨nofun, fun h => absurd rfl h⟩

theorem Filled.register {r : Registry} (h : r.Filled) (name field : String)
    (member? : Option Descriptor) : (r.register name field member?).1.Filled := by
  intro other
  rcases r.register_cases name field member? with ⟨d, -, -, hRefused⟩ | ⟨hFree, -⟩
  · rw [hRefused]
    exact h other
  · cases member? with
    | none => exact h other
    | some d =>
        have hMember : Schema.member? (r.schema name) field = none :=
          Entries.find?_eq_none_iff.2 fun hTaken => hFree ⟨rfl, hTaken⟩
        by_cases hOther : name = other
        · subst hOther
          rw [schema_register_self hMember, register_fresh hMember]
          refine ⟨fun _ => List.append_ne_nil_of_right_ne_nil _ nofun, fun _ => ?_⟩
          unfold contains
          rw [Entries.find?_insert_self]
          rfl
        · rw [schema_register_ne r field _ hOther, ← h other, ← r.contains_opened_ne hOther,
            register_fresh hMember]
          unfold contains
          rw [Entries.find?_insert_ne _ _ hOther]

/-! ## A builder -/

/-- What every member that is offered for a type keeps, a builder of the type keeps. -/
theorem registerAll_keeps {P : Registry → Prop} {name : String}
    (hStep : ∀ r field member?, P r → P (Registry.register r name field member?).1) {r : Registry}
    (h : P r) (members : List (String × Option Descriptor)) : P (r.registerAll name members).1 := by
  induction members generalizing r with
  | nil => exact h
  | cons m rest ih =>
      obtain ⟨field, member?⟩ := m
      have hNext := hStep r field member? h
      rw [registerAll]
      split
      · next s hOffer =>
          rw [hOffer] at hNext
          exact ih hNext
      · next s e hOffer =>
          rw [hOffer] at hNext
          exact hNext

/-- A builder adds its members with an encoding, up to the first of which the name is taken. -/
theorem schema_registerAll (r : Registry) (name : String)
    (members : List (String × Option Descriptor)) :
    (r.registerAll name members).1.schema name =
      r.schema name ++ (encoded members).upToTaken (Entries.names (r.schema name)) := by
  induction members generalizing r with
  | nil => exact (List.append_nil _).symm
  | cons m rest ih =>
      obtain ⟨field, member?⟩ := m
      rcases r.register_cases name field member? with
        ⟨d, rfl, hTaken, hRefused⟩ | ⟨hFree, s, hOffer, hSchema⟩
      · rw [registerAll, hRefused]
        show r.schema name = r.schema name ++
          Schema.upToTaken _ ((field, d) :: encoded rest)
        rw [Schema.upToTaken, if_pos hTaken, List.append_nil]
      · rw [registerAll, hOffer]
        show (s.registerAll name rest).1.schema name = _
        rw [ih, hSchema]
        cases member? with
        | none =>
            have hNone : encoded [(field, none)] = [] := rfl
            rw [hNone, List.append_nil]
            rfl
        | some d =>
            have hNew : ¬ field ∈ Entries.names (r.schema name) :=
              fun hTaken => hFree ⟨rfl, hTaken⟩
            have hNames : Entries.names (r.schema name ++ [(field, d)]) =
                Entries.names (r.schema name) ++ [field] := List.map_append
            show r.schema name ++ [(field, d)] ++ _ =
              r.schema name ++ Schema.upToTaken _ ((field, d) :: encoded rest)
            rw [Schema.upToTaken, if_neg hNew, ← hNames, ← List.append_cons]
            rfl

/-! ## Histories -/

/-- A call on a registry. -/
inductive Call where
  /-- Offers one member of a type. -/
  | register (name field : String) (member? : Option Descriptor)
  /-- Offers the members of a builder of a type. -/
  | build (name : String) (members : List (String × Option Descriptor))
  /-- Takes a handle of the members of a type. -/
  | lookUp (name : String)

/-- The type for which a call offers members. -/
def Call.target? : Call → Option String
  | .register name _ _ | .build name _ => some name
  | .lookUp _ => none

/-- The members that a call offers for a type of which some names are taken. -/
def Call.offers (name : String) (taken : List String) : Call → Schema
  | .register type field member? => if type = name then encoded [(field, member?)] else []
  | .build type members => if type = name then (encoded members).upToTaken taken else []
  | .lookUp _ => []

/-- The members that calls offer for a type, in their order. -/
def offered (name : String) (calls : List Call) : Schema :=
  calls.foldl (fun before call => before ++ call.offers name (Entries.names before)) []

/-- A registry, and the handles that were taken of its types. -/
structure Holding where
  registry : Registry
  handles : List (String × Schema)

/-- What a call leaves behind, whether it fails or not. -/
def Holding.step (held : Holding) : Call → Holding
  | .register name field member? =>
    { held with registry := (held.registry.register name field member?).1 }
  | .build name members => { held with registry := (held.registry.registerAll name members).1 }
  | .lookUp name => { held with handles := held.handles ++ [(name, held.registry.schema name)] }

/-- What calls on a new registry leave behind. -/
def after (calls : List Call) : Holding := calls.foldl Holding.step ⟨empty, []⟩

variable {held : Holding}

theorem after_append (calls later : List Call) :
    after (calls ++ later) = later.foldl Holding.step (after calls) := List.foldl_append

/-- A call leaves the types alone for which it offers nothing. -/
theorem schema_step_ne {call : Call} {name : String} (h : call.target? ≠ some name) :
    (held.step call).registry.schema name = held.registry.schema name := by
  cases call with
  | register type field member? =>
      exact schema_register_ne _ field member? fun hSame => h (congrArg some hSame)
  | build type members =>
      refine registerAll_keeps (P := fun s => s.schema name = held.registry.schema name)
        (fun s field member? hs => ?_) rfl members
      exact (schema_register_ne s field member? fun hSame => h (congrArg some hSame)).trans hs
  | lookUp type => rfl

/-- If the members of a type are the first ones that were offered, they still are after another
call. -/
theorem schema_step {name : String} {before : Schema}
    (h : held.registry.schema name = before.firsts) (call : Call) :
    (held.step call).registry.schema name =
      (before ++ call.offers name (Entries.names before)).firsts := by
  by_cases hTarget : call.target? = some name
  · cases call with
    | register type field member? =>
        cases hTarget
        show (held.registry.register name field member?).1.schema name = _
        have hOffers : (Call.register name field member?).offers name (Entries.names before) =
            encoded [(field, member?)] := if_pos rfl
        rw [hOffers]
        rcases held.registry.register_cases name field member? with
          ⟨d, rfl, hTaken, hRefused⟩ | ⟨hFree, s, hOffer, hSchema⟩
        · rw [hRefused]
          rw [h, Schema.mem_names_firsts] at hTaken
          show held.registry.schema name = Schema.firsts (before ++ [(field, d)])
          rw [Schema.firsts_append, if_pos hTaken, h]
        · rw [hOffer]
          show s.schema name = _
          rw [hSchema, h]
          cases member? with
          | none =>
              have hNone : encoded [(field, none)] = [] := rfl
              rw [hNone, List.append_nil, List.append_nil]
          | some d =>
              rw [h, Schema.mem_names_firsts] at hFree
              show _ = Schema.firsts (before ++ [(field, d)])
              rw [Schema.firsts_append, if_neg fun hTaken => hFree ⟨rfl, hTaken⟩]
              rfl
    | build type members =>
        cases hTarget
        have hOffers : (Call.build name members).offers name (Entries.names before) =
            (encoded members).upToTaken (Entries.names before) := if_pos rfl
        rw [hOffers, Schema.firsts_append_upToTaken]
        show (held.registry.registerAll name members).1.schema name = _
        rw [schema_registerAll, h, Schema.upToTaken_congr fun _ => Schema.mem_names_firsts before]
    | lookUp type => cases hTarget
  · have hOffers : call.offers name (Entries.names before) = [] := by
      cases call with
      | register type | build type => exact if_neg fun hSame => hTarget (congrArg some hSame)
      | lookUp type => rfl
    rw [schema_step_ne hTarget, hOffers, List.append_nil, h]

theorem filled_step (h : held.registry.Filled) (call : Call) :
    (held.step call).registry.Filled := by
  cases call with
  | register name field member? => exact h.register name field member?
  | build name members =>
      exact registerAll_keeps (P := Filled) (fun _ field member? hs =>
        hs.register name field member?) h members
  | lookUp name => exact h

/-- A call keeps the members that a type has and the handles that were taken. -/
theorem prefix_step (held : Holding) (call : Call) :
    (∀ name, held.registry.schema name <+: (held.step call).registry.schema name) ∧
      held.handles <+: (held.step call).handles := by
  refine ⟨fun name => ?_, ?_⟩
  · by_cases hTarget : call.target? = some name
    · cases call with
      | register type field member? =>
          cases hTarget
          show _ <+: (held.registry.register name field member?).1.schema name
          rcases held.registry.register_cases name field member? with
            ⟨d, -, -, hRefused⟩ | ⟨-, s, hOffer, hSchema⟩
          · have hSame := congrArg (fun outcome => outcome.1.schema name) hRefused
            exact ⟨[], (List.append_nil _).trans hSame.symm⟩
          · rw [hOffer]
            exact ⟨_, hSchema.symm⟩
      | build type members =>
          cases hTarget
          exact ⟨_, (schema_registerAll held.registry name members).symm⟩
      | lookUp type => cases hTarget
    · exact ⟨[], (List.append_nil _).trans (schema_step_ne hTarget).symm⟩
  · cases call with
    | register | build => exact List.prefix_refl _
    | lookUp name => exact List.prefix_append _ _

theorem prefix_steps (held : Holding) (later : List Call) :
    (∀ name, held.registry.schema name <+: (later.foldl Holding.step held).registry.schema name) ∧
      held.handles <+: (later.foldl Holding.step held).handles := by
  induction later generalizing held with
  | nil => exact ⟨fun _ => List.prefix_refl _, List.prefix_refl _⟩
  | cons call later ih =>
      obtain ⟨hSchema, hHandles⟩ := prefix_step held call
      obtain ⟨hSchemas, hAll⟩ := ih (held.step call)
      exact ⟨fun name => (hSchema name).trans (hSchemas name), hHandles.trans hAll⟩

/-- The members of a type are what was offered for it, each name with what was offered first. -/
theorem schema_after (calls : List Call) (name : String) :
    (after calls).registry.schema name = (offered name calls).firsts := by
  induction calls using List.reverseRecOn with
  | nil => rfl
  | append_singleton calls call ih =>
      have hOffered : offered name (calls ++ [call]) =
          offered name calls ++ call.offers name (Entries.names (offered name calls)) :=
        List.foldl_append
      rw [after_append, hOffered]
      exact schema_step ih call

theorem filled_after (calls : List Call) : (after calls).registry.Filled := by
  induction calls using List.reverseRecOn with
  | nil => exact filled_empty
  | append_singleton calls call ih =>
      rw [after_append]
      exact filled_step ih call

/--
After any calls on a new registry, failing ones among them, a type has the members that were
offered for it, each name with what was offered first. A member is refused exactly if it has an
encoding and its name is taken; then the whole registry is as it was, and it is after a member
without an encoding too. A type has an entry exactly if it has a member. A call changes the type
it is for and no other, and a handle keeps its members, with which those of its type begin.
-/
theorem history (calls : List Call) :
    (∀ name, (after calls).registry.schema name = (offered name calls).firsts) ∧
    (∀ name field member?,
      (((after calls).registry.register name field member?).2 =
          .error (.duplicateMember name field) ↔
        member?.isSome ∧ field ∈ Entries.names ((after calls).registry.schema name)) ∧
      (((after calls).registry.register name field member?).2 ≠ .ok () →
        (after calls).registry.register name field member? =
          ((after calls).registry, .error (.duplicateMember name field)))) ∧
    (∀ name field,
      (after calls).registry.register name field none = ((after calls).registry, .ok ())) ∧
    (∀ name, (after calls).registry.contains name = true ↔
      (after calls).registry.schema name ≠ []) ∧
    (∀ call name, call.target? ≠ some name →
      (after (calls ++ [call])).registry.schema name = (after calls).registry.schema name) ∧
    ∀ name later,
      (after calls).handles ++ [(name, (after calls).registry.schema name)] <+:
        (after (calls ++ .lookUp name :: later)).handles ∧
      (after calls).registry.schema name <+:
        (after (calls ++ .lookUp name :: later)).registry.schema name := by
  refine ⟨schema_after calls, fun name field member? => ?_, fun _ _ => rfl, filled_after calls,
    fun call name hTarget => ?_, fun name later => ?_⟩
  · rcases (after calls).registry.register_cases name field member? with
      ⟨d, rfl, hTaken, hRefused⟩ | ⟨hFree, s, hOffer, -⟩
    · rw [hRefused]
      exact ⟨⟨fun _ => ⟨rfl, hTaken⟩, fun _ => rfl⟩, fun _ => rfl⟩
    · rw [hOffer]
      exact ⟨⟨nofun, fun hBoth => absurd hBoth hFree⟩, fun hFails => absurd rfl hFails⟩
  · rw [after_append]
    exact schema_step_ne hTarget
  · rw [after_append]
    obtain ⟨hSchemas, hHandles⟩ := prefix_steps ((after calls).step (.lookUp name)) later
    exact ⟨hHandles, hSchemas name⟩

/-- The second builder stops at a name that is taken, and its last member is never offered. -/
example : ((after [.build "T" [("b", some .field), ("hook", none)],
    .build "T" [("a", some .boolean), ("b", some .uint32), ("c", some .field)]]).registry.schema
      "T").map Prod.fst = ["b", "a"] := by decide

end Registry

end TypedCircuit
