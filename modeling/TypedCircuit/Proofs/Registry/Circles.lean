import Mathlib.Data.List.Infix
import TypedCircuit.Proofs.Codec.Endings
import TypedCircuit.Proofs.Registration
import TypedCircuit.Proofs.Registry.Widths

/-!
# Circles of types

A type may be given a member that mentions the type, or a type that leads back to it. Nothing
forbids this, since a mention is a name, and what the name stands for is looked up later.

Here it is said exactly when it happens. A call adds members to one type, so the mentions that
it adds all come from that type, and a circle that was not there before goes through it. It is
closed by a member that mentions the type, or a type from which the type was reached before the
call. A registry is without circles exactly if no call closed one.

Where no circle is reached, following mentions ends, and with it every operation.

## Main results

* `Registry.acyclic_step` — a call keeps a registry without circles exactly if it closes none.
* `Registry.grounded_iff` — following mentions ends exactly if no circle is reached.
* `Registry.circles` — a registry has a circle exactly if some call closed one, and operations on
  types come to an end from which no circle is reached.
-/

namespace TypedCircuit

open Relation (ReflTransGen TransGen)

/-! ## Adding steps to a relation -/

section

variable {α : Type} {old added new : α → α → Prop}

/-- If all added steps come from one place, what leads to this place in the end has led to it
before. -/
private theorem reached_before (hNew : ∀ {a b}, new a b → old a b ∨ added a b)
    (hOne : ∀ {a b c d}, added a b → added c d → a = c) {source target a : α}
    (hAdded : added source target) (h : ReflTransGen new a source) :
    ReflTransGen old a source := by
  induction h using ReflTransGen.head_induction_on with
  | refl => exact .refl
  | head hStep _ ih =>
      rcases hNew hStep with hOld | hFresh
      · exact ih.head hOld
      · rw [hOne hFresh hAdded]

/-- A way in the end has been there before, or it takes an added step. -/
private theorem way_before (hNew : ∀ {a b}, new a b → old a b ∨ added a b) {a b : α}
    (h : TransGen new a b) :
    TransGen old a b ∨
      ∃ source target, added source target ∧ ReflTransGen new a source ∧
        ReflTransGen new target b := by
  induction h with
  | single hStep =>
      rcases hNew hStep with hOld | hFresh
      · exact .inl (.single hOld)
      · exact .inr ⟨_, _, hFresh, .refl, .refl⟩
  | tail hWay hStep ih =>
      rcases ih with hOldWay | ⟨source, target, hAdded, hTo, hFrom⟩
      · rcases hNew hStep with hOld | hFresh
        · exact .inl (hOldWay.tail hOld)
        · exact .inr ⟨_, _, hFresh, hWay.to_reflTransGen, .refl⟩
      · exact .inr ⟨source, target, hAdded, hTo, hFrom.tail hStep⟩

/-- If all added steps come from one place, a circle in the end has been there before, or an
added step leads to where the place was reached before. -/
private theorem circle_before (hNew : ∀ {a b}, new a b → old a b ∨ added a b)
    (hOne : ∀ {a b c d}, added a b → added c d → a = c) {a : α} (h : TransGen new a a) :
    TransGen old a a ∨ ∃ source target, added source target ∧ ReflTransGen old target source := by
  rcases way_before hNew h with hOld | ⟨source, target, hAdded, hTo, hFrom⟩
  · exact .inl hOld
  · exact .inr ⟨source, target, hAdded, reached_before hNew hOne hAdded (hFrom.trans hTo)⟩

end

namespace Registry

/-- A name leads to another one by mentions, or is the same. -/
abbrev Reaches (r : Registry) : String → String → Prop := ReflTransGen r.Mentions

/-- A name leads back to itself by mentions. -/
def Circular (r : Registry) (name : String) : Prop := TransGen r.Mentions name name

/-- No name leads back to itself. -/
def Acyclic (r : Registry) : Prop := ∀ name, ¬ r.Circular name

/-! ## Calls -/

namespace Holding

variable {held : Holding} {call : Call}

/-- The members that a call adds to a type. -/
def added (held : Holding) (call : Call) (name : String) : Schema :=
  ((held.step call).registry.schema name).drop (held.registry.schema name).length

/-- A call gives a type a member that mentions another type. -/
def Adds (held : Holding) (call : Call) (name other : String) : Prop :=
  ∃ m ∈ held.added call name, other ∈ m.2.mentions

/-- A call gives a type a member that mentions the type, or a type that leads to it already. -/
def Closes (held : Holding) (call : Call) : Prop :=
  ∃ name other, held.Adds call name other ∧ held.registry.Reaches other name

theorem schema_step_added (held : Holding) (call : Call) (name : String) :
    (held.step call).registry.schema name =
      held.registry.schema name ++ held.added call name :=
  List.prefix_append_drop ((prefix_step held call).1 name)

/-- A call adds members to the type that it is for. -/
theorem Adds.target_eq {name other : String} (h : held.Adds call name other) :
    call.target? = some name := by
  by_contra hTarget
  obtain ⟨m, hm, -⟩ := h
  rw [added, schema_step_ne hTarget, List.drop_length] at hm
  cases hm

theorem mentions_step {name other : String} :
    (held.step call).registry.Mentions name other ↔
      held.registry.Mentions name other ∨ held.Adds call name other := by
  simp only [Mentions, Adds, schema_step_added, List.mem_append, or_and_right, exists_or]

end Holding

/-- A call keeps a registry without circles exactly if it closes none. -/
theorem acyclic_step (held : Holding) (call : Call) :
    (held.step call).registry.Acyclic ↔ held.registry.Acyclic ∧ ¬ held.Closes call := by
  have hOld : held.registry.Mentions ≤ (held.step call).registry.Mentions :=
    fun _ _ h => Holding.mentions_step.2 (.inl h)
  constructor
  · refine fun h => ⟨fun name hCircle => h name (TransGen.mono hOld _ _ hCircle), ?_⟩
    rintro ⟨name, other, hAdds, hReaches⟩
    have hBack : (held.step call).registry.Reaches other name :=
      ReflTransGen.mono hOld _ _ hReaches
    exact h name (TransGen.head' (Holding.mentions_step.2 (.inr hAdds)) hBack)
  · rintro ⟨h, hCloses⟩ name hCircle
    rcases circle_before Holding.mentions_step.1
      (fun hFirst hSecond => Option.some.inj (hFirst.target_eq.symm.trans hSecond.target_eq))
      hCircle with hBefore | hClosed
    · exact h name hBefore
    · exact hCloses hClosed

theorem acyclic_empty : empty.Acyclic := by
  intro name hCircle
  obtain ⟨_, ⟨_, hm, _⟩, _⟩ := TransGen.head'_iff.1 hCircle
  cases hm

/-- A registry is without circles exactly if no call closed one when it was made. -/
theorem acyclic_after (calls : List Call) :
    (after calls).registry.Acyclic ↔
      ∀ before call, before ++ [call] <+: calls → ¬ (after before).Closes call := by
  induction calls using List.reverseRecOn with
  | nil => exact ⟨fun _ before call h => by simp at h, fun _ => acyclic_empty⟩
  | append_singleton calls last ih =>
      rw [after_append, List.foldl_cons, List.foldl_nil, acyclic_step, ih]
      constructor
      · rintro ⟨hEarlier, hLast⟩ before call hPrefix
        rcases List.prefix_concat_iff.1 hPrefix with hAll | hPrefix
        · obtain ⟨rfl, hCall⟩ := List.append_inj' hAll rfl
          cases hCall
          exact hLast
        · exact hEarlier before call hPrefix
      · refine fun h => ⟨fun before call hPrefix => ?_, h calls last (List.prefix_refl _)⟩
        exact h before call (hPrefix.trans (List.prefix_append _ _))

/-! ## Ways that end -/

variable {r : Registry} {name : String}

theorem Mentions.registered {other : String} (h : r.Mentions name other) :
    name ∈ r.schemas.names := by
  obtain ⟨m, hm, -⟩ := h
  exact mem_names_of_mem_schema hm

/-- Following mentions from a name ends exactly if no circle is reached from it. -/
theorem grounded_iff :
    r.Grounded name ↔ ∀ other, r.Reaches name other → ¬ r.Circular other :=
  acc_iff_no_circle fun h => h.registered

/--
After any calls, no type leads back to itself exactly if no call, when it was made, gave a type a
member that mentions the type or a type that led to it already. A type from which no circle is
reached has a width, and flattening, rebuilding and checking come to an end on it for every
argument.
-/
theorem circles (calls : List Call) :
    ((after calls).registry.Acyclic ↔
      ∀ before call, before ++ [call] <+: calls → ¬ (after before).Closes call) ∧
    ∀ name, (∀ other, (after calls).registry.Reaches name other →
        ¬ (after calls).registry.Circular other) →
      (after calls).registry.Sized name ∧
      ∀ json, let c := (after calls).registry.codec (.composite name json)
        (∀ v, Ends (c.toFields v)) ∧ (∀ fields aux, Ends (c.ofFieldsWithAux fields aux)) ∧
          ∀ v, (c.check v).Ends := by
  refine ⟨acyclic_after calls, fun name h => ?_⟩
  have hGrounded := grounded_iff.2 h
  refine ⟨hGrounded.sized, fun json => ?_⟩
  have hEnding := Codec.ending_part (hGrounded.ending json)
  exact ⟨hEnding.flatten, hEnding.rebuild, hEnding.check⟩

/-! ## Segments -/

/-- Points have a coordinate, and segments have a point. -/
private def segments : List Call :=
  [.register "Point" "x" (some .field),
    .register "Segment" "from" (some (.composite "Point" true))]

/-- Points and segments close no circle, and operations on segments come to an end. -/
theorem circles_segments :
    (∀ before call, before ++ [call] <+: segments → ¬ (after before).Closes call) ∧
      (after segments).registry.Sized "Segment" ∧
      ∀ v, Ends (((after segments).registry.codec (.composite "Segment" true)).toFields v) := by
  have hPoint : (after segments).registry.Grounded "Point" := by
    refine Grounded.of_members fun m hm other hOther => ?_
    rcases hm with _ | ⟨_, hm⟩
    · cases hOther
    · cases hm
  have hSegment : (after segments).registry.Grounded "Segment" := by
    refine Grounded.of_members fun m hm other hOther => ?_
    rcases hm with _ | ⟨_, hm⟩
    · rw [List.mem_singleton.1 hOther]
      exact hPoint
    · cases hm
  have hAcyclic : (after segments).registry.Acyclic := fun name hCircle => by
    obtain ⟨_, hMentions, -⟩ := TransGen.head'_iff.1 hCircle
    have hName : name ∈ ["Point", "Segment"] := hMentions.registered
    rcases List.mem_pair.1 hName with rfl | rfl
    · exact hPoint.not_reached hCircle
    · exact hSegment.not_reached hCircle
  obtain ⟨hSized, hEnds⟩ := (circles segments).2 "Segment" (grounded_iff.1 hSegment)
  exact ⟨(circles segments).1.1 hAcyclic, hSized, (hEnds true).1⟩

/-! ## Lists -/

/-- Lists have a head. -/
private def heads : List Call := [.register "List" "head" (some .field)]

/-- A list in a shape, which keeps the width of a head. -/
private def tail : Descriptor :=
  .structural (.leaf ((after heads).registry.composite "List") ⟨1, 0⟩)

/-- Lists have a head and a tail, which is a list. -/
private def lists : List Call := heads ++ [.register "List" "tail" (some tail)]

/-- A type whose only member is of the type. -/
private def loops : List Call := [.register "Loop" "next" (some (empty.composite "Loop"))]

/-- Lists are accepted and lead back to themselves, by a member that is built when it is registered.
A type that has itself as a part outside of shapes is accepted and has no width. -/
theorem circular_lists :
    ((after heads).registry.leafShape ((after heads).registry.composite "List")).map
        Descriptor.structural = .ok tail ∧
      ((after heads).registry.register "List" "tail" (some tail)).2 = .ok () ∧
      ¬ (after lists).registry.Acyclic ∧
      (empty.register "Loop" "next" (some (empty.composite "Loop"))).2 = .ok () ∧
      ¬ (after loops).registry.Acyclic ∧
      (after loops).registry.widthOf "Loop" = .error (.recursiveType "Loop") := by
  have hList : (after lists).registry.Mentions "List" "List" :=
    ⟨("tail", tail), .tail _ (.head _), .head _⟩
  have hLoop : (after loops).registry.Mentions "Loop" "Loop" :=
    ⟨("next", empty.composite "Loop"), .head _, .head _⟩
  exact ⟨rfl, rfl, fun h => h "List" (.single hList), rfl, fun h => h "Loop" (.single hLoop), rfl⟩

end Registry

end TypedCircuit
