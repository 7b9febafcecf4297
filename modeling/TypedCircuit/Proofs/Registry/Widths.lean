import TypedCircuit.Proofs.Documents.Current
import TypedCircuit.Proofs.Registry.Ways

/-!
# Types that have a width

The width of a name is found step by step, out of the widths of the names that are mentioned by its
members outside of shapes. The leaves of a shape keep the width they had, so what is mentioned there
is not asked.

The steps are limited by the number of registered types. Here it is shown that the limit takes
nothing away: a width that is found within any number of steps is found within the limit. So a name
has a width exactly if its members have one, and the widths are missing where they have to be, at
names from which a circle of mentions outside of shapes is reached.

## Main results

* `Registry.widthOf_eq_ok` — a name has the total width of its members, whenever one of them exists.
* `Registry.sized_iff` — a name has a width exactly if no circle of mentions outside of shapes is
  reached from it.
-/

namespace TypedCircuit

open Relation (ReflTransGen TransGen)

/-! ## Mentions outside of shapes -/

mutual

/-- The names that a type mentions outside of shapes. -/
def Descriptor.outerMentions : Descriptor → List String
  | .leaf _ => []
  | .array element _ => element.outerMentions
  | .tuple elements => Descriptor.outerMentionsOfAll elements
  | .structural _ => []
  | .composite name _ => [name]
  | .unregistered _ => []
  | .plain inner => inner.outerMentions
  | .misdeclared _ _ => []

/-- The names that types mention outside of shapes. -/
def Descriptor.outerMentionsOfAll : List Descriptor → List String
  | [] => []
  | d :: rest => d.outerMentions ++ Descriptor.outerMentionsOfAll rest

end

theorem Descriptor.mem_outerMentionsOfAll {name : String} {ds : List Descriptor} :
    name ∈ Descriptor.outerMentionsOfAll ds ↔ ∃ d ∈ ds, name ∈ d.outerMentions := by
  induction ds with
  | nil => simp [Descriptor.outerMentionsOfAll]
  | cons d rest ih => simp [Descriptor.outerMentionsOfAll, ih]

mutual

theorem Descriptor.outerMentions_subset :
    ∀ d : Descriptor, d.outerMentions ⊆ d.mentions
  | .leaf _ => List.Subset.refl _
  | .array element _ => Descriptor.outerMentions_subset element
  | .tuple elements => Descriptor.outerMentionsOfAll_subset elements
  | .structural _ => List.nil_subset _
  | .composite _ _ => List.Subset.refl _
  | .unregistered _ => List.Subset.refl _
  | .plain inner => Descriptor.outerMentions_subset inner
  | .misdeclared _ _ => List.Subset.refl _

theorem Descriptor.outerMentionsOfAll_subset :
    ∀ ds : List Descriptor, Descriptor.outerMentionsOfAll ds ⊆ Descriptor.mentionsOfAll ds
  | [] => List.Subset.refl _
  | d :: rest => List.append_subset.2
      ⟨List.subset_append_of_subset_left _ (Descriptor.outerMentions_subset d),
        List.subset_append_of_subset_right _ (Descriptor.outerMentionsOfAll_subset rest)⟩

end

/-! ## Widths of types -/

mutual

/-- A type has a width exactly if the names have one that it mentions outside of shapes. -/
theorem Descriptor.exists_width_iff {f : String → Except Error Width} :
    ∀ d : Descriptor, (∃ width, d.width f = .ok width) ↔
      ∀ name ∈ d.outerMentions, ∃ width, f name = .ok width
  | .leaf type => ⟨fun _ => nofun, fun _ => ⟨type.width, rfl⟩⟩
  | .array element length => by
      rw [Descriptor.outerMentions, ← Descriptor.exists_width_iff element, Descriptor.width]
      constructor
      · rintro ⟨_, hWidth⟩
        obtain ⟨width, hElement, -⟩ := map_eq_ok.1 hWidth
        exact ⟨width, hElement⟩
      · rintro ⟨width, hElement⟩
        exact ⟨_, map_eq_ok.2 ⟨width, hElement, rfl⟩⟩
  | .tuple elements => Descriptor.exists_totalWidth_iff elements Width.zero
  | .structural root => ⟨fun _ => nofun, fun _ => ⟨root.width, rfl⟩⟩
  | .composite name _ => by
      rw [Descriptor.outerMentions, Descriptor.width, List.forall_mem_singleton]
  | .unregistered _ => ⟨fun _ => nofun, fun _ => ⟨Width.zero, rfl⟩⟩
  | .plain inner => Descriptor.exists_width_iff inner
  | .misdeclared claims _ => ⟨fun _ => nofun, fun _ => ⟨⟨claims, 0⟩, rfl⟩⟩

theorem Descriptor.exists_totalWidth_iff {f : String → Except Error Width} :
    ∀ (ds : List Descriptor) (total : Width),
      (∃ width, Descriptor.totalWidth f total ds = .ok width) ↔
        ∀ name ∈ Descriptor.outerMentionsOfAll ds, ∃ width, f name = .ok width
  | [], total => ⟨fun _ => nofun, fun _ => ⟨total, rfl⟩⟩
  | d :: rest, total => by
      rw [Descriptor.outerMentionsOfAll, List.forall_mem_append, ← Descriptor.exists_width_iff d,
        Descriptor.totalWidth]
      cases hHead : d.width f with
      | error e => exact ⟨nofun, nofun⟩
      | ok width =>
          rw [← Descriptor.exists_totalWidth_iff rest (total + width)]
          exact ⟨fun hRest => ⟨⟨width, rfl⟩, hRest⟩, fun hBoth => hBoth.2⟩

end

namespace Registry

variable {r : Registry} {name : String} {width : Width}

/-- A member of one name mentions another name outside of shapes. -/
def Contains (r : Registry) (name other : String) : Prop :=
  ∃ m ∈ r.schema name, other ∈ m.2.outerMentions

/-- A name has a width. -/
def Sized (r : Registry) (name : String) : Prop := ∃ width, r.widthOf name = .ok width

theorem Contains.mentions {other : String} (h : r.Contains name other) : r.Mentions name other := by
  obtain ⟨m, hm, hOther⟩ := h
  exact ⟨m, hm, Descriptor.outerMentions_subset m.2 hOther⟩

/-- The width of a name is found if the widths are found that it needs, in one step less. -/
theorem exists_widthWithin_iff {k : Nat} :
    (∃ width, r.widthWithin (k + 1) name = .ok width) ↔
      ∀ other, r.Contains name other → ∃ width, r.widthWithin k other = .ok width := by
  rw [widthWithin, Descriptor.exists_totalWidth_iff]
  constructor
  · rintro h other ⟨m, hm, hOther⟩
    exact h other (Descriptor.mem_outerMentionsOfAll.2 ⟨m.2, List.mem_map_of_mem hm, hOther⟩)
  · intro h other hOther
    obtain ⟨d, hd, hOther⟩ := Descriptor.mem_outerMentionsOfAll.1 hOther
    obtain ⟨m, hm, rfl⟩ := List.mem_map.1 hd
    exact h other ⟨m, hm, hOther⟩

theorem Contains.registered {other : String} (h : r.Contains name other) :
    name ∈ r.schemas.names := by
  obtain ⟨m, hm, -⟩ := h
  exact mem_names_of_mem_schema hm

theorem widthWithin_mono {j k : Nat} (hLe : j ≤ k) (h : r.widthWithin j name = .ok width) :
    r.widthWithin k name = .ok width := by
  induction hLe with
  | refl => exact h
  | step _ ih => exact widthWithin_succ ih

/-- A width that is found within any number of steps is the width. -/
theorem widthOf_of_within {k : Nat} (h : r.widthWithin k name = .ok width) :
    r.widthOf name = .ok width := by
  obtain ⟨found, hFound⟩ : r.Sized name := by
    have hBound : r.schemas.names.length + 1 = r.depthBound := by
      rw [Entries.names, List.length_map, depthBound]
    rw [Sized, widthOf, ← hBound]
    refine @found_within _ r.Contains _ (fun k name => ∃ width, r.widthWithin k name = .ok width)
      k name (fun hContains => hContains.registered)
      (fun hLess => hLess.imp fun _ => widthWithin_succ) (fun hLess hMore => ?_)
      ⟨width, widthWithin_succ h⟩
    refine exists_widthWithin_iff.2 fun other hContains => hLess other hContains ?_
    exact exists_widthWithin_iff.1 hMore other hContains
  have hSame := widthWithin_mono (Nat.le_max_left r.depthBound k) hFound
  rw [widthWithin_mono (Nat.le_max_right r.depthBound k) h] at hSame
  cases hSame
  exact hFound

/-- A name has the total width of its members, whenever there is one of the two. -/
theorem widthOf_eq_ok :
    r.widthOf name = .ok width ↔
      Descriptor.totalWidth r.widthOf Width.zero ((r.schema name).map (·.2)) = .ok width :=
  ⟨widthOf_unroll, fun h => widthOf_of_within (k := r.depthBound + 1) h⟩

/-- A name has a width exactly if the names have one that it contains. -/
theorem sized_unroll : r.Sized name ↔ ∀ other, r.Contains name other → r.Sized other := by
  unfold Sized
  rw [show (∃ width, r.widthOf name = .ok width) ↔
    ∃ width, r.widthWithin (r.depthBound + 1) name = .ok width from
      exists_congr fun width => widthOf_eq_ok, exists_widthWithin_iff]
  rfl

/-- A name has a width exactly if no circle of mentions outside of shapes is reached from it. -/
theorem sized_iff :
    r.Sized name ↔
      ∀ other, ReflTransGen r.Contains name other → ¬ TransGen r.Contains other other := by
  rw [← @acc_iff_no_circle _ r.Contains r.schemas.names fun h => h.registered]
  constructor
  · rintro ⟨width, hWidth⟩
    have hSteps : ∀ k name, (∃ width, r.widthWithin k name = .ok width) →
        Acc (fun other name => r.Contains name other) name := by
      intro k
      induction k with
      | zero => exact fun _ ⟨_, hNone⟩ => by cases hNone
      | succ k ih =>
          exact fun name h => Acc.intro name fun other hContains =>
            ih other (exists_widthWithin_iff.1 h other hContains)
    exact hSteps _ name ⟨width, hWidth⟩
  · intro h
    induction h with
    | intro name _ ih => exact sized_unroll.2 ih

/-- A name that leads to no circle has a width. -/
theorem Grounded.sized (h : r.Grounded name) : r.Sized name := by
  induction h with
  | intro name _ ih => exact sized_unroll.2 fun other hContains => ih other hContains.mentions

end Registry

end TypedCircuit
