import TypedCircuit.Proofs.Codec.Agreement
import TypedCircuit.Proofs.Registry.Widths

/-!
# Registered types, one level at a time

A registered type finds its members by its name, within a number of steps that is computed from the
size of what it is given. For what it does to a value or a document the number does not matter. A
member is given what is inside of it, which is lower, and there are at least as many steps as there
are levels. So a registered type does to all values and documents what the composite of the codecs
does that the registry gives to the types of its members.

This holds of all registered types with a width, also of those that mention themselves inside of a
shape. Types without a circle do the same in everything, which is `Registry.codec_composite`.

## Main results

* `Names.Serves.agrees` — meanings of names that serve up to a size do the same up to it.
* `Registry.agrees_unrolled` — a registered type does what the composite of its members does.
-/

namespace TypedCircuit

open TypedCircuit.Part (Agrees)

/-- The composite of the codecs that members have under a meaning of names. -/
def Registry.unrolled (r : Registry) (names : Names) (name : String) (json : Bool) : Codec :=
  Codec.composite name json ((r.schema name).map fun m => (m.1, m.2.codec names))

variable {r : Registry} {names names' : Names} {name : String} {json : Bool} {n : Nat}

/-- A registered type gathers what is gathered by the codec that is built for the value. -/
theorem Names.composite_auxiliary {v : Value} {c : Codec}
    (h : (names.members v.height name).map (Codec.composite name json) = .ok c) :
    (names.composite name json).auxiliary v = c.auxiliary v := by
  simp only [Names.composite, Codec.deferred, h]

/-- Members agree under meanings that do the same with their names. -/
private theorem membersAgree
    (hNames : ∀ other, Part.Congruence.OfName (Agrees n) names names' other) (schema : Schema) :
    Codec.MembersAgree n (schema.map fun m => (m.1, m.2.codec names))
      (schema.map fun m => (m.1, m.2.codec names')) := by
  rw [Codec.MembersAgree, List.forall₂_map_left_iff, List.forall₂_map_right_iff, List.forall₂_same]
  intro m _
  refine ⟨rfl, Descriptor.codec_capabilities names names' m.2, ?_⟩
  exact (Part.congruence_agrees n).descriptorCodec m.2 fun other _ => hNames other

/-- What is built under a name for something of a height is the composite of the members, up to this
height, if all that serves for what is lower does the same to it. -/
private theorem exists_level (hNames : names.Serves r (n + 1)) (hNames' : names'.Serves r (n + 1))
    (hLower : ∀ {inner inner' : Names}, inner.Serves r n → inner'.Serves r n →
      ∀ other, Part.Congruence.OfName (Agrees n) inner inner' other) :
    ∃ c, (names.members (n + 1) name).map (Codec.composite name json) = .ok c ∧
      Agrees (n + 1) c.uncounted (r.unrolled names' name json).uncounted := by
  obtain ⟨inner, hInner, hMembers⟩ := hNames.unroll (Nat.succ_pos n) name
  refine ⟨_, congrArg (Except.map _) hMembers, ?_⟩
  have hSame := hLower hInner (hNames'.mono (Nat.le_succ n))
  exact Codec.agrees_composite (membersAgree hSame (r.schema name)) name json

/-- A meaning that serves up to a height agrees with the composite of the members, if what serves
for less does the same to what is lower. -/
private theorem agrees_level (hNames : names.Serves r n) (hNames' : names'.Serves r n)
    (hLower : ∀ m < n, ∀ {inner inner' : Names}, inner.Serves r m → inner'.Serves r m →
      ∀ other, Part.Congruence.OfName (Agrees m) inner inner' other)
    (name : String) (json : Bool) :
    Agrees n (names.composite name json).uncounted
      { (r.unrolled names' name json).uncounted with width := fun _ => r.widthOf name } := by
  have hLevel : ∀ size, 0 < size → size ≤ n →
      ∃ c, (names.members size name).map (Codec.composite name json) = .ok c ∧
        Agrees size c.uncounted (r.unrolled names' name json).uncounted := by
    intro size hPos hSize
    obtain ⟨m, rfl⟩ := Nat.exists_eq_succ_of_ne_zero (Nat.ne_of_gt hPos)
    exact exists_level (hNames.mono hSize) (hNames'.mono hSize) (hLower m hSize)
  refine ⟨rfl, ?_, fun {v} hv => ?_, fun {v} hv => ?_, fun {v} hv => ?_, fun {v} hv => ?_,
    fun {v} hv => ?_, fun {document} hDocument => ?_⟩
  · show (fun _ => names.width name) = _
    rw [hNames.width_eq]
  · obtain ⟨c, hBuild, hAgrees⟩ := hLevel v.height v.height_pos hv
    show ((names.members v.height name).map (Codec.composite name json) >>= (·.flatten v)) = _
    rw [hBuild]
    exact hAgrees.flatten_eq (Nat.le_refl _)
  · obtain ⟨c, hBuild, hAgrees⟩ := hLevel v.height v.height_pos hv
    exact (Names.composite_auxiliary hBuild).trans (hAgrees.auxiliary_eq (Nat.le_refl _))
  · obtain ⟨c, hBuild, hAgrees⟩ := hLevel v.height v.height_pos hv
    show (liftM ((names.members v.height name).map (Codec.composite name json)) >>=
      (·.check v) : Circuit Unit) = _
    rw [hBuild]
    exact hAgrees.check_eq (Nat.le_refl _)
  · obtain ⟨c, hBuild, hAgrees⟩ := hLevel v.height v.height_pos hv
    show ((names.members v.height name).map (Codec.composite name json) >>= (·.input v)) = _
    rw [hBuild]
    exact hAgrees.input_eq (Nat.le_refl _)
  · obtain ⟨c, hBuild, hAgrees⟩ := hLevel v.height v.height_pos hv
    show ((names.members v.height name).map (Codec.composite name json) >>= (·.encode v)) = _
    rw [hBuild]
    exact hAgrees.encode_eq (Nat.le_refl _)
  · obtain ⟨c, hBuild, hAgrees⟩ := hLevel document.height document.height_pos hDocument
    show ((names.members document.height name).map (Codec.composite name json) >>=
      (·.decode document)) = _
    rw [hBuild]
    exact hAgrees.decode_eq (Nat.le_refl _)

/-- All meanings that serve up to a size do the same to what is not higher. -/
theorem Names.Serves.agrees (hNames : names.Serves r n) (hNames' : names'.Serves r n)
    (name : String) (json : Bool) :
    Agrees n (names.composite name json).uncounted (names'.composite name json).uncounted := by
  induction n using Nat.strong_induction_on generalizing names names' name json with
  | _ n ih =>
      have hLower : ∀ m < n, ∀ {inner inner' : Names}, inner.Serves r m → inner'.Serves r m →
          ∀ other, Part.Congruence.OfName (Agrees m) inner inner' other :=
        fun m hm _ _ hInner hInner' other json => ih m hm hInner hInner' other json
      exact (agrees_level hNames hNames' hLower name json).trans
        (agrees_level hNames' hNames' hLower name json).symm

/-- A registered type does to a value what the composite of its members does. -/
theorem Registry.agrees_unrolled (hSized : r.Sized name) (json : Bool) (n : Nat) :
    Agrees n (r.codec (.composite name json)).uncounted
      (r.unrolled r.names name json).uncounted := by
  obtain ⟨width, hWidth⟩ := hSized
  have hServes := Names.serves_names r n
  have hAgrees := agrees_level hServes hServes
    (fun _ _ _ _ hInner hInner' other json => hInner.agrees hInner' other json) name json
  have hOwn : (fun _ => r.widthOf name) = (r.unrolled r.names name json).uncounted.width :=
    funext fun _ => hWidth.trans (Registry.memberWidths_unroll hWidth rfl).symm
  rw [hOwn] at hAgrees
  exact hAgrees

end TypedCircuit
