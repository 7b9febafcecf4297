import TypedCircuit.Proofs.Codec.Traversals
import TypedCircuit.Registry
import Mathlib.Data.List.Perm.Subperm
import Mathlib.Logic.Relation

/-!
# Types that do not contain themselves

A composite type is found by following names through the registry, within a number of
steps that is computed from the registry. This file shows that for a name that does not
lead back to itself the number does not matter: its width is the total of the widths of
its members, and its codec is the codec of its members' codecs. Everything said about
such a type is said by induction on its members, and no budget appears again.

A name is *grounded* when following mentions from it always ends. On the way to the end
no name is met twice, so there are no more names on it than the registry has, and one
more name without members. This is why the registry's own bound is enough.

## Main results

* `stable_of_grounded` — what is found step by step does not change past the bound.
* `width_composite` — the width of a grounded name is the total over its members.
* `codec_composite` — the codec of a grounded name is built from its members' codecs.
-/

namespace TypedCircuit

/-! ## Mentions -/

mutual

/-- The names of registered types that a type mentions. -/
def Descriptor.mentions : Descriptor → List String
  | .leaf _ => []
  | .array element _ => element.mentions
  | .tuple elements => Descriptor.mentionsOfAll elements
  | .structural root => root.mentions
  | .composite name _ => [name]
  | .unregistered _ => []
  | .plain inner => inner.mentions
  | .misdeclared _ _ => []

/-- The names that types mention. -/
def Descriptor.mentionsOfAll : List Descriptor → List String
  | [] => []
  | d :: rest => d.mentions ++ Descriptor.mentionsOfAll rest

/-- The names of registered types that a shape mentions. -/
def Shape.mentions : Shape → List String
  | .leaf type _ => type.mentions
  | .array items => Shape.mentionsOfItems items
  | .object members => Shape.mentionsOfMembers members
  | .constant _ => []

/-- The names that items mention. -/
def Shape.mentionsOfItems : List Shape → List String
  | [] => []
  | s :: rest => s.mentions ++ Shape.mentionsOfItems rest

/-- The names that members mention. -/
def Shape.mentionsOfMembers : List (String × Shape) → List String
  | [] => []
  | (_, s) :: rest => s.mentions ++ Shape.mentionsOfMembers rest

end

theorem Descriptor.mem_mentionsOfAll {name : String} {ds : List Descriptor} :
    name ∈ Descriptor.mentionsOfAll ds ↔ ∃ d ∈ ds, name ∈ d.mentions := by
  induction ds with
  | nil => simp [Descriptor.mentionsOfAll]
  | cons d rest ih => simp [Descriptor.mentionsOfAll, ih]

theorem Shape.mem_mentionsOfItems {name : String} {items : List Shape} :
    name ∈ Shape.mentionsOfItems items ↔ ∃ s ∈ items, name ∈ s.mentions := by
  induction items with
  | nil => simp [Shape.mentionsOfItems]
  | cons s rest ih => simp [Shape.mentionsOfItems, ih]

theorem Shape.mem_mentionsOfMembers {name : String} {members : List (String × Shape)} :
    name ∈ Shape.mentionsOfMembers members ↔ ∃ m ∈ members, name ∈ m.2.mentions := by
  induction members with
  | nil => simp [Shape.mentionsOfMembers]
  | cons m rest ih => simp [Shape.mentionsOfMembers, ih]

namespace Registry

/-- A member of one name mentions another name. -/
def Mentions (r : Registry) (name other : String) : Prop :=
  ∃ m ∈ r.schema name, other ∈ m.2.mentions

/-- What the types of the members mention, the name mentions. -/
theorem mentions_of_mem {r : Registry} {name other : String}
    (h : other ∈ Descriptor.mentionsOfAll ((r.schema name).map (·.2))) : r.Mentions name other := by
  obtain ⟨d, hd, hName⟩ := Descriptor.mem_mentionsOfAll.1 h
  obtain ⟨m, hm, rfl⟩ := List.mem_map.1 hd
  exact ⟨m, hm, hName⟩

/-- Following mentions from a name always ends. -/
def Grounded (r : Registry) (name : String) : Prop :=
  Acc (fun other name => r.Mentions name other) name

theorem Grounded.of_mentions {r : Registry} {name other : String} (h : r.Grounded name)
    (hMentions : r.Mentions name other) : r.Grounded other :=
  Acc.inv h hMentions

theorem Grounded.of_members {r : Registry} {name : String}
    (h : ∀ m ∈ r.schema name, ∀ other ∈ m.2.mentions, r.Grounded other) : r.Grounded name :=
  Acc.intro name fun other ⟨m, hm, hOther⟩ => h m hm other hOther

private theorem not_self_of_acc {α : Type} {rel : α → α → Prop} {a : α} (h : Acc rel a) :
    ¬ rel a a := by
  induction h with
  | intro a _ ih => exact fun hSelf => ih a hSelf hSelf

/-- A grounded name is not reached from itself. -/
theorem Grounded.not_reached {r : Registry} {name : String} (h : r.Grounded name) :
    ¬ Relation.TransGen r.Mentions name name := by
  intro hCycle
  exact not_self_of_acc (Acc.transGen h) (Relation.transGen_swap.2 hCycle)

/-! ## Past the bound -/

/-- A name with members is registered. -/
theorem mem_names_of_mem_schema {r : Registry} {name : String} {m : String × Descriptor}
    (h : m ∈ r.schema name) : name ∈ r.schemas.names := by
  unfold schema at h
  generalize r.schemas = schemas at h
  induction schemas with
  | nil => simp [Entries.find?] at h
  | cons entry rest ih =>
      obtain ⟨key, members⟩ := entry
      by_cases hKey : key = name
      · subst hKey; simp [Entries.names]
      · rw [Entries.find?, if_neg hKey] at h
        simpa [Entries.names] using Or.inr (ih h)

/--
What is found of a name step by step, each step needing only the names that are mentioned,
is the same for all numbers of steps that exceed the registered names not passed yet. The
names passed on the way are the path; the name is reached from each of them.
-/
private theorem stable_past_path {r : Registry} {β : Type} {find : Nat → String → β}
    (hStep : ∀ j k name, (∀ other, r.Mentions name other → find j other = find k other) →
      find (j + 1) name = find (k + 1) name)
    {name : String} (h : r.Grounded name) :
    ∀ path : List String, path.Nodup → path ⊆ r.schemas.names →
      (∀ passed ∈ path, Relation.TransGen r.Mentions passed name) →
      ∀ j k, r.depthBound ≤ j + path.length → r.depthBound ≤ k + path.length →
        find j name = find k name := by
  induction h with
  | intro name hAcc ih =>
      intro path hNodup hSubset hReach j k hj hk
      have hLength : path.length ≤ r.schemas.length := by
        have hLe := (List.subperm_of_subset hNodup hSubset).length_le
        simpa [Entries.names] using hLe
      have hBound : r.depthBound = r.schemas.length + 1 := rfl
      obtain ⟨j, rfl⟩ := Nat.exists_eq_add_of_lt (show 0 < j by omega)
      obtain ⟨k, rfl⟩ := Nat.exists_eq_add_of_lt (show 0 < k by omega)
      refine hStep _ _ name fun other hMentions => ?_
      have hFresh : name ∉ path := fun hMem =>
        Grounded.not_reached (Acc.intro name hAcc) (hReach name hMem)
      have hRegistered : name ∈ r.schemas.names := by
        obtain ⟨m, hm, _⟩ := hMentions
        exact mem_names_of_mem_schema hm
      refine ih other hMentions (name :: path) (List.nodup_cons.2 ⟨hFresh, hNodup⟩)
        (List.cons_subset.2 ⟨hRegistered, hSubset⟩) ?_ _ _ ?_ ?_
      · intro passed hPassed
        rcases List.mem_cons.1 hPassed with rfl | hPassed
        · exact .single hMentions
        · exact (hReach passed hPassed).tail hMentions
      · rw [List.length_cons]; omega
      · rw [List.length_cons]; omega

/-- What is found of a grounded name step by step does not change past the bound. -/
theorem stable_of_grounded {r : Registry} {β : Type} {find : Nat → String → β}
    (hStep : ∀ j k name, (∀ other, r.Mentions name other → find j other = find k other) →
      find (j + 1) name = find (k + 1) name)
    {name : String} (h : r.Grounded name) {j k : Nat} (hj : r.depthBound ≤ j)
    (hk : r.depthBound ≤ k) : find j name = find k name :=
  stable_past_path hStep h [] List.nodup_nil (List.nil_subset _) nofun j k (by simpa) (by simpa)

end Registry

/-! ## Lists of types

The meaning of a list of types is built onto what is done already; it is the list of the
meanings.
-/

theorem Descriptor.codecs_eq (names : Names) (ds : List Descriptor) (done : List Codec) :
    Descriptor.codecs names done ds = done.reverse ++ ds.map (·.codec names) := by
  induction ds generalizing done with
  | nil => simp [Descriptor.codecs]
  | cons d rest ih => simp [Descriptor.codecs, ih]

theorem Shape.itemParts_eq (names : Names) (items : List Shape) (done : List Part) :
    Shape.itemParts names done items = done.reverse ++ items.map (·.part names) := by
  induction items generalizing done with
  | nil => simp [Shape.itemParts]
  | cons s rest ih => simp [Shape.itemParts, ih]

theorem Shape.memberParts_eq (names : Names) (members : List (String × Shape))
    (done : List (String × Part)) :
    Shape.memberParts names done members =
      done.reverse ++ members.map fun m => (m.1, m.2.part names) := by
  induction members generalizing done with
  | nil => simp [Shape.memberParts]
  | cons m rest ih => simp [Shape.memberParts, ih]

theorem Descriptor.codec_tuple (names : Names) (ds : List Descriptor) :
    (Descriptor.tuple ds).codec names =
      Codec.tuple (Descriptor.tuple ds).typeName (ds.map (·.codec names)) := by
  rw [Descriptor.codec, Descriptor.codecs_eq, List.reverse_nil, List.nil_append]

theorem Shape.part_array (names : Names) (items : List Shape) :
    (Shape.array items).part names =
      Part.sequence (Shape.array items).typeName (items.map (·.part names)) := by
  rw [Shape.part, Shape.itemParts_eq, List.reverse_nil, List.nil_append, Part.listed_eq_sequence]

theorem Shape.part_object (names : Names) (members : List (String × Shape)) :
    (Shape.object members).part names =
      Part.object (Shape.object members).typeName
        (members.map fun m => (m.1, m.2.part names)) := by
  rw [Shape.part, Shape.memberParts_eq, List.reverse_nil, List.nil_append]

/-! ## Widths -/

mutual

/-- A width depends on nothing but the widths of the names that are mentioned. -/
theorem Descriptor.width_congr {f g : String → Except Error Width} :
    ∀ d : Descriptor, (∀ name ∈ d.mentions, f name = g name) → d.width f = d.width g
  | .leaf _, _ => rfl
  | .array element _, h => by
      rw [Descriptor.width, Descriptor.width, Descriptor.width_congr element h]
  | .tuple elements, h => Descriptor.totalWidth_congr elements Width.zero h
  | .structural _, _ => rfl
  | .composite name _, h => h name (List.mem_singleton_self name)
  | .unregistered _, _ => rfl
  | .plain inner, h => Descriptor.width_congr inner h
  | .misdeclared _ _, _ => rfl

/-- A total of widths depends on nothing but the widths of the names mentioned. -/
theorem Descriptor.totalWidth_congr {f g : String → Except Error Width} :
    ∀ (ds : List Descriptor) (total : Width),
      (∀ name ∈ Descriptor.mentionsOfAll ds, f name = g name) →
        Descriptor.totalWidth f total ds = Descriptor.totalWidth g total ds
  | [], _, _ => rfl
  | d :: rest, total, h => by
      have hHead : d.width f = d.width g :=
        Descriptor.width_congr d fun name hName => h name (List.mem_append_left _ hName)
      rw [Descriptor.totalWidth, Descriptor.totalWidth, hHead]
      cases d.width g with
      | error e => rfl
      | ok width =>
          exact Descriptor.totalWidth_congr rest _ fun name hName =>
            h name (List.mem_append_right _ hName)

end

/-- A total of widths is the sum of the widths, onto a width. -/
theorem Descriptor.totalWidth_eq (f : String → Except Error Width) (ds : List Descriptor)
    (total : Width) :
    Descriptor.totalWidth f total ds =
      (ds.mapM fun d : Descriptor => d.width f).map fun widths =>
        widths.foldl (· + ·) total := by
  induction ds generalizing total with
  | nil => rfl
  | cons d rest ih =>
      rw [Descriptor.totalWidth, List.mapM_cons]
      cases d.width f with
      | error e => rfl
      | ok width =>
          show Descriptor.totalWidth f (total + width) rest = _
          rw [ih]
          cases List.mapM (fun d : Descriptor => d.width f) rest <;> rfl

mutual

/-- The share of a shape is the width of the shape. -/
theorem Shape.part_width (names : Names) :
    ∀ s : Shape, (s.part names).width () = .ok s.width
  | .leaf _ _ => rfl
  | .array items => by
      obtain ⟨widths, hWidths, hTotal⟩ := Shape.itemWidths names items
      rw [Shape.part_array]
      show (Part.widths _).map Width.sum = .ok (Shape.itemsWidth Width.zero items)
      rw [Part.widths, List.mapM_map, ← hTotal Width.zero]
      exact congrArg (Except.map Width.sum) hWidths
  | .object members => by
      obtain ⟨widths, hWidths, hTotal⟩ := Shape.memberWidths names members
      rw [Shape.part_object]
      show (Part.memberWidths _).map Width.sum = .ok (Shape.membersWidth Width.zero members)
      rw [Part.memberWidths, List.mapM_map, ← hTotal Width.zero]
      exact congrArg (Except.map Width.sum) hWidths
  | .constant _ => rfl

/-- The shares of items add up to the width of the items. -/
theorem Shape.itemWidths (names : Names) :
    ∀ items : List Shape, ∃ widths,
      (items.mapM fun s : Shape => (s.part names).width ()) = .ok widths ∧
        ∀ total, widths.foldl (· + ·) total = Shape.itemsWidth total items
  | [] => ⟨[], rfl, fun _ => rfl⟩
  | s :: rest => by
      obtain ⟨widths, hWidths, hTotal⟩ := Shape.itemWidths names rest
      refine ⟨s.width :: widths, ?_, fun total => hTotal (total + s.width)⟩
      rw [List.mapM_cons, Shape.part_width names s, hWidths]
      rfl

/-- The shares of members add up to the width of the members. -/
theorem Shape.memberWidths (names : Names) :
    ∀ members : List (String × Shape), ∃ widths,
      (members.mapM fun m : String × Shape => (m.2.part names).width ()) = .ok widths ∧
        ∀ total, widths.foldl (· + ·) total = Shape.membersWidth total members
  | [] => ⟨[], rfl, fun _ => rfl⟩
  | (_, s) :: rest => by
      obtain ⟨widths, hWidths, hTotal⟩ := Shape.memberWidths names rest
      refine ⟨s.width :: widths, ?_, fun total => hTotal (total + s.width)⟩
      rw [List.mapM_cons, Shape.part_width names s, hWidths]
      rfl

end

mutual

/-- The width of a codec is the width of the type. -/
theorem Descriptor.codec_width (names : Names) :
    ∀ d : Descriptor, (d.codec names).width () = d.width names.width
  | .leaf type => type.codec_width
  | .array element length =>
      congrArg (Except.map (Width.times length)) (Descriptor.codec_width names element)
  | .tuple elements => by
      rw [Descriptor.codec_tuple, Descriptor.width, Descriptor.totalWidth_eq,
        ← Descriptor.codecs_width names elements]
      show (Part.widths ((elements.map (·.codec names)).map Codec.part)).map Width.sum = _
      rw [Part.widths, List.mapM_map, List.mapM_map]
      rfl
  | .structural root => by
      rw [Descriptor.codec, Descriptor.width]
      exact Shape.part_width names root
  | .composite _ _ => rfl
  | .unregistered _ => rfl
  | .plain inner => Descriptor.codec_width names inner
  | .misdeclared _ _ => rfl

/-- The widths of codecs are the widths of the types. -/
theorem Descriptor.codecs_width (names : Names) :
    ∀ ds : List Descriptor,
      (ds.mapM fun d : Descriptor => (d.codec names).width ()) =
        ds.mapM fun d : Descriptor => d.width names.width
  | [] => rfl
  | d :: rest => by
      rw [List.mapM_cons, List.mapM_cons, Descriptor.codec_width names d,
        Descriptor.codecs_width names rest]

end

/-! ## Meanings -/

/-- Two meanings of names agree on a name. -/
def Names.Agree (f g : Names) (name : String) : Prop :=
  f.width name = g.width name ∧ ∀ size, f.members size name = g.members size name

theorem Names.Agree.composite_eq {f g : Names} {name : String} (h : f.Agree g name)
    (json : Bool) : f.composite name json = g.composite name json := by
  rw [Names.composite, Names.composite, h.1]
  have hMembers : (fun size => f.members size name) = fun size => g.members size name :=
    funext h.2
  exact congrArg (fun members => Codec.deferred name (fun _ => g.width name) ⟨true, json⟩
    fun size => (members size).map (Codec.composite name json)) hMembers

mutual

/-- A codec depends on nothing but the meaning of the names that are mentioned. -/
theorem Descriptor.codec_congr {f g : Names} :
    ∀ d : Descriptor, (∀ name ∈ d.mentions, f.Agree g name) → d.codec f = d.codec g
  | .leaf _, _ => rfl
  | .array element _, h => by
      rw [Descriptor.codec, Descriptor.codec, Descriptor.codec_congr element h]
  | .tuple elements, h => by
      rw [Descriptor.codec_tuple, Descriptor.codec_tuple, Descriptor.codecs_congr elements h]
  | .structural root, h => by
      rw [Descriptor.codec, Descriptor.codec, Shape.part_congr root h]
  | .composite name json, h => by
      rw [Descriptor.codec, Descriptor.codec]
      exact (h name (List.mem_singleton_self name)).composite_eq json
  | .unregistered _, _ => rfl
  | .plain inner, h => by
      rw [Descriptor.codec, Descriptor.codec, Descriptor.codec_congr inner h]
  | .misdeclared _ _, _ => rfl

/-- Codecs depend on nothing but the meaning of the names mentioned. -/
theorem Descriptor.codecs_congr {f g : Names} :
    ∀ ds : List Descriptor, (∀ name ∈ Descriptor.mentionsOfAll ds, f.Agree g name) →
      ds.map (·.codec f) = ds.map (·.codec g)
  | [], _ => rfl
  | d :: rest, h => by
      rw [List.map_cons, List.map_cons,
        Descriptor.codec_congr d fun name hName => h name (List.mem_append_left _ hName),
        Descriptor.codecs_congr rest fun name hName => h name (List.mem_append_right _ hName)]

/-- A part depends on nothing but the meaning of the names that are mentioned. -/
theorem Shape.part_congr {f g : Names} :
    ∀ s : Shape, (∀ name ∈ s.mentions, f.Agree g name) → s.part f = s.part g
  | .leaf type _, h => by
      rw [Shape.part, Shape.part, Descriptor.codec_congr type h]
  | .array items, h => by
      rw [Shape.part_array, Shape.part_array, Shape.itemParts_congr items h]
  | .object members, h => by
      rw [Shape.part_object, Shape.part_object, Shape.memberParts_congr members h]
  | .constant _, _ => rfl

/-- Parts of items depend on nothing but the meaning of the names mentioned. -/
theorem Shape.itemParts_congr {f g : Names} :
    ∀ items : List Shape, (∀ name ∈ Shape.mentionsOfItems items, f.Agree g name) →
      items.map (·.part f) = items.map (·.part g)
  | [], _ => rfl
  | s :: rest, h => by
      rw [List.map_cons, List.map_cons,
        Shape.part_congr s fun name hName => h name (List.mem_append_left _ hName),
        Shape.itemParts_congr rest fun name hName => h name (List.mem_append_right _ hName)]

/-- Parts of members depend on nothing but the meaning of the names mentioned. -/
theorem Shape.memberParts_congr {f g : Names} :
    ∀ members : List (String × Shape),
      (∀ name ∈ Shape.mentionsOfMembers members, f.Agree g name) →
        (members.map fun m => (m.1, m.2.part f)) = members.map fun m => (m.1, m.2.part g)
  | [], _ => rfl
  | (key, s) :: rest, h => by
      rw [List.map_cons, List.map_cons,
        Shape.part_congr s fun name hName => h name (List.mem_append_left _ hName),
        Shape.memberParts_congr rest fun name hName => h name (List.mem_append_right _ hName)]

end

/-! ## Grounded names -/

namespace Registry

variable {r : Registry} {name : String}

/-- The width of a grounded name is the total over its members. -/
theorem width_composite (h : r.Grounded name) :
    r.widthOf name =
      Descriptor.totalWidth r.widthOf Width.zero ((r.schema name).map (·.2)) := by
  have hStable : r.widthWithin r.depthBound name = r.widthWithin (r.depthBound + 1) name := by
    refine stable_of_grounded (fun j k name hAgree => ?_) h (Nat.le_refl _) (Nat.le_succ _)
    exact Descriptor.totalWidth_congr _ _ fun other hOther => hAgree other (mentions_of_mem hOther)
  exact hStable

/-- The members of a grounded name are the same for every number of steps past the bound. -/
theorem membersWithin_stable (h : r.Grounded name) {j k : Nat} (hj : r.depthBound ≤ j)
    (hk : r.depthBound ≤ k) : r.membersWithin j name = r.membersWithin k name := by
  refine stable_of_grounded (fun j k name hAgree => ?_) h hj hk
  refine congrArg Except.ok (List.map_congr_left fun m hm => ?_)
  refine congrArg (Prod.mk m.1) (Descriptor.codec_congr m.2 fun other hOther => ?_)
  exact ⟨rfl, fun _ => hAgree other ⟨m, hm, hOther⟩⟩

theorem depthBound_le_steps (r : Registry) (size : Nat) : r.depthBound ≤ r.steps size :=
  Nat.le_mul_of_pos_left _ (Nat.succ_pos size)

/-- The members of a grounded name have the codecs of their types. -/
theorem membersWithin_eq (h : r.Grounded name) {k : Nat} (hk : r.depthBound ≤ k) :
    r.membersWithin k name = .ok ((r.schema name).map fun m => (m.1, r.codec m.2)) := by
  rw [membersWithin_stable h hk (Nat.le_succ r.depthBound)]
  refine congrArg Except.ok (List.map_congr_left fun m hm => ?_)
  refine congrArg (Prod.mk m.1) (Descriptor.codec_congr m.2 fun other hOther => ?_)
  refine ⟨rfl, fun size => ?_⟩
  exact membersWithin_stable (h.of_mentions ⟨m, hm, hOther⟩) (Nat.le_refl _)
    (r.depthBound_le_steps size)

/-- A codec that is built the same for every operation is that codec, with a width, a name
and capabilities of its own. -/
theorem deferred_const (typeName : String) (width : Unit → Except Error Width)
    (capabilities : Capabilities) (c : Codec) :
    Codec.deferred typeName width capabilities (fun _ => .ok c) =
      { c with typeName, width, capabilities } := rfl

/-- The codec of a grounded name is built from its members' codecs. -/
theorem codec_composite (h : r.Grounded name) (json : Bool) :
    r.codec (.composite name json) =
      Codec.composite name json ((r.schema name).map fun m => (m.1, r.codec m.2)) := by
  have hBuild : (fun size => (r.names.members size name).map (Codec.composite name json)) =
      fun _ => .ok (Codec.composite name json
        ((r.schema name).map fun m => (m.1, r.codec m.2))) := by
    funext size
    show (r.membersWithin (r.steps size) name).map _ = _
    rw [membersWithin_eq h (r.depthBound_le_steps size)]
    rfl
  have hWidth : r.widthOf name = (Codec.composite name json
      ((r.schema name).map fun m => (m.1, r.codec m.2))).width () := by
    rw [width_composite h, Descriptor.totalWidth_eq, ← show r.names.width = r.widthOf from rfl,
      ← Descriptor.codecs_width]
    show _ = (Part.memberWidths (Codec.memberParts _)).map Width.sum
    rw [Part.memberWidths, Codec.memberParts, List.mapM_map, List.mapM_map, List.mapM_map]
    rfl
  rw [codec, Descriptor.codec, Names.composite, hBuild, deferred_const]
  show { Codec.composite name json _ with width := fun _ => r.widthOf name } = _
  rw [hWidth]

end Registry

end TypedCircuit
