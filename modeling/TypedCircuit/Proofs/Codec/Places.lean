import TypedCircuit.Proofs.Codec.Regular

/-!
# The places of a shape

A leaf of a shape is reached from the outermost shape by a path of keys and positions, and the same
path leads into the values of the shape. The *places* of a shape are its leaves with their paths,
in the order in which they are flattened.

Arrays and objects differ in how a step is taken, in a shape as in a value. Both have a list of
children, each under its step, and what is said about places is proved once for such lists.

## Main results

* `Shape.Regular.mem_places` — the places of a shape are its leaves, at the ends of their paths.
* `Shape.Regular.nodup_places` — no two places have one path.
* `Shape.flatten_places` — a value is flattened to what it has at each place, place after place.
-/

namespace TypedCircuit

/-! ## Paths -/

/-- One step into an object or an array. -/
inductive Step where
  /-- To the member of a key. -/
  | key (name : String)
  /-- To the item of a position. -/
  | position (index : Nat)
deriving DecidableEq

/-- What a value holds one step away. -/
def Value.child? (v : Value) : Step → Option Value
  | .key name => v.record?.bind fun record => record.2.find? name
  | .position index => v.items?.bind fun items => items[index]?

/-- What a value holds at the end of a path. -/
def Value.at? (v : Value) (path : List Step) : Option Value := path.foldlM Value.child? v

/-- The shape one step into a shape. -/
def Shape.child? : Shape → Step → Option Shape
  | .object members, .key name => Entries.find? members name
  | .array items, .position index => items[index]?
  | _, _ => none

/-- The shape at the end of a path. -/
def Shape.at? (s : Shape) (path : List Step) : Option Shape := path.foldlM Shape.child? s

theorem Value.at?_cons {v sub : Value} {step : Step} (h : v.child? step = some sub)
    (path : List Step) : v.at? (step :: path) = sub.at? path := by
  rw [Value.at?, List.foldlM_cons, h]
  rfl

theorem Shape.at?_cons (s : Shape) (step : Step) (path : List Step) :
    s.at? (step :: path) = (s.child? step).bind fun t => t.at? path :=
  List.foldlM_cons

/-- The shapes one step into a shape, in order. -/
def Shape.children : Shape → List (Step × Shape)
  | .leaf _ _ | .constant _ => []
  | .array items => items.zipIdx.map fun (s, index) => (.position index, s)
  | .object members => members.map fun (name, s) => (.key name, s)

/-- No two children are under one step. -/
theorem Shape.Regular.nodup_steps {r : Registry} {s : Shape} (h : s.Regular r) :
    (s.children.map Prod.fst).Nodup := by
  cases h with
  | leaf | constant => exact List.nodup_nil
  | @array items _ =>
      have hSteps : (Shape.array items).children.map Prod.fst =
          (List.range' 0 items.length).map Step.position := by
        rw [Shape.children, List.map_map, ← List.zipIdx_map_snd 0 items, List.map_map]
        rfl
      rw [hSteps]
      exact List.Nodup.map (fun _ _ => Step.position.inj) List.nodup_range'
  | @object members hNodup _ =>
      have hSteps : (Shape.object members).children.map Prod.fst =
          (members.map Prod.fst).map Step.key := by
        rw [Shape.children, List.map_map, List.map_map]
        rfl
      rw [hSteps]
      exact hNodup.map fun _ _ => Step.key.inj

/-- The children of a shape are what a step leads to. -/
theorem Shape.Regular.mem_children {r : Registry} {s t : Shape} {step : Step} (h : s.Regular r) :
    (step, t) ∈ s.children ↔ s.child? step = some t := by
  cases h with
  | leaf | constant => exact ⟨nofun, nofun⟩
  | @array items _ =>
      rw [Shape.children, List.mem_map]
      constructor
      · rintro ⟨⟨t, index⟩, hMem, hEq⟩
        cases hEq
        exact List.mem_zipIdx_iff_getElem?.1 hMem
      · intro hChild
        cases step with
        | key name => cases hChild
        | position index => exact ⟨(t, index), List.mem_zipIdx_iff_getElem?.2 hChild, rfl⟩
  | @object members hNodup _ =>
      rw [Shape.children, List.mem_map]
      constructor
      · rintro ⟨⟨name, t⟩, hMem, hEq⟩
        cases hEq
        exact Entries.find?_of_nodup hNodup hMem
      · intro hChild
        cases step with
        | key name => exact ⟨(name, t), Entries.mem_of_find? hChild, rfl⟩
        | position index => cases hChild

theorem Shape.Regular.child {r : Registry} {s : Shape} (h : s.Regular r) :
    ∀ c ∈ s.children, c.2.Regular r := by
  intro c hc
  cases h with
  | leaf | constant => cases hc
  | array hItems =>
      obtain ⟨⟨t, index⟩, hMem, rfl⟩ := List.mem_map.1 hc
      exact hItems t (List.mem_of_getElem? (List.mem_zipIdx_iff_getElem?.1 hMem))
  | object _ hMembers =>
      obtain ⟨m, hm, rfl⟩ := List.mem_map.1 hc
      exact hMembers m hm

theorem Shape.sizeOf_child {s : Shape} {c : Step × Shape} (hc : c ∈ s.children) :
    sizeOf c.2 < sizeOf s := by
  cases s with
  | leaf | constant => cases hc
  | array items =>
      obtain ⟨⟨t, index⟩, hMem, rfl⟩ := List.mem_map.1 hc
      have hLt : sizeOf t < sizeOf items :=
        List.sizeOf_lt_of_mem (List.mem_of_getElem? (List.mem_zipIdx_iff_getElem?.1 hMem))
      rw [Shape.array.sizeOf_spec]
      exact Nat.lt_of_lt_of_le hLt (Nat.le_add_left _ _)
  | object members =>
      obtain ⟨⟨name, t⟩, hm, rfl⟩ := List.mem_map.1 hc
      have hLt := List.sizeOf_lt_of_mem hm
      simp only [Shape.object.sizeOf_spec, Prod.mk.sizeOf_spec] at hLt ⊢
      omega

/-- What the shapes one step into a shape have, the shape has. -/
theorem Shape.descend {P : Shape → Prop} (h : ∀ s, (∀ c ∈ s.children, P c.2) → P s) (s : Shape) :
    P s :=
  h s fun c _ => Shape.descend h c.2
termination_by sizeOf s
decreasing_by exact sizeOf_child ‹c ∈ s.children›

/-! ## Places -/

/-- A leaf of a shape and the path to it. -/
structure Place where
  path : List Step
  type : Descriptor
  width : Width

/-- A place seen from one step further out. -/
def Place.under (step : Step) (p : Place) : Place := { p with path := step :: p.path }

mutual

/-- The leaves of a shape with their paths, in the order of flattening. -/
def Shape.places : Shape → List Place
  | .leaf type width => [⟨[], type, width⟩]
  | .array items => Shape.placesOfItems 0 items
  | .object members => Shape.placesOfMembers members
  | .constant _ => []

/-- The places of items from a position on. -/
def Shape.placesOfItems (position : Nat) : List Shape → List Place
  | [] => []
  | s :: rest =>
    s.places.map (.under (.position position)) ++ Shape.placesOfItems (position + 1) rest

/-- The places of members. -/
def Shape.placesOfMembers : List (String × Shape) → List Place
  | [] => []
  | (name, s) :: rest => s.places.map (.under (.key name)) ++ Shape.placesOfMembers rest

end

/-- The places in shapes that stand under steps. -/
def Place.within (children : List (Step × Shape)) : List Place :=
  children.flatMap fun c => c.2.places.map (.under c.1)

theorem Shape.placesOfItems_eq (position : Nat) (items : List Shape) :
    Shape.placesOfItems position items =
      Place.within ((items.zipIdx position).map fun (s, index) => (.position index, s)) := by
  induction items generalizing position with
  | nil => rfl
  | cons s rest ih =>
      rw [Shape.placesOfItems, ih]
      rfl

theorem Shape.placesOfMembers_eq (members : List (String × Shape)) :
    Shape.placesOfMembers members =
      Place.within (members.map fun (name, s) => (.key name, s)) := by
  induction members with
  | nil => rfl
  | cons m rest ih =>
      rw [Shape.placesOfMembers, ih]
      rfl

/-- A shape is a leaf, or it has its places within its children. -/
theorem Shape.leaf_or_within (s : Shape) :
    (∃ type width, s = .leaf type width) ∨
      (∀ type width, s ≠ .leaf type width) ∧ s.places = Place.within s.children := by
  cases s with
  | leaf type width => exact .inl ⟨type, width, rfl⟩
  | array items => exact .inr ⟨nofun, Shape.placesOfItems_eq 0 items⟩
  | object members => exact .inr ⟨nofun, Shape.placesOfMembers_eq members⟩
  | constant => exact .inr ⟨nofun, rfl⟩

theorem Place.mem_within {children : List (Step × Shape)} {p : Place} :
    p ∈ Place.within children ↔ ∃ c ∈ children, ∃ q ∈ c.2.places, q.under c.1 = p := by
  rw [Place.within, List.mem_flatMap]
  simp only [List.mem_map]

namespace Shape.Regular

variable {r : Registry} {s : Shape}

/-- A step leads to the places of the shape it leads to. -/
theorem mem_within (h : s.Regular r) {step : Step} {path : List Step} {type : Descriptor}
    {width : Width} :
    ⟨step :: path, type, width⟩ ∈ Place.within s.children ↔
      ∃ t, s.child? step = some t ∧ ⟨path, type, width⟩ ∈ t.places := by
  rw [Place.mem_within]
  constructor
  · rintro ⟨c, hc, q, hq, hEq⟩
    cases hEq
    exact ⟨c.2, h.mem_children.1 hc, hq⟩
  · rintro ⟨t, hChild, hMem⟩
    exact ⟨(step, t), h.mem_children.2 hChild, _, hMem, rfl⟩

/-- The places of a shape are its leaves, at the ends of their paths. -/
theorem mem_places (h : s.Regular r) {path : List Step} {type : Descriptor} {width : Width} :
    ⟨path, type, width⟩ ∈ s.places ↔ s.at? path = some (.leaf type width) := by
  induction path generalizing s with
  | nil =>
      show _ ↔ some s = some _
      rcases s.leaf_or_within with ⟨type', width', rfl⟩ | ⟨hInner, hPlaces⟩
      · show _ ∈ [_] ↔ _
        rw [List.mem_singleton]
        exact ⟨fun hEq => by cases hEq; rfl, fun hEq => by cases hEq; rfl⟩
      · rw [hPlaces, Place.mem_within]
        constructor
        · rintro ⟨c, -, q, -, hEq⟩
          cases congrArg Place.path hEq
        · intro hEq
          cases hEq
          exact absurd rfl (hInner type width)
  | cons step path ih =>
      rw [Shape.at?_cons, Option.bind_eq_some_iff]
      rcases s.leaf_or_within with ⟨type', width', rfl⟩ | ⟨-, hPlaces⟩
      · refine ⟨fun hMem => ?_, fun ⟨_, hNone, _⟩ => by cases hNone⟩
        cases List.mem_singleton.1 hMem
      · rw [hPlaces, h.mem_within]
        refine exists_congr fun t => and_congr_right fun hChild => ?_
        exact ih (h.child _ (h.mem_children.2 hChild))

/-- No two places have one path. -/
theorem nodup_places (h : s.Regular r) : (s.places.map Place.path).Nodup := by
  induction s using Shape.descend with
  | h s ih =>
      rcases s.leaf_or_within with ⟨type, width, rfl⟩ | ⟨-, hPlaces⟩
      · exact List.nodup_singleton _
      · rw [hPlaces, Place.within, List.map_flatMap, List.nodup_flatMap]
        constructor
        · intro c hc
          have hUnder : (c.2.places.map (.under c.1)).map Place.path =
              (c.2.places.map Place.path).map (c.1 :: ·) := by
            rw [List.map_map, List.map_map]
            rfl
          rw [hUnder]
          exact (ih c hc (h.child c hc)).map (List.cons_injective)
        · refine (List.pairwise_map.1 h.nodup_steps).imp fun {c d} hNe => ?_
          intro path hc hd
          obtain ⟨p, hp, rfl⟩ := List.mem_map.1 hc
          obtain ⟨p', -, rfl⟩ := List.mem_map.1 hp
          obtain ⟨q, hq, hEq⟩ := List.mem_map.1 hd
          obtain ⟨q', -, rfl⟩ := List.mem_map.1 hq
          exact hNe (List.cons.inj hEq).1.symm

/-- The leaf at a place has the width of its type. -/
theorem width_at (h : s.Regular r) : ∀ p ∈ s.places, r.width p.type = .ok p.width := by
  induction s using Shape.descend with
  | h s ih =>
      rcases s.leaf_or_within with ⟨type, width, rfl⟩ | ⟨-, hPlaces⟩
      · cases h with
        | leaf _ hWidth => exact List.forall_mem_singleton.2 hWidth
      · rw [hPlaces]
        intro p hp
        obtain ⟨c, hc, q, hq, rfl⟩ := Place.mem_within.1 hp
        exact ih c hc (h.child c hc) q hq

end Shape.Regular

/-! ## Sizes -/

/-- How many elements places take. -/
def Place.total : List Place → Nat
  | [] => 0
  | p :: rest => p.width.fields + Place.total rest

theorem Place.total_append (ps qs : List Place) :
    Place.total (ps ++ qs) = Place.total ps + Place.total qs := by
  induction ps with
  | nil => exact (Nat.zero_add _).symm
  | cons p rest ih => rw [List.cons_append, Place.total, Place.total, ih, Nat.add_assoc]

theorem Place.total_under (step : Step) (places : List Place) :
    Place.total (places.map (.under step)) = Place.total places := by
  induction places with
  | nil => rfl
  | cons p rest ih => exact congrArg (p.width.fields + ·) ih

mutual

/-- The places of a shape take as many elements as the shape. -/
theorem Shape.total_places : ∀ s : Shape, Place.total s.places = s.width.fields
  | .leaf _ width => Nat.add_zero width.fields
  | .array items => (Nat.zero_add _).symm.trans (Shape.total_placesOfItems items 0 Width.zero)
  | .object members => (Nat.zero_add _).symm.trans (Shape.total_placesOfMembers members Width.zero)
  | .constant _ => rfl

theorem Shape.total_placesOfItems : ∀ (items : List Shape) (position : Nat) (total : Width),
    total.fields + Place.total (Shape.placesOfItems position items) =
      (Shape.itemsWidth total items).fields
  | [], _, _ => rfl
  | s :: rest, position, total => by
      have hRest := Shape.total_placesOfItems rest (position + 1) (total + s.width)
      rw [Shape.placesOfItems, Place.total_append, Place.total_under, Shape.total_places s,
        ← Nat.add_assoc]
      exact hRest

theorem Shape.total_placesOfMembers : ∀ (members : List (String × Shape)) (total : Width),
    total.fields + Place.total (Shape.placesOfMembers members) =
      (Shape.membersWidth total members).fields
  | [], _ => rfl
  | (name, s) :: rest, total => by
      have hRest := Shape.total_placesOfMembers rest (total + s.width)
      rw [Shape.placesOfMembers, Place.total_append, Place.total_under, Shape.total_places s,
        ← Nat.add_assoc]
      exact hRest

end

/-! ## Flattening -/

/-- A value has at a place something that is flattened to the given elements. -/
def Place.Holds (names : Names) (v : Value) (p : Place) (fields : List Signal) : Prop :=
  ∃ sub, v.at? p.path = some sub ∧ (p.type.codec names).toFields sub = .ok fields

/-- What is found one step away has at a place what is found there from further out. -/
theorem Place.Holds.under {names : Names} {v sub : Value} {step : Step} {p : Place}
    {fields : List Signal} (hChild : v.child? step = some sub) (h : p.Holds names sub fields) :
    (p.under step).Holds names v fields := by
  obtain ⟨found, hAt, hFlat⟩ := h
  exact ⟨found, (Value.at?_cons hChild p.path).trans hAt, hFlat⟩

/-- A value is flattened to what it has at places, place after place. -/
def Place.Flattens (names : Names) (v : Value) (places : List Place) (fields : List Signal) :
    Prop :=
  ∃ chunks, List.Forall₂ (Place.Holds names v) places chunks ∧ fields = chunks.flatten

namespace Place.Flattens

variable {names : Names} {v : Value} {ps qs : List Place} {xs ys : List Signal}

theorem append : Flattens names v ps xs → Flattens names v qs ys →
    Flattens names v (ps ++ qs) (xs ++ ys) := by
  rintro ⟨chunks, hChunks, rfl⟩ ⟨others, hOthers, rfl⟩
  exact ⟨chunks ++ others, List.rel_append hChunks hOthers, List.flatten_append.symm⟩

theorem under {sub : Value} {step : Step} (hChild : v.child? step = some sub) :
    Flattens names sub ps xs → Flattens names v (ps.map (.under step)) xs := by
  rintro ⟨chunks, hChunks, rfl⟩
  exact ⟨chunks, List.forall₂_map_left_iff.2 (hChunks.imp fun _ _ h => h.under hChild), rfl⟩

/-- Values under steps are flattened one after the other. -/
theorem within {children : List (Step × Shape)} {subs : List Value}
    (h : ∀ c ∈ children, ∀ sub fields, (c.2.part names).flatten sub = .ok fields →
      Flattens names sub c.2.places fields)
    (hSubs : List.Forall₂ (fun c sub => v.child? c.1 = some sub) children subs)
    (hFlat : Part.flattenAll (children.map fun c => c.2.part names) subs = .ok xs) :
    Flattens names v (Place.within children) xs := by
  induction hSubs generalizing xs with
  | nil =>
      cases hFlat
      exact ⟨[], .nil, rfl⟩
  | @cons c sub children subs hChild _ ih =>
      obtain ⟨hHead, hRest⟩ := List.forall_mem_cons.1 h
      obtain ⟨front, rest, hFront, hBack, rfl⟩ := Part.flattenAll_cons.1 hFlat
      exact ((hHead sub front hFront).under hChild).append (ih hRest hBack)

end Place.Flattens

namespace Shape

variable {names : Names} {v : Value} {fields : List Signal}

/-- What flattens as an array has an item for each position, and they flatten. -/
theorem flatten_array {items : List Shape}
    (h : ((Shape.array items).part names).flatten v = .ok fields) :
    ∃ subs, List.Forall₂ (fun c sub => v.child? c.1 = some sub) (Shape.array items).children subs ∧
      Part.flattenAll ((Shape.array items).children.map fun c => c.2.part names) subs =
        .ok fields := by
  rw [Shape.part_array] at h
  obtain ⟨subs, hSubs, hFlat⟩ := bind_eq_ok.1 h
  obtain ⟨rfl, hLength⟩ := Part.expectItems_eq_ok.1 hSubs
  rw [List.length_map] at hLength
  refine ⟨subs, ?_, ?_⟩
  · rw [Shape.children, List.forall₂_map_left_iff, List.forall₂_iff_get]
    refine ⟨List.length_zipIdx.trans hLength.symm, fun i hItem hSub => ?_⟩
    show subs[(items.zipIdx[i]).2]? = some subs[i]
    rw [List.getElem_zipIdx, Nat.zero_add]
    exact List.getElem?_eq_getElem hSub
  · have hShapes : (Shape.array items).children.map Prod.snd = items := by
      rw [Shape.children, List.map_map]
      exact List.zipIdx_map_fst 0 items
    rw [← hShapes, List.map_map] at hFlat
    exact hFlat

/-- What flattens as an object has a member for each key, and they flatten. -/
theorem flatten_object {members : List (String × Shape)}
    (h : ((Shape.object members).part names).flatten v = .ok fields) :
    ∃ subs,
      List.Forall₂ (fun c sub => v.child? c.1 = some sub) (Shape.object members).children subs ∧
        Part.flattenAll ((Shape.object members).children.map fun c => c.2.part names) subs =
          .ok fields := by
  rw [Shape.part_object] at h
  obtain ⟨subs, hSubs, hFlat⟩ := Part.flattenMembers_eq_ok.1 h
  refine ⟨subs, ?_, ?_⟩
  · rw [List.map_map, Part.Finds, List.forall₂_map_left_iff] at hSubs
    rw [Shape.children, List.forall₂_map_left_iff]
    refine hSubs.imp fun m sub hFound => ?_
    obtain ⟨tag?, record, rfl, hFind⟩ := Part.lookupKey_eq_ok.1 hFound
    exact hFind
  · rw [Shape.children, List.map_map]
    rw [List.map_map] at hFlat
    exact hFlat

/-- A value is flattened to what it has at each place of its shape, place after place. -/
theorem flatten_places (s : Shape) (h : (s.part names).flatten v = .ok fields) :
    Place.Flattens names v s.places fields := by
  induction s using Shape.descend generalizing v fields with
  | h s ih =>
      have hInner : ∀ c ∈ s.children, ∀ sub fields, (c.2.part names).flatten sub = .ok fields →
          Place.Flattens names sub c.2.places fields := fun c hc _ _ hFlat => ih c hc hFlat
      cases s with
      | leaf type width => exact ⟨[fields], .cons ⟨v, rfl, h⟩ .nil, (List.append_nil fields).symm⟩
      | array items =>
          obtain ⟨subs, hSubs, hFlat⟩ := flatten_array h
          rw [Shape.places, Shape.placesOfItems_eq]
          exact .within hInner hSubs hFlat
      | object members =>
          obtain ⟨subs, hSubs, hFlat⟩ := flatten_object h
          rw [Shape.places, Shape.placesOfMembers_eq]
          exact .within hInner hSubs hFlat
      | constant json =>
          obtain ⟨_, -, rfl⟩ := map_eq_ok.1 h
          exact ⟨[], .nil, rfl⟩

end Shape

end TypedCircuit
