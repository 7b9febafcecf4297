import TypedCircuit.Proofs.Documents.Layouts
import TypedCircuit.Proofs.Literals

/-!
# When the paths of a layout tell its leaves apart

A layout shows the path to a leaf as text, with a slash before every key and every position. Keys
are shown as they are, so a slash inside a key looks like the one between two keys. Two leaves
are shown under one path exactly if they part at an object where the key of the one continues the
key of the other after a slash, and the path of the other goes on with what the key continues with.
Positions never do this, and neither do keys without slashes.

## Main results

* `Shape.ambiguous_of_texts_eq` — leaves at different places with one text are such a pair.
* `ShapeDocument.paths_nodup_iff` — the paths of a layout are distinct exactly if there is no such
  pair.
-/

namespace TypedCircuit

/-! ## Texts of paths -/

theorem Step.texts_append (p q : List Step) : Step.texts (p ++ q) = Step.texts p ++ Step.texts q := by
  induction p with
  | nil => exact String.empty_append.symm
  | cons step p ih => rw [List.cons_append, texts, texts, ih, String.append_assoc]

/-- What follows a step begins with a slash, if anything follows. -/
theorem Step.texts_starts (path : List Step) :
    (Step.texts path).toList = [] ∨ ∃ cs, (Step.texts path).toList = '/' :: cs := by
  cases path with
  | nil => exact .inl rfl
  | cons step path =>
      right
      cases step with
      | key name => exact ⟨_, by rw [texts, text, String.append_assoc, String.toList_append]; rfl⟩
      | position index =>
          exact ⟨_, by rw [texts, text, String.append_assoc, String.toList_append]; rfl⟩

private theorem takeWhile_digits {n : Nat} {cs : List Char}
    (h : cs = [] ∨ ∃ rest, cs = '/' :: rest) :
    ((toString n).toList ++ cs).takeWhile Char.isDigit = Nat.toDigits 10 n := by
  rw [Nat.toString_eq_ofList_toDigits, String.toList_ofList,
    List.takeWhile_append_of_pos isDigit_of_mem]
  rcases h with rfl | ⟨rest, rfl⟩
  · exact List.append_nil _
  · rw [List.takeWhile_cons_of_neg (by decide), List.append_nil]

/-- Positions that are followed by paths are told apart: their digits end where a path begins. -/
theorem Step.position_eq_of_texts_eq {i j : Nat} {p q : List Step}
    (h : Step.texts (.position i :: p) = Step.texts (.position j :: q)) : i = j := by
  rw [texts, texts, text, text, String.append_assoc, String.append_assoc,
    String.append_right_inj] at h
  have hChars := congrArg String.toList h
  rw [String.toList_append, String.toList_append] at hChars
  have hDigits := congrArg (List.takeWhile Char.isDigit) hChars
  rw [takeWhile_digits (texts_starts p), takeWhile_digits (texts_starts q)] at hDigits
  have hValues := congrArg Element.digitsValue? hDigits
  rw [Element.digitsValue?_toDigits, Element.digitsValue?_toDigits] at hValues
  exact Option.some.inj hValues

/-- What a longer key adds to a shorter one begins as a path does, with a slash. -/
private theorem Step.longer_key {k l : String} {p q : List Step} {cs : List Char} (hNe : k ≠ l)
    (h : k ++ Step.texts p = l ++ Step.texts q) (hl : l.toList = k.toList ++ cs) :
    ∃ rest, l = k ++ "/" ++ rest ∧ Step.texts p = "/" ++ rest ++ Step.texts q := by
  have hKey : l = k ++ String.ofList cs :=
    String.toList_injective (by rw [hl, String.toList_append, String.toList_ofList])
  rw [hKey, String.append_assoc, String.append_right_inj] at h
  have hChars := congrArg String.toList h
  rw [String.toList_append, String.toList_ofList] at hChars
  cases cs with
  | nil => exact absurd (hKey.trans String.append_empty).symm hNe
  | cons c cs =>
      have hSlash : c = '/' := by
        rcases texts_starts p with hNil | ⟨rest, hCons⟩
        · rw [hNil] at hChars
          cases hChars
        · rw [hCons] at hChars
          exact (List.cons.inj hChars).1.symm
      subst hSlash
      have hText : String.ofList ('/' :: cs) = "/" ++ String.ofList cs :=
        String.toList_injective (by
          rw [String.toList_append, String.toList_ofList, String.toList_ofList]
          exact congrArg ('/' :: ·) String.toList_ofList.symm)
      rw [hText] at hKey h
      exact ⟨String.ofList cs, hKey.trans String.append_assoc.symm, h⟩

/-- If keys that are followed by paths are not told apart, one of them continues the other after a
slash. -/
theorem Step.key_continues {k l : String} {p q : List Step} (hNe : k ≠ l)
    (h : Step.texts (.key k :: p) = Step.texts (.key l :: q)) :
    (∃ rest, l = k ++ "/" ++ rest ∧ Step.texts p = "/" ++ rest ++ Step.texts q) ∨
      ∃ rest, k = l ++ "/" ++ rest ∧ Step.texts q = "/" ++ rest ++ Step.texts p := by
  rw [texts, texts, text, text, String.append_assoc, String.append_assoc,
    String.append_right_inj] at h
  have hChars := congrArg String.toList h
  rw [String.toList_append, String.toList_append] at hChars
  rcases List.append_eq_append_iff.1 hChars with ⟨cs, hl, -⟩ | ⟨cs, hk, -⟩
  · exact .inl (longer_key hNe h hl)
  · exact .inr (longer_key hNe.symm h.symm hk)

/-! ## Leaves -/

/-- A path leads to a leaf. -/
def Shape.IsLeafAt (s : Shape) (path : List Step) : Prop :=
  ∃ type width, s.at? path = some (.leaf type width)

/-- Two leaves part at an object where the key of the second continues the key of the first after a
slash, and the path of the first goes on with what the key of the second continues with. -/
def Shape.Ambiguous (s : Shape) : Prop :=
  ∃ (path : List Step) (key rest : String) (p q : List Step),
    s.IsLeafAt (path ++ .key key :: p) ∧ s.IsLeafAt (path ++ .key (key ++ "/" ++ rest) :: q) ∧
      Step.texts p = "/" ++ rest ++ Step.texts q

namespace Shape

variable {s t : Shape} {step : Step} {path p q : List Step}

/-- A path to a leaf goes through a child. -/
theorem isLeafAt_cons :
    s.IsLeafAt (step :: path) ↔ ∃ t, s.child? step = some t ∧ t.IsLeafAt path := by
  constructor
  · rintro ⟨type, width, hAt⟩
    rw [at?_cons] at hAt
    obtain ⟨t, hChild, hAt⟩ := Option.bind_eq_some_iff.1 hAt
    exact ⟨t, hChild, type, width, hAt⟩
  · rintro ⟨t, hChild, type, width, hAt⟩
    refine ⟨type, width, ?_⟩
    rw [at?_cons, hChild]
    exact hAt

/-- Nothing is inside a leaf. -/
theorem not_isLeafAt_cons (h : s.IsLeafAt []) : ¬ s.IsLeafAt (step :: path) := by
  obtain ⟨type, width, hLeaf⟩ := h
  cases hLeaf
  intro hCons
  obtain ⟨t, hChild, -⟩ := isLeafAt_cons.1 hCons
  cases hChild

/-- A leaf that is the whole shape is the only one. -/
theorem ne_nil_of_ne (hp : s.IsLeafAt p) (hq : s.IsLeafAt q) (hNe : p ≠ q) : p ≠ [] := by
  rintro rfl
  cases q with
  | nil => exact hNe rfl
  | cons step q => exact not_isLeafAt_cons hp hq

theorem Ambiguous.of_child (hChild : s.child? step = some t) (h : t.Ambiguous) : s.Ambiguous := by
  obtain ⟨path, key, rest, p, q, hp, hq, hText⟩ := h
  exact ⟨step :: path, key, rest, p, q, isLeafAt_cons.2 ⟨t, hChild, hp⟩,
    isLeafAt_cons.2 ⟨t, hChild, hq⟩, hText⟩

/-- Leaves in different children that have one text are in members whose keys are not told apart. -/
theorem ambiguous_of_children {other : Step} {u : Shape} (hChild : s.child? step = some t)
    (hOther : s.child? other = some u) (hp : s.IsLeafAt (step :: p)) (hq : s.IsLeafAt (other :: q))
    (hNe : step ≠ other) (hText : Step.texts (step :: p) = Step.texts (other :: q)) :
    s.Ambiguous := by
  cases s with
  | leaf | constant => cases hChild
  | array items =>
      cases step with
      | key name => cases hChild
      | position i =>
          cases other with
          | key name => cases hOther
          | position j => exact absurd (congrArg _ (Step.position_eq_of_texts_eq hText)) hNe
  | object members =>
      cases step with
      | position i => cases hChild
      | key k =>
          cases other with
          | position j => cases hOther
          | key l =>
              have hKeys : k ≠ l := fun h => hNe (congrArg _ h)
              rcases Step.key_continues hKeys hText with ⟨rest, rfl, hRest⟩ | ⟨rest, rfl, hRest⟩
              · exact ⟨[], k, rest, p, q, hp, hq, hRest⟩
              · exact ⟨[], l, rest, q, p, hq, hp, hRest⟩

/-- Leaves at different places that have one text part at keys that are not told apart. -/
theorem ambiguous_of_texts_eq (hp : s.IsLeafAt p) (hq : s.IsLeafAt q) (hNe : p ≠ q)
    (hText : Step.texts p = Step.texts q) : s.Ambiguous := by
  induction p generalizing s q with
  | nil => exact absurd rfl (ne_nil_of_ne hp hq hNe)
  | cons step p ih =>
      cases q with
      | nil => exact absurd rfl (ne_nil_of_ne hq hp hNe.symm)
      | cons other q =>
          obtain ⟨t, hChild, ht⟩ := isLeafAt_cons.1 hp
          obtain ⟨u, hOther, hu⟩ := isLeafAt_cons.1 hq
          by_cases hStep : step = other
          · subst hStep
            cases hChild.symm.trans hOther
            rw [Step.texts, Step.texts, String.append_right_inj] at hText
            exact (ih ht hu (fun h => hNe (congrArg _ h)) hText).of_child hChild
          · exact ambiguous_of_children hChild hOther hp hq hStep hText

/-- Leaves that are not told apart are at different places and have one text. -/
theorem Ambiguous.texts_eq (h : s.Ambiguous) :
    ∃ p q, s.IsLeafAt p ∧ s.IsLeafAt q ∧ p ≠ q ∧ p ≠ [] ∧ q ≠ [] ∧
      Step.texts p = Step.texts q := by
  obtain ⟨path, key, rest, p, q, hp, hq, hText⟩ := h
  refine ⟨_, _, hp, hq, fun hEq => ?_, by simp, by simp, ?_⟩
  · have hKeys := (List.cons.inj (List.append_cancel_left hEq)).1
    have hLength := congrArg String.length (Step.key.inj hKeys)
    rw [String.length_append, String.length_append] at hLength
    have hSlash : "/".length = 1 := rfl
    omega
  · rw [Step.texts_append, Step.texts_append, Step.texts, Step.texts, Step.text, Step.text, hText]
    simp only [String.append_assoc]

/-- Keys without slashes are told apart. -/
theorem not_ambiguous_of_plain
    (h : ∀ path, s.IsLeafAt path → ∀ key, .key key ∈ path → '/' ∉ key.toList) :
    ¬ s.Ambiguous := by
  rintro ⟨path, key, rest, p, q, -, hq, -⟩
  refine h _ hq (key ++ "/" ++ rest) (List.mem_append_right _ List.mem_cons_self) ?_
  rw [String.toList_append, String.toList_append]
  exact List.mem_append_left _ (List.mem_append_right _ (List.mem_singleton_self _))

end Shape

/-! ## Layouts -/

theorem Layout.paths_entriesFrom (places : List Place) (offset : Nat) :
    (entriesFrom offset places).map LayoutEntry.path = places.map Place.text := by
  induction places generalizing offset with
  | nil => rfl
  | cons p places ih => exact congrArg (p.text :: ·) (ih _)

theorem Place.text_of_ne_nil {p : Place} (h : p.path ≠ []) : p.text = Step.texts p.path := by
  obtain ⟨path, type, width⟩ := p
  cases path with
  | nil => exact absurd rfl h
  | cons => rfl

/-- The texts of the leaves of a shape are distinct exactly if the shape is not ambiguous. -/
theorem Shape.Regular.texts_nodup_iff {r : Registry} {s : Shape} (h : s.Regular r) :
    (s.places.map Place.text).Nodup ↔ ¬ s.Ambiguous := by
  have hLeaf : ∀ p ∈ s.places, s.IsLeafAt p.path := fun p hp =>
    ⟨p.type, p.width, h.mem_places.1 hp⟩
  constructor
  · intro hNodup hAmbiguous
    obtain ⟨p, q, ⟨type, width, hp⟩, ⟨type', width', hq⟩, hNe, hpNil, hqNil, hText⟩ :=
      hAmbiguous.texts_eq
    have hSame : (⟨p, type, width⟩ : Place).text = (⟨q, type', width'⟩ : Place).text := by
      rw [Place.text_of_ne_nil hpNil, Place.text_of_ne_nil hqNil]
      exact hText
    have hPlaces := List.inj_on_of_nodup_map hNodup (h.mem_places.2 hp) (h.mem_places.2 hq) hSame
    exact hNe (congrArg Place.path hPlaces)
  · intro hPlain
    refine List.Nodup.map_on (fun p hp q hq hSame => ?_) (h.nodup_places.of_map _)
    refine List.inj_on_of_nodup_map h.nodup_places hp hq ?_
    by_contra hNe
    have hpNil := ne_nil_of_ne (hLeaf p hp) (hLeaf q hq) hNe
    have hqNil := ne_nil_of_ne (hLeaf q hq) (hLeaf p hp) (Ne.symm hNe)
    rw [Place.text_of_ne_nil hpNil, Place.text_of_ne_nil hqNil] at hSame
    exact hPlain (ambiguous_of_texts_eq (hLeaf p hp) (hLeaf q hq) hNe hSame)

/-- Shapes with leaves at the same places are ambiguous together. -/
theorem Shape.ambiguous_congr {s t : Shape} (h : ∀ path, s.IsLeafAt path ↔ t.IsLeafAt path) :
    s.Ambiguous ↔ t.Ambiguous := by
  simp only [Ambiguous, h]

/-- The paths of the layout of a shape document are distinct exactly if the shape is not ambiguous,
and so they are if no key on the way to a leaf has a slash. The document has each key once, as
documents that were read do. -/
theorem ShapeDocument.paths_nodup_iff {json : Json} (hOrdered : json.Ordered)
    {doc : ShapeDocument} (hParse : ShapeDocument.parse json = .ok doc) {d : Descriptor}
    (hType : doc.descriptor = .ok d) :
    (((Layout.ofDocument doc).map LayoutEntry.path).Nodup ↔ ¬ doc.shape.Ambiguous) ∧
      ((∀ path, doc.shape.IsLeafAt path → ∀ key, .key key ∈ path → '/' ∉ key.toList) →
        ((Layout.ofDocument doc).map LayoutEntry.path).Nodup) := by
  obtain ⟨root, rfl, hLayout, hLeaves⟩ := ofDocument_eq hType
  have hRegular : root.Regular Registry.empty := by
    cases (ShapeDocument.readable hOrdered hParse hType).regular with
    | structural hRoot => exact hRoot
  have hSame : root.Ambiguous ↔ doc.shape.Ambiguous :=
    Shape.ambiguous_congr fun path => exists_congr fun type => exists_congr fun width =>
      hLeaves path type width
  have hNodup : ((Layout.ofDocument doc).map LayoutEntry.path).Nodup ↔ ¬ doc.shape.Ambiguous := by
    rw [hLayout, Layout.paths_entriesFrom, hRegular.texts_nodup_iff, hSame]
  exact ⟨hNodup, fun hPlain => hNodup.2 (Shape.not_ambiguous_of_plain hPlain)⟩

/-! ## A key with a slash -/

/-- The document of a shape with a member inside a member, and with a member whose key has a
slash. -/
private def nested (inner : String) : Json := .object
  [("shape", .object [("a", .object [(inner, .string "Field")]), ("a/b", .string "Bool")])]

/-- The shape of such a document. -/
private def nestedShape (inner : String) : ShapeDocument where
  shape := .object [("a", .object [(inner, .ofLeaf .field)]), ("a/b", .ofLeaf .boolean)]
  order? := none

private theorem ordered_nested (inner : String) : (nested inner).Ordered := by
  have hInner : (Json.object [(inner, .string "Field")]).Ordered :=
    .object (List.pairwise_singleton _ _) (List.forall_mem_singleton.2 (.string _))
  refine .object (List.pairwise_singleton _ _) (List.forall_mem_singleton.2 ?_)
  have hKeys : ["a", "a/b"].Pairwise (· < ·) := by decide
  exact .object hKeys (List.forall_mem_cons.2 ⟨hInner, List.forall_mem_singleton.2 (.string _)⟩)

/-- The member `c` of `a` and the member `a/b` are told apart. -/
theorem paths_nodup_iff_nested :
    (nested "c").Ordered ∧ ShapeDocument.parse (nested "c") = .ok (nestedShape "c") ∧
      (nestedShape "c").descriptor = .ok (.structural (nestedShape "c").shape) ∧
      ¬ (nestedShape "c").shape.Ambiguous := by
  have hParse : ShapeDocument.parse (nested "c") = .ok (nestedShape "c") := rfl
  have hType : (nestedShape "c").descriptor = .ok (.structural (nestedShape "c").shape) := rfl
  have hPaths : ((Layout.ofDocument (nestedShape "c")).map LayoutEntry.path).Nodup := by
    rw [show (Layout.ofDocument (nestedShape "c")).map LayoutEntry.path = ["/a/c", "/a/b"] from rfl]
    decide
  exact ⟨ordered_nested "c", hParse, hType,
    (ShapeDocument.paths_nodup_iff (ordered_nested "c") hParse hType).1.1 hPaths⟩

/-- The member `b` of `a` and the member `a/b` have one path. -/
theorem paths_not_nodup_nested :
    ∃ doc d, ShapeDocument.parse (nested "b") = .ok doc ∧ doc.descriptor = .ok d ∧
      ¬ ((Layout.ofDocument doc).map LayoutEntry.path).Nodup := by
  refine ⟨nestedShape "b", .structural (nestedShape "b").shape, rfl, rfl, ?_⟩
  rw [show (Layout.ofDocument (nestedShape "b")).map LayoutEntry.path = ["/a/b", "/a/b"] from rfl]
  decide

end TypedCircuit
