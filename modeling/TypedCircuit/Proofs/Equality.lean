import TypedCircuit.Value

/-!
# Equality of documents and of wiring

Documents and values are compared by `==`, which is coarser than equality of forms: the two
zeros among the binary64 numbers are one number, and no binary64 number of a document is
undefined. So a document has a content, in which every zero is written without a sign, and two
documents are equal if and only if their contents are one. The same holds of values. Equality is
therefore an equivalence, although it does not follow from the forms that it is.

## Main results

* `Json.beq_iff`, `Value.beq_iff` — two documents, or two values, are equal if they have one content.
-/

namespace TypedCircuit

/-! ## Numbers -/

/-- The number, without a sign if it is zero. -/
def Binary64.content (x : Binary64) : Binary64 := if x.isZero then zero false else x

theorem Binary64.sameValue_iff {x y : Binary64} :
    x.sameValue y = true ↔ x.content = y.content := by
  have hZero : (zero false).isZero = true := rfl
  unfold Binary64.sameValue Binary64.content
  by_cases hx : x.isZero = true
  · by_cases hy : y.isZero = true
    · rw [if_pos hx, if_pos hx, if_pos hy]
      exact iff_of_true hy rfl
    · rw [if_pos hx, if_pos hx, if_neg hy]
      exact iff_of_false hy fun h => hy (h ▸ hZero)
  · by_cases hy : y.isZero = true
    · rw [if_neg hx, if_neg hx, if_pos hy, beq_iff_eq]
      exact iff_of_false (fun h => hx (h ▸ hy)) fun h => hx (h ▸ hZero)
    · rw [if_neg hx, if_neg hx, if_neg hy, beq_iff_eq]

/-- The number, without a sign if it is zero. -/
def JsonNumber.content : JsonNumber → JsonNumber
  | .integer value => .integer value
  | .float value => .float value.content

theorem JsonNumber.beq_iff {x y : JsonNumber} : (x == y) = true ↔ x.content = y.content := by
  cases x with
  | integer value =>
      cases y with
      | integer other =>
          show (value == other) = true ↔ JsonNumber.integer value = .integer other
          rw [beq_iff_eq, JsonNumber.integer.injEq]
      | float other => exact ⟨nofun, nofun⟩
  | float value =>
      cases y with
      | integer other => exact ⟨nofun, nofun⟩
      | float other =>
          show value.sameValue other = true ↔ JsonNumber.float value.content = .float other.content
          rw [Binary64.sameValue_iff, JsonNumber.float.injEq]

/-! ## Documents -/

namespace Json

mutual

/-- The document, with every zero among its binary64 numbers written without a sign. -/
def content : Json → Json
  | .null => .null
  | .bool value => .bool value
  | .number value => .number value.content
  | .string value => .string value
  | .array items => .array (contentOfItems items)
  | .object members => .object (contentOfMembers members)

/-- The contents of items. -/
def contentOfItems : List Json → List Json
  | [] => []
  | json :: rest => json.content :: contentOfItems rest

/-- The contents of members. -/
def contentOfMembers : List (String × Json) → List (String × Json)
  | [] => []
  | (key, json) :: rest => (key, json.content) :: contentOfMembers rest

end

mutual

/-- Two documents are equal if they have one content. -/
theorem beq_iff : ∀ x y : Json, x.beq y = true ↔ x.content = y.content
  | .null, y => by cases y <;> simp [beq, content]
  | .bool value, y => by cases y <;> simp [beq, content]
  | .number value, y => by cases y <;> simp [beq, content, JsonNumber.beq_iff]
  | .string value, y => by cases y <;> simp [beq, content]
  | .array items, y => by cases y <;> simp [beq, content, beqItems_iff items]
  | .object members, y => by cases y <;> simp [beq, content, beqMembers_iff members]

theorem beqItems_iff : ∀ xs ys : List Json,
    beqItems xs ys = true ↔ contentOfItems xs = contentOfItems ys
  | [], ys => by cases ys <;> simp [beqItems, contentOfItems]
  | x :: xs, ys => by cases ys <;> simp [beqItems, contentOfItems, beq_iff x, beqItems_iff xs]

theorem beqMembers_iff : ∀ xs ys : List (String × Json),
    beqMembers xs ys = true ↔ contentOfMembers xs = contentOfMembers ys
  | [], ys => by cases ys <;> simp [beqMembers, contentOfMembers]
  | (key, x) :: xs, ys => by
      cases ys <;> simp [beqMembers, contentOfMembers, beq_iff x, beqMembers_iff xs, and_assoc]

end

instance : EquivBEq Json where
  rfl {x} := (beq_iff x x).2 rfl
  symm {x y} h := (beq_iff y x).2 ((beq_iff x y).1 h).symm
  trans {x y z} h h' := (beq_iff x z).2 (((beq_iff x y).1 h).trans ((beq_iff y z).1 h'))

end Json

/-! ## Values -/

namespace Value

mutual

/-- The value, with every zero among its binary64 numbers written without a sign. -/
def content : Value → Value
  | .signal s => .signal s
  | .bit b => .bit b
  | .array items => .array (contentOfItems items)
  | .record typeName? members => .record typeName? (contentOfMembers members)
  | .primitive json => .primitive json.content
  | .opaqueValue identity => .opaqueValue identity

/-- The contents of items. -/
def contentOfItems : List Value → List Value
  | [] => []
  | v :: rest => v.content :: contentOfItems rest

/-- The contents of members. -/
def contentOfMembers : List (String × Value) → List (String × Value)
  | [] => []
  | (name, v) :: rest => (name, v.content) :: contentOfMembers rest

end

theorem primitive_beq_iff (x y : Json) : (x == y) = true ↔ x.content = y.content := Json.beq_iff x y

mutual

/-- Two values have the same wiring if they have one content. -/
theorem beq_iff : ∀ v w : Value, v.beq w = true ↔ v.content = w.content
  | .signal s, w => by cases w <;> simp [beq, content]
  | .bit b, w => by cases w <;> simp [beq, content]
  | .array items, w => by cases w <;> simp [beq, content, beqItems_iff items]
  | .record typeName? members, w => by cases w <;> simp [beq, content, beqMembers_iff members]
  | .primitive json, w => by cases w <;> simp [beq, content, primitive_beq_iff]
  | .opaqueValue identity, w => by cases w <;> simp [beq, content]

theorem beqItems_iff : ∀ xs ys : List Value,
    beqItems xs ys = true ↔ contentOfItems xs = contentOfItems ys
  | [], ys => by cases ys <;> simp [beqItems, contentOfItems]
  | x :: xs, ys => by cases ys <;> simp [beqItems, contentOfItems, beq_iff x, beqItems_iff xs]

theorem beqMembers_iff : ∀ xs ys : List (String × Value),
    beqMembers xs ys = true ↔ contentOfMembers xs = contentOfMembers ys
  | [], ys => by cases ys <;> simp [beqMembers, contentOfMembers]
  | (name, x) :: xs, ys => by
      cases ys <;> simp [beqMembers, contentOfMembers, beq_iff x, beqMembers_iff xs, and_assoc]

end

/-- Every value equals itself. -/
theorem beq_refl (v : Value) : v.beq v = true := (beq_iff v v).2 rfl

instance : EquivBEq Value where
  rfl {v} := v.beq_refl
  symm {v w} h := (beq_iff w v).2 ((beq_iff v w).1 h).symm
  trans {v w u} h h' := (beq_iff v u).2 (((beq_iff v w).1 h).trans ((beq_iff w u).1 h'))

end Value

end TypedCircuit
