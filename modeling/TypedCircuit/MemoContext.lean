import TypedCircuit.Value

/-!
# Memoization contexts

A memoization context pins the values of witnesses across passes. It holds numbered slots
and a cursor. A pass reserves the slot at the cursor for each of its memoized witnesses,
in the order of their calls; a slot that is filled is replayed, and an empty one is
filled once its computation has succeeded. Rewinding moves the cursor back to the first
slot, so that the next pass meets the same slots in the same order.

A context also keeps one blinding value, drawn when it is first asked for.

## Main results

* `slot?_fill_self`, `slot?_fill_ne` — filling changes one slot that was reserved.
* `slot?_reserve` — reserving a slot changes no slot's content.
-/

namespace TypedCircuit

/-- A pinned value: its elements and its auxiliary data. -/
structure Slot where
  fields : List Element
  aux : List Value

/-- Equality of elements and of the wiring of auxiliary data. -/
def Slot.beq (a b : Slot) : Bool := a.fields == b.fields && a.aux == b.aux

instance : BEq Slot := ⟨Slot.beq⟩

/-- Pinned values of one construction. -/
structure MemoContext where
  /-- The slots that were reserved; an empty one has no value yet. -/
  slots : Array (Option Slot)
  /-- The slot that is reserved next. -/
  cursor : Nat
  /-- The blinding value, once it is drawn. -/
  blinding? : Option Element

namespace MemoContext

/-- The context without slots. -/
def empty : MemoContext := ⟨#[], 0, none⟩

instance : Inhabited MemoContext := ⟨empty⟩

/-- Equality of everything a context holds. -/
def beq (a b : MemoContext) : Bool :=
  a.slots == b.slots && a.cursor == b.cursor && a.blinding? == b.blinding?

instance : BEq MemoContext := ⟨beq⟩

/-- Moves the cursor back to the first slot. -/
def rewind (ctx : MemoContext) : MemoContext := { ctx with cursor := 0 }

/-- The content of a slot. -/
def slot? (ctx : MemoContext) (index : Nat) : Option Slot := (ctx.slots[index]?).join

/-- How many slots are filled. -/
def filled (ctx : MemoContext) : Nat := ctx.slots.countP Option.isSome

/-- Reserves the slot at the cursor; returns its index and its content. -/
def reserve (ctx : MemoContext) : (Nat × Option Slot) × MemoContext :=
  let index := ctx.cursor
  let missing := index + 1 - ctx.slots.size
  ((index, ctx.slot? index),
    { ctx with
      slots := ctx.slots ++ Array.replicate missing none
      cursor := index + 1 })

/-- Fills a slot that was reserved. -/
def fill (ctx : MemoContext) (index : Nat) (slot : Slot) : MemoContext :=
  { ctx with slots := ctx.slots.setIfInBounds index (some slot) }

theorem slot?_reserve (ctx : MemoContext) (index : Nat) :
    ctx.reserve.2.slot? index = ctx.slot? index := by
  simp only [reserve, slot?, Array.getElem?_append]
  split
  · rfl
  · next h =>
      rw [Array.getElem?_eq_none (by omega : ctx.slots.size ≤ index)]
      cases hGet : (Array.replicate (ctx.cursor + 1 - ctx.slots.size)
          (none : Option Slot))[index - ctx.slots.size]? with
      | none => rfl
      | some entry =>
          rw [Array.getElem?_replicate] at hGet
          split at hGet
          · cases hGet; rfl
          · cases hGet

theorem slot?_fill_self {ctx : MemoContext} {index : Nat} (slot : Slot)
    (h : index < ctx.slots.size) : (ctx.fill index slot).slot? index = some slot := by
  simp [fill, slot?, h]

theorem slot?_fill_ne (ctx : MemoContext) {index other : Nat} (slot : Slot)
    (h : index ≠ other) : (ctx.fill index slot).slot? other = ctx.slot? other := by
  simp [fill, slot?, Array.getElem?_setIfInBounds_ne h]

end MemoContext

end TypedCircuit
