import TypedCircuit.MemoContext
import TypedCircuit.Proofs.Codec.Law

/-!
# How memoization contexts grow

While a body is executed in a context, the cursor moves on. No slot that is filled changes, no
slot that was passed over is filled later, and the slots from the cursor on stay empty if they
were empty. What is filled is the elements and the auxiliary data of a value that flattens, so
the auxiliary data are host data.

Slots are filled after the cursor has passed them, and by then further slots may have been taken.
Growing is therefore stated from the moment before a slot is reserved to the moment after it is
filled, and not for the filling alone.

## Main results

* `MemoContext.Extends.trans` — growing in steps is growing.
* `MemoContext.extends_reserve`, `MemoContext.extends_fill` — reserving a slot, and filling it
  after other slots were taken.
-/

namespace TypedCircuit.MemoContext

variable {ctx between ctx' : MemoContext}

/-- From the cursor on nothing is filled. -/
def Fresh (ctx : MemoContext) : Prop := ∀ index, ctx.cursor ≤ index → ctx.slot? index = none

/-- Auxiliary data that are pinned are host data. -/
def Sound (ctx : MemoContext) : Prop :=
  ∀ index slot, ctx.slot? index = some slot → ∀ a ∈ slot.aux, a.HostData

/-- A context has grown to another one. -/
structure Extends (ctx ctx' : MemoContext) : Prop where
  cursor_le : ctx.cursor ≤ ctx'.cursor
  size_le : ctx.slots.size ≤ ctx'.slots.size
  slot?_eq {index : Nat} (h : index < ctx.cursor) : ctx'.slot? index = ctx.slot? index
  slot?_some {index : Nat} {slot : Slot} (h : ctx.slot? index = some slot) :
    ctx'.slot? index = some slot
  fresh (h : ctx.Fresh) : ctx'.Fresh
  sound (h : ctx.Sound) : ctx'.Sound

theorem fresh_empty : empty.Fresh := fun _ _ => rfl

theorem sound_empty : empty.Sound := fun _ _ => nofun

theorem Extends.refl (ctx : MemoContext) : ctx.Extends ctx :=
  ⟨Nat.le_refl _, Nat.le_refl _, fun _ => rfl, id, id, id⟩

theorem Extends.trans (h : ctx.Extends between) (h' : between.Extends ctx') :
    ctx.Extends ctx' where
  cursor_le := Nat.le_trans h.cursor_le h'.cursor_le
  size_le := Nat.le_trans h.size_le h'.size_le
  slot?_eq hIndex := (h'.slot?_eq (Nat.lt_of_lt_of_le hIndex h.cursor_le)).trans (h.slot?_eq hIndex)
  slot?_some hSlot := h'.slot?_some (h.slot?_some hSlot)
  fresh hFresh := h'.fresh (h.fresh hFresh)
  sound hSound := h'.sound (h.sound hSound)

theorem cursor_reserve (ctx : MemoContext) : ctx.reserve.2.cursor = ctx.cursor + 1 := rfl

theorem reserve_fst (ctx : MemoContext) :
    ctx.reserve.1 = (ctx.cursor, ctx.slot? ctx.cursor) := rfl

theorem size_reserve (ctx : MemoContext) : ctx.cursor < ctx.reserve.2.slots.size := by
  show ctx.cursor < (ctx.slots ++ Array.replicate (ctx.cursor + 1 - ctx.slots.size) none).size
  rw [Array.size_append, Array.size_replicate]
  omega

/-- Reserving a slot moves the cursor on. -/
theorem extends_reserve (ctx : MemoContext) : ctx.Extends ctx.reserve.2 where
  cursor_le := Nat.le_succ _
  size_le := by
    show _ ≤ (ctx.slots ++ Array.replicate (ctx.cursor + 1 - ctx.slots.size) none).size
    rw [Array.size_append]
    omega
  slot?_eq _ := slot?_reserve ctx _
  slot?_some hSlot := (slot?_reserve ctx _).trans hSlot
  fresh hFresh index hIndex := by
    rw [slot?_reserve]
    exact hFresh index (Nat.le_of_succ_le hIndex)
  sound hSound index slot hSlot := by
    rw [slot?_reserve] at hSlot
    exact hSound index slot hSlot

/-- A slot that was reserved and is empty is filled after the context has grown. -/
theorem extends_fill (hEmpty : ctx.slot? ctx.cursor = none) (h : ctx.reserve.2.Extends ctx')
    {slot : Slot} (hHost : ∀ a ∈ slot.aux, a.HostData) : ctx.Extends (ctx'.fill ctx.cursor slot) where
  cursor_le := Nat.le_trans (extends_reserve ctx).cursor_le h.cursor_le
  size_le := by
    show _ ≤ (ctx'.slots.setIfInBounds _ _).size
    rw [Array.size_setIfInBounds]
    exact Nat.le_trans (extends_reserve ctx).size_le h.size_le
  slot?_eq {index} hIndex := by
    rw [slot?_fill_ne ctx' slot (Nat.ne_of_gt hIndex), h.slot?_eq (Nat.lt_succ_of_lt hIndex),
      slot?_reserve]
  slot?_some {index filled} hFilled := by
    have hOther : ctx.cursor ≠ index := by
      rintro rfl
      rw [hEmpty] at hFilled
      cases hFilled
    rw [slot?_fill_ne ctx' slot hOther]
    exact h.slot?_some ((slot?_reserve ctx index).trans hFilled)
  fresh hFresh index hIndex := by
    have hPassed : ctx.cursor < index := Nat.lt_of_lt_of_le h.cursor_le hIndex
    rw [slot?_fill_ne ctx' slot (Nat.ne_of_lt hPassed)]
    exact h.fresh ((extends_reserve ctx).fresh hFresh) index hIndex
  sound hSound index filled hFilled := by
    by_cases hIndex : ctx.cursor = index
    · subst hIndex
      rw [slot?_fill_self slot (Nat.lt_of_lt_of_le (size_reserve ctx) h.size_le)] at hFilled
      cases hFilled
      exact hHost
    · rw [slot?_fill_ne ctx' slot hIndex] at hFilled
      exact h.sound ((extends_reserve ctx).sound hSound) index filled hFilled

/-- The slot that was reserved has what it was filled with. -/
theorem slot?_fill_reserved (h : ctx.reserve.2.Extends ctx') (slot : Slot) :
    (ctx'.fill ctx.cursor slot).slot? ctx.cursor = some slot :=
  slot?_fill_self slot (Nat.lt_of_lt_of_le (size_reserve ctx) h.size_le)

end TypedCircuit.MemoContext
