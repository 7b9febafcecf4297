import TypedCircuit.Proofs.Memo.Growth

/-!
# Computations of witnesses

The computation of a witness is code of the caller. Here it is a tree: it looks at what the
caller keeps and changes it, draws random elements, combines signals, and brings further values
into the circuit, memoized or not, whose computations are trees again. Whatever it finds out on
the way decides how it goes on, and a witness that fails need not be the end of it. In the end
it returns a value or fails.

A body is a list of memoized witnesses with such computations.

## Main results

* `Computation.steady` — a computation only grows its context.
* `Computation.Unnested.steady` — without memoized witnesses it does not even do that.
* `MemoizedBody.run_cons_eq_ok` — a body that succeeded, one call at a time.
-/

namespace TypedCircuit

variable {host : Type}

/-- What the value of a witness is computed by. -/
inductive Computation (host : Type) where
  /-- A value. -/
  | returns (v : Value)
  /-- A failure. -/
  | fails (e : Error)
  /-- Goes on by what the caller keeps. -/
  | reads (next : host → Computation host)
  /-- Changes what the caller keeps. -/
  | updates (f : host → host) (next : Computation host)
  /-- Draws a random element. -/
  | draws (next : Element → Computation host)
  /-- Combines signals. -/
  | combines (operation : Gate.Operation) (a b : Signal) (next : Signal → Computation host)
  /-- Brings a value into the circuit that is computed likewise. -/
  | brings (memoized : Bool) (d : Descriptor) (inner : Computation host)
    (next : Except Error Value → Computation host)

namespace Computation

/-- Executes a computation. -/
def run : Computation host → Construction host Value
  | returns v => pure v
  | fails e => throw e
  | reads next => do (next (← Construction.read (·.host))).run
  | updates f next => do
    modifyThe (Session host) fun s => { s with host := f s.host }
    next.run
  | draws next => do (next (← Construction.drawElement)).run
  | combines operation a b next => do
    let result ← (a.combine operation b : Circuit Signal)
    (next result).run
  | brings memoized d inner next => do
    let result ← Construction.attempt
      (if memoized then Construction.memoizedWitness d inner.run
        else Construction.witness d inner.run)
    (next result).run

/-- Nothing that a computation brings into the circuit is memoized. -/
def Unnested : Computation host → Prop
  | returns _ | fails _ => True
  | reads next => ∀ data, (next data).Unnested
  | updates _ next => next.Unnested
  | draws next => ∀ x, (next x).Unnested
  | combines _ _ _ next => ∀ s, (next s).Unnested
  | brings memoized _ inner next =>
    memoized = false ∧ inner.Unnested ∧ ∀ result, (next result).Unnested

open Construction in
/-- Computations do no more to contexts than their memoized witnesses do. -/
theorem steady_of {R : List MemoContext → List MemoContext → Prop} [IsPreorder _ R]
    {c : Computation host} (h : c.Unnested ∨ ∀ d {compute : Construction host Value},
      Steady R compute → Steady R (memoizedWitness d compute)) : Steady R c.run := by
  induction c with
  | returns v => exact Steady.pure v
  | fails e => exact Steady.lift (.error e)
  | reads next ih =>
      exact (Steady.read _).bind fun data => ih data (h.imp_left fun hNext => hNext data)
  | updates f next ih =>
      exact Steady.bind (fun s => ⟨rfl, rfl, Std.Refl.refl s.contexts⟩) fun _ => ih h
  | draws next ih =>
      exact Steady.bind (fun s => ⟨rfl, rfl, Std.Refl.refl s.contexts⟩) fun x =>
        ih x (h.imp_left fun hNext => hNext x)
  | combines operation a b next ih =>
      exact (Steady.ofCircuit (KeepsMode.combine operation a b)).bind fun s =>
        ih s (h.imp_left fun hNext => hNext s)
  | brings memoized d inner next ihInner ih =>
      refine (Steady.attempt ?_).bind fun result =>
        ih result (h.imp_left fun hNext => hNext.2.2 result)
      split
      · next hMemoized =>
          rcases h with hUnnested | hNested
          · rw [hUnnested.1] at hMemoized
            cases hMemoized
          · exact hNested d (ihInner (.inr hNested))
      · exact Steady.witness d (ihInner (h.imp_left fun hNext => hNext.2.1))

theorem steady (c : Computation host) : Construction.Steady ContextsExtend c.run :=
  steady_of (.inr Construction.Steady.memoizedWitness)

/-- A computation without memoized witnesses leaves the contexts as they are. -/
theorem Unnested.steady {c : Computation host} (h : c.Unnested) :
    Construction.Steady Eq c.run := steady_of (.inl h)

end Computation

/-- A body: memoized witnesses of types, one after another. -/
abbrev MemoizedBody (host : Type) := List (Descriptor × Computation host)

namespace MemoizedBody

/-- The types of a body. -/
def types (body : MemoizedBody host) : List Descriptor := body.map Prod.fst

/-- Executes a body and returns the values of its memoized witnesses. -/
def run : MemoizedBody host → Construction host (List Value)
  | [] => pure []
  | (d, compute) :: rest => do
    let v ← Construction.memoizedWitness d compute.run
    let values ← run rest
    return v :: values

theorem run_cons_eq_ok {d : Descriptor} {compute : Computation host} {rest : MemoizedBody host}
    {s s' : Session host} {values : List Value}
    (h : run ((d, compute) :: rest) s = (.ok values, s')) :
    ∃ v between values', Construction.memoizedWitness d compute.run s = (.ok v, between) ∧
      run rest between = (.ok values', s') ∧ values = v :: values' := by
  obtain ⟨v, between, hHead, h⟩ := Construction.bind_eq_ok h
  obtain ⟨values', after, hRest, h⟩ := Construction.bind_eq_ok h
  cases h
  exact ⟨v, between, values', hHead, hRest, rfl⟩

theorem run_cons_ok {d : Descriptor} {compute : Computation host} {rest : MemoizedBody host}
    {s between s' : Session host} {v : Value} {values : List Value}
    (hHead : Construction.memoizedWitness d compute.run s = (.ok v, between))
    (hRest : run rest between = (.ok values, s')) :
    run ((d, compute) :: rest) s = (.ok (v :: values), s') := by
  show (Construction.memoizedWitness d compute.run >>= _) s = _
  rw [Construction.bind_ok hHead]
  exact Construction.bind_ok hRest

theorem steady (body : MemoizedBody host) : Construction.Steady ContextsExtend body.run := by
  induction body with
  | nil => exact .pure []
  | cons call rest ih =>
      exact (Construction.Steady.memoizedWitness call.1 call.2.steady).bind fun _ =>
        ih.bind fun _ => .pure _

end MemoizedBody

end TypedCircuit
