import TypedCircuit.Proofs.Runs.Silence
import TypedCircuit.Proofs.Scopes.Contexts

/-!
# The course of a program

A program that is executed *comes to* programs that are left to execute: after each of its
operations to the rest of itself, and inside of an operation to the body of it, if that is
executed. The moments of its course are these, each with the session at that moment.

Whether an operation executes its body, and in which session, is read off the session before. That
is all an operation has from its body: bodies that do the same in that session can be exchanged,
and if there is no such session any two bodies can.

## Main results

* `Scope.enclose_congr` — an operation depends on its body in one session at most.
* `Program.ComesTo.contained` — the course of a contained program is made of contained programs.
* `Program.mem_trace_iff` — the sessions of the course, in the order of time.
-/

namespace TypedCircuit

variable {host α β γ : Type} {s t : Session host}

/-! ## Bodies that can be exchanged -/

namespace Construction

variable {x y : Construction host Value} {d : Descriptor}

/-- A compile pass has no use for the computation of private inputs. -/
theorem introduce_compile_congr (hMode : activeMode? s.runs = some .compile) (size : Nat)
    (x y : Construction host (List Element × α)) : introduce size x s = introduce size y s := by
  have hRead : mode? s = (.ok (activeMode? s.runs), s) := rfl
  unfold introduce
  rw [bind_ok hRead, bind_ok hRead, hMode]

/-- A witness depends on what its computation does there, if that is executed. -/
theorem witness_congr_of_computes (h : s.computes d = true → x s = y s) :
    witness d x s = witness d y s := by
  by_cases hComputes : s.computes d = true
  · exact witness_congr (h hComputes) d
  · cases hRuns : s.runs with
    | nil => rw [Session.computes, hRuns] at hComputes; exact absurd rfl hComputes
    | cons run outer =>
        have hMode : activeMode? s.runs = some run.mode := by rw [hRuns]; rfl
        unfold witness
        rw [bind_ok (isChecked_eq hRuns), bind_ok (isChecked_eq hRuns)]
        show (codecOf d >>= _) s = (codecOf d >>= _) s
        rw [bind_ok (codecOf_eq d s), bind_ok (codecOf_eq d s)]
        cases hWidth : (s.registry.codec d).width () with
        | error e => rw [bind_error (lift_error rfl s), bind_error (lift_error rfl s)]
        | ok width =>
            rw [bind_ok (lift_ok rfl s), bind_ok (lift_ok rfl s)]
            refine bind_congr (introduce_compile_congr ?_ _ _ _) _
            cases hRun : run.mode with
            | compile => rw [hMode, hRun]
            | prove =>
                rw [Session.computes, hMode, hRun, hWidth] at hComputes
                exact absurd rfl hComputes

/-- Pinning depends on what its computation does once the next slot is reserved, if that is
executed. -/
theorem pinned_congr (h : ∀ t, s.reserved? = some t → x t = y t) :
    pinned d x s = pinned d y s := by
  rcases hReserved : s.reserved? with _ | t
  · obtain ⟨ctx, outer, slot, hContexts, hSlot⟩ := Session.reserved?_eq_none hReserved
    rw [pinned_filled hContexts hSlot, pinned_filled hContexts hSlot]
  · have hSame := h t hReserved
    rcases Session.reserved?_eq_some hReserved with
      ⟨hContexts, rfl⟩ | ⟨ctx, outer, hContexts, hEmpty, rfl⟩
    · rw [pinned_unmemoized hContexts, pinned_unmemoized hContexts, hSame]
    · have hSlot : computeSlot d x { s with contexts := ctx.reserve.2 :: outer } =
          computeSlot d y { s with contexts := ctx.reserve.2 :: outer } := bind_congr hSame _
      rw [pinned_empty hContexts hEmpty, pinned_empty hContexts hEmpty]
      exact bind_congr hSlot _

end Construction

/-- An operation depends on what its body does in the session in which it is executed, if it is. -/
theorem Scope.enclose_congr {scope : Scope β γ} {body body' : Construction host β}
    (h : ∀ t, scope.start? s = some t → body t = body' t) :
    scope.enclose body s = scope.enclose body' s := by
  cases scope with
  | introduce size =>
      by_cases hMode : activeMode? s.runs = some .compile
      · exact Construction.introduce_compile_congr hMode size body body'
      · exact Construction.introduce_congr (h s (if_neg hMode)) size
  | witness d =>
      exact Construction.witness_congr_of_computes fun hComputes => h s (if_pos hComputes)
  | memoizedWitness d =>
      show Construction.memoizedWitness d body s = Construction.memoizedWitness d body' s
      rw [Construction.memoizedWitness_eq_pinned, Construction.memoizedWitness_eq_pinned]
      exact Construction.witness_congr_of_computes fun hComputes =>
        Construction.pinned_congr fun t hReserved => h t ((if_pos hComputes).trans hReserved)
  | whereValued =>
      have hValues : Construction.hasValues s = (.ok (haveValues s.runs), s) := rfl
      show Construction.whereValued body s = Construction.whereValued body' s
      unfold Construction.whereValued
      rw [Construction.bind_ok hValues, Construction.bind_ok hValues]
      split
      · next hValued => exact h s (if_pos hValued)
      · rfl
  | compile =>
      refine Construction.bind_congr ?_ _
      show Construction.inRun .compile body s = Construction.inRun .compile body' s
      rw [Construction.inRun_eq_closeRun, Construction.inRun_eq_closeRun, h _ rfl]
  | prove =>
      refine Construction.bind_congr ?_ _
      show Construction.inRun .prove body s = Construction.inRun .prove body' s
      rw [Construction.inRun_eq_closeRun, Construction.inRun_eq_closeRun, h _ rfl]
  | inContext ctx =>
      have hSame : Construction.inContext ctx body s = Construction.inContext ctx body' s := by
        unfold Construction.inContext
        rw [h _ rfl]
      exact congrArg (fun finished => (Except.ok finished.1, finished.2)) hSame

namespace Program

/-! ## Moments -/

/-- From a session, a program comes to another program and another session, from which that is
left to execute. -/
inductive ComesTo : {α β : Type} → Program host α → Session host → Program host β → Session host →
    Prop where
  | here {α : Type} (p : Program host α) (s : Session host) : ComesTo p s p s
  | does {α β δ : Type} (x : Construction host β) (h : ∀ s, (x s).2.runs = s.runs)
    (next : Except Error β → Program host α) {s t : Session host} {q : Program host δ}
    (hNext : ComesTo (next (x s).1) (x s).2 q t) : ComesTo (.does x h next) s q t
  | calls {α β δ : Type} (call : Call β) (next : Except Error β → Program host α)
    {s t : Session host} {q : Program host δ}
    (hNext : ComesTo (next (call.perform s).1) (call.perform s).2 q t) :
    ComesTo (.calls call next) s q t
  | inside {α β γ δ : Type} (scope : Scope β γ) (body : Program host β)
    (next : Except Error γ → Program host α) {s start t : Session host} {q : Program host δ}
    (hStart : scope.start? s = some start) (hBody : ComesTo body start q t) :
    ComesTo (.encloses scope body next) s q t
  | after {α β γ δ : Type} (scope : Scope β γ) (body : Program host β)
    (next : Except Error γ → Program host α) {s t : Session host} {q : Program host δ}
    (hNext : ComesTo (next (scope.enclose body.run s).1) (scope.enclose body.run s).2 q t) :
    ComesTo (.encloses scope body next) s q t

theorem ComesTo.trans {δ : Type} {p : Program host α} {q : Program host β} {r : Program host δ}
    {u : Session host} (h : p.ComesTo s q t) (h' : q.ComesTo t r u) : p.ComesTo s r u := by
  induction h with
  | here p s => exact h'
  | does x hRuns next _ ih => exact .does x hRuns next (ih h')
  | calls call next _ ih => exact .calls call next (ih h')
  | inside scope body next hStart _ ih => exact .inside scope body next hStart (ih h')
  | after scope body next _ ih => exact .after scope body next (ih h')

theorem ComesTo.contained {p : Program host α} {q : Program host β} (h : p.ComesTo s q t)
    (hContained : p.Contained) : q.Contained := by
  induction h with
  | here p s => exact hContained
  | does x hRuns next _ ih => exact ih (hContained.2 _)
  | calls call next _ ih => exact ih (hContained _)
  | inside scope body next _ _ ih => exact ih hContained.1
  | after scope body next _ ih => exact ih (hContained.2 _)

/-! ## The sessions of a course -/

/-- The sessions that a program goes through, in the order of time. -/
def trace : {α : Type} → Program host α → Session host → List (Session host)
  | _, returns _, s => [s]
  | _, does x _ next, s => s :: (next (x s).1).trace (x s).2
  | _, calls call next, s => s :: (next (call.perform s).1).trace (call.perform s).2
  | _, encloses scope body next, s =>
    s :: ((scope.start? s).elim [] (fun t => body.trace t) ++
      (next (scope.enclose body.run s).1).trace (scope.enclose body.run s).2)

/-- The trace holds exactly the sessions that a program goes through. -/
theorem mem_trace_iff {p : Program host α} : t ∈ p.trace s ↔ p.Visits s t := by
  constructor
  · intro h
    induction p generalizing s with
    | returns result => rw [List.mem_singleton.1 h]; exact .here _ s
    | does x hRuns next ih =>
        rcases List.mem_cons.1 h with rfl | h
        · exact .here _ t
        · exact .does x hRuns next (ih _ h)
    | calls call next ih =>
        rcases List.mem_cons.1 h with rfl | h
        · exact .here _ t
        · exact .calls call next (ih _ h)
    | encloses scope body next ihBody ih =>
        rcases List.mem_cons.1 h with rfl | h
        · exact .here _ t
        · rcases List.mem_append.1 h with h | h
          · cases hStart : scope.start? s with
            | none => rw [hStart] at h; cases h
            | some start =>
                rw [hStart] at h
                exact .inside scope body next hStart (ihBody h)
          · exact .after scope body next (ih _ h)
  · intro h
    induction h with
    | here p s => cases p <;> exact List.mem_cons_self
    | does x hRuns next _ ih => exact List.mem_cons_of_mem _ ih
    | calls call next _ ih => exact List.mem_cons_of_mem _ ih
    | inside scope body next hStart _ ih =>
        refine List.mem_cons_of_mem _ (List.mem_append_left _ ?_)
        rw [hStart]
        exact ih
    | after scope body next _ ih => exact List.mem_cons_of_mem _ (List.mem_append_right _ ih)

end Program

end TypedCircuit
