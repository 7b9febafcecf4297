import TypedCircuit.Circuit.Run
import TypedCircuit.HashInput
import TypedCircuit.Proofs.Codec.Law

/-!
# What passes have in common

Two passes over one circuit body see different values: the variables of a prove pass have
values and those of a compile pass have none, and where one pass has host data the other may
have nulls. Everything else they see is the same. Two values are *alike* if they differ in no
more than that, and two runs are alike if they have allocated as many variables and recorded the
same gates.

Two computations *agree* if from alike things they make alike things, as long as both succeed.
Nothing is said of a pass that fails, and the two may be passes of one mode or of two.

## Main results

* `Value.Alike.height_eq` — alike values are equally nested.
* `Except.Agree.bind`, `Circuit.Agree.bind` — sequences of steps that agree agree.
-/

namespace TypedCircuit

/-! ## Lists related one by one -/

/-- A list whose members have a property is related to itself. -/
theorem forall₂_self {α : Type} {P : α → Prop} {xs : List α} (h : ∀ x ∈ xs, P x) :
    List.Forall₂ (fun x y => x = y ∧ P x) xs xs :=
  List.forall₂_same.2 fun x hx => ⟨rfl, h x hx⟩

theorem forall₂_zip_zip {α β γ δ : Type} {R : α → β → Prop} {Q : γ → δ → Prop} {xs : List α}
    {ys : List β} {zs : List γ} {ws : List δ} (h : List.Forall₂ R xs ys)
    (h' : List.Forall₂ Q zs ws) :
    List.Forall₂ (fun a b => R a.1 b.1 ∧ Q a.2 b.2) (xs.zip zs) (ys.zip ws) := by
  induction h generalizing zs ws with
  | nil => exact .nil
  | cons hHead _ ih =>
      cases h' with
      | nil => exact .nil
      | cons hHead' hRest' => exact .cons ⟨hHead, hHead'⟩ (ih hRest')

/-- Entries of the same names, related one by one. -/
abbrev EntriesRelated {α : Type} (R : α → α → Prop) (xs ys : Entries α) : Prop :=
  List.Forall₂ (fun a b => a.1 = b.1 ∧ R a.2 b.2) xs ys

namespace EntriesRelated

variable {α : Type} {R : α → α → Prop} {xs ys : Entries α}

theorem find? (h : EntriesRelated R xs ys) (name : String) :
    Option.Rel R (xs.find? name) (ys.find? name) := by
  induction h with
  | nil => exact .none
  | @cons x y _ _ hHead _ ih =>
      obtain ⟨key, a⟩ := x
      obtain ⟨rfl, hab⟩ : key = y.1 ∧ R a y.2 := hHead
      show Option.Rel R (if y.1 = name then _ else _) (if y.1 = name then _ else _)
      split
      · exact .some hab
      · exact ih

theorem insert (h : EntriesRelated R xs ys) (name : String) {a b : α} (hab : R a b) :
    EntriesRelated R (xs.insert name a) (ys.insert name b) := by
  induction h with
  | nil => exact .cons ⟨rfl, hab⟩ .nil
  | @cons x y _ _ hHead hRest ih =>
      obtain ⟨key, c⟩ := x
      obtain ⟨rfl, hcd⟩ : key = y.1 ∧ R c y.2 := hHead
      show EntriesRelated R (if name < y.1 then _ else if y.1 = name then _ else _)
        (if name < y.1 then _ else if y.1 = name then _ else _)
      split
      · exact .cons ⟨rfl, hab⟩ (.cons ⟨rfl, hcd⟩ hRest)
      · split
        · exact .cons ⟨rfl, hab⟩ hRest
        · exact .cons ⟨rfl, hcd⟩ ih

theorem ofList (h : EntriesRelated R xs ys) :
    EntriesRelated R (Entries.ofList xs) (Entries.ofList ys) := by
  suffices hFold : ∀ {done done' : Entries α}, EntriesRelated R done done' →
      EntriesRelated R (xs.foldl (fun out entry => Entries.insert out entry.1 entry.2) done)
        (ys.foldl (fun out entry => Entries.insert out entry.1 entry.2) done') from
    hFold .nil
  induction h with
  | nil => exact fun hDone => hDone
  | @cons x y _ _ hHead _ ih =>
      obtain ⟨key, a⟩ := x
      obtain ⟨rfl, hab⟩ : key = y.1 ∧ R a y.2 := hHead
      exact fun hDone => ih (insert hDone y.1 hab)

end EntriesRelated

/-! ## Signals and values -/

/-- Two signals are the same input to a gate. -/
def Signal.Alike (s t : Signal) : Prop := s.wire = t.wire

theorem Signal.Alike.refl (s : Signal) : s.Alike s := rfl

theorem Signal.Alike.symm {s t : Signal} (h : s.Alike t) : t.Alike s := Eq.symm h

theorem Signal.Alike.isConstant_eq {s t : Signal} (h : s.Alike t) :
    s.isConstant = t.isConstant := by
  cases s <;> cases t <;> first | rfl | cases h

/-- An alike signal of a constant is the constant. -/
theorem Signal.Alike.eq_of_isConstant {s t : Signal} (h : s.Alike t)
    (hConstant : s.isConstant = true) : s = t := by
  cases s <;> cases t <;> first | cases h | cases hConstant
  rfl

mutual

/-- Two values differ in nothing but the values of variables and in host data. -/
inductive Value.Alike : Value → Value → Prop where
  | signal {s t : Signal} (h : s.Alike t) : Value.Alike (.signal s) (.signal t)
  | bit {a b : Bit} (h : a.signal.Alike b.signal) : Value.Alike (.bit a) (.bit b)
  | array {xs ys : List Value} (h : Value.ItemsAlike xs ys) : Value.Alike (.array xs) (.array ys)
  | record (tag? : Option String) {xs ys : List (String × Value)} (h : Value.MembersAlike xs ys) :
    Value.Alike (.record tag? xs) (.record tag? ys)
  | primitive (json : Json) : Value.Alike (.primitive json) (.primitive json)
  | hostData {v w : Value} (hv : v.HostData) (hw : w.HostData) : Value.Alike v w

/-- As many items, alike one by one. -/
inductive Value.ItemsAlike : List Value → List Value → Prop where
  | nil : Value.ItemsAlike [] []
  | cons {v w : Value} {xs ys : List Value} (h : Value.Alike v w)
    (hRest : Value.ItemsAlike xs ys) : Value.ItemsAlike (v :: xs) (w :: ys)

/-- Members of the same names, alike one by one. -/
inductive Value.MembersAlike : List (String × Value) → List (String × Value) → Prop where
  | nil : Value.MembersAlike [] []
  | cons (name : String) {v w : Value} {xs ys : List (String × Value)} (h : Value.Alike v w)
    (hRest : Value.MembersAlike xs ys) : Value.MembersAlike ((name, v) :: xs) ((name, w) :: ys)

end

/-- Alike signals in order. -/
abbrev SignalsAlike (fields fields' : List Signal) : Prop :=
  List.Forall₂ Signal.Alike fields fields'

/-- Alike values in order. -/
abbrev ValuesAlike (items items' : List Value) : Prop := List.Forall₂ Value.Alike items items'

namespace Value

theorem itemsAlike_iff {xs ys : List Value} : ItemsAlike xs ys ↔ ValuesAlike xs ys := by
  constructor
  · intro h
    induction xs generalizing ys with
    | nil => cases h; exact .nil
    | cons x xs ih =>
        cases h with
        | cons hHead hRest => exact .cons hHead (ih hRest)
  · intro h
    induction h with
    | nil => exact .nil
    | cons hHead _ ih => exact .cons hHead ih

theorem membersAlike_iff {xs ys : List (String × Value)} :
    MembersAlike xs ys ↔ EntriesRelated Alike xs ys := by
  constructor
  · intro h
    induction xs generalizing ys with
    | nil => cases h; exact .nil
    | cons x xs ih =>
        cases h with
        | cons name hHead hRest => exact .cons ⟨rfl, hHead⟩ (ih hRest)
  · intro h
    induction h with
    | nil => exact .nil
    | @cons x y _ _ hHead _ ih =>
        obtain ⟨name, v⟩ := x
        obtain ⟨rfl, hAlike⟩ : name = y.1 ∧ v.Alike y.2 := hHead
        exact .cons y.1 hAlike ih

theorem Alike.of_items {xs ys : List Value} (h : ValuesAlike xs ys) :
    Alike (.array xs) (.array ys) := .array (itemsAlike_iff.2 h)

theorem HostData.form {v : Value} (h : v.HostData) :
    v = .primitive .null ∨ ∃ identity, v = .opaqueValue identity := by
  unfold HostData Codec.expectOpaque at h
  split at h
  · exact .inr ⟨_, rfl⟩
  · exact .inl rfl
  · cases h

theorem HostData.height_eq {v : Value} (h : v.HostData) : v.height = 1 := by
  rcases h.form with rfl | ⟨identity, rfl⟩ <;> rfl

mutual

/-- Alike values are equally nested. -/
theorem Alike.height_eq : ∀ {v w : Value}, v.Alike w → v.height = w.height
  | _, _, .signal _ => rfl
  | _, _, .bit _ => rfl
  | _, _, .array h => congrArg (· + 1) (ItemsAlike.height_eq h)
  | _, _, .record _ h => congrArg (· + 1) (MembersAlike.height_eq h)
  | _, _, .primitive _ => rfl
  | _, _, .hostData hv hw => hv.height_eq.trans hw.height_eq.symm

theorem ItemsAlike.height_eq : ∀ {xs ys : List Value}, ItemsAlike xs ys →
    heightOfItems xs = heightOfItems ys
  | _, _, .nil => rfl
  | _, _, .cons hHead hRest => by
      rw [heightOfItems, heightOfItems, Alike.height_eq hHead, ItemsAlike.height_eq hRest]

theorem MembersAlike.height_eq : ∀ {xs ys : List (String × Value)}, MembersAlike xs ys →
    heightOfMembers xs = heightOfMembers ys
  | _, _, .nil => rfl
  | _, _, .cons _ hHead hRest => by
      rw [heightOfMembers, heightOfMembers, Alike.height_eq hHead, MembersAlike.height_eq hRest]

end

/-! ## Looking inside -/

theorem Alike.signal? {v w : Value} (h : v.Alike w) :
    Option.Rel Signal.Alike v.signal? w.signal? := by
  cases h with
  | signal h => exact .some h
  | bit | array | record | primitive => exact .none
  | hostData hv hw =>
      rcases hv.form with rfl | ⟨_, rfl⟩ <;> rcases hw.form with rfl | ⟨_, rfl⟩ <;> exact .none

theorem Alike.bit? {v w : Value} (h : v.Alike w) :
    Option.Rel (fun a b : Bit => a.signal.Alike b.signal) v.bit? w.bit? := by
  cases h with
  | bit h => exact .some h
  | signal | array | record | primitive => exact .none
  | hostData hv hw =>
      rcases hv.form with rfl | ⟨_, rfl⟩ <;> rcases hw.form with rfl | ⟨_, rfl⟩ <;> exact .none

theorem Alike.items? {v w : Value} (h : v.Alike w) :
    Option.Rel ValuesAlike v.items? w.items? := by
  cases h with
  | array h => exact .some (itemsAlike_iff.1 h)
  | signal | bit | record | primitive => exact .none
  | hostData hv hw =>
      rcases hv.form with rfl | ⟨_, rfl⟩ <;> rcases hw.form with rfl | ⟨_, rfl⟩ <;> exact .none

theorem Alike.record? {v w : Value} (h : v.Alike w) :
    Option.Rel (fun a b => a.1 = b.1 ∧ MembersAlike a.2 b.2) v.record? w.record? := by
  cases h with
  | record tag? h => exact .some ⟨rfl, h⟩
  | signal | bit | array | primitive => exact .none
  | hostData hv hw =>
      rcases hv.form with rfl | ⟨_, rfl⟩ <;> rcases hw.form with rfl | ⟨_, rfl⟩ <;> exact .none

variable {xs ys : Entries Value}

theorem MembersAlike.find? (h : MembersAlike xs ys) (name : String) :
    Option.Rel Alike (Entries.find? xs name) (Entries.find? ys name) :=
  (membersAlike_iff.1 h).find? name

theorem MembersAlike.insert (h : MembersAlike xs ys) (name : String) {v w : Value}
    (hv : v.Alike w) : MembersAlike (Entries.insert xs name v) (Entries.insert ys name w) :=
  membersAlike_iff.2 ((membersAlike_iff.1 h).insert name hv)

theorem MembersAlike.ofList (h : MembersAlike xs ys) :
    MembersAlike (Entries.ofList xs) (Entries.ofList ys) :=
  membersAlike_iff.2 (membersAlike_iff.1 h).ofList

end Value

/-! ## Hash inputs and runs -/

/-- Two hash inputs of the same form with alike signals. -/
structure HashInput.Alike (a b : HashInput) : Prop where
  fields : SignalsAlike a.fields b.fields
  packed : List.Forall₂ (fun x y : Signal × Nat => x.1.Alike y.1 ∧ x.2 = y.2) a.packed b.packed

/-- Two runs have allocated as much and recorded the same. -/
structure Run.Alike (run run' : Run) : Prop where
  size_eq : run.values.size = run'.values.size
  witnessCount_eq : run.witnessCount = run'.witnessCount
  gates_eq : run.gates = run'.gates

/-- Alike runs leave the same behind. -/
theorem Run.Alike.constraintSystem_eq {run run' : Run} (h : run.Alike run') :
    run.constraintSystem = run'.constraintSystem := by
  rw [constraintSystem, constraintSystem, h.size_eq, h.witnessCount_eq, h.gates_eq]

theorem Run.Alike.record {run run' : Run} (h : run.Alike run') (gate : Gate) :
    (run.record gate).Alike (run'.record gate) :=
  ⟨h.size_eq, h.witnessCount_eq, congrArg (Array.push · gate) h.gates_eq⟩

/-- Alike runs allocate the same variable, up to its value. -/
theorem Run.Alike.allocate {run run' : Run} (h : run.Alike run') (value? value?' : Option Element) :
    (run.allocate value?).1.index = (run'.allocate value?').1.index ∧
      (run.allocate value?).2.Alike (run'.allocate value?').2 := by
  refine ⟨h.size_eq, ⟨?_, h.witnessCount_eq, h.gates_eq⟩⟩
  show (run.values.push _).size = (run'.values.push _).size
  rw [Array.size_push, Array.size_push, h.size_eq]

/-- In both of two lists of open runs there is an active one, and the two are alike. -/
inductive RunsAlike : List Run → List Run → Prop where
  | intro {run run' : Run} (h : run.Alike run') (outer outer' : List Run) :
    RunsAlike (run :: outer) (run' :: outer')

theorem RunsAlike.exists_eq {runs runs' : List Run} (h : RunsAlike runs runs') :
    ∃ run run', run.Alike run' ∧ ∃ outer outer', runs = run :: outer ∧ runs' = run' :: outer' := by
  cases h with
  | intro h outer outer' => exact ⟨_, _, h, outer, outer', rfl, rfl⟩

/-! ## Computations that agree -/

/-- The results of two computations are related if there are any. -/
def ResultsAgree {α β : Type} (R : α → β → Prop) (x : Except Error α) (y : Except Error β) :
    Prop := ∀ a b, x = .ok a → y = .ok b → R a b

/-- Two computations take related states to related states, with related results, if both
succeed. -/
def Agree {σ τ α β : Type} (S : σ → τ → Prop) (R : α → β → Prop)
    (x : ExceptT Error (StateM σ) α) (y : ExceptT Error (StateM τ) β) : Prop :=
  ∀ s t, S s t → ∀ a b s' t', x s = (.ok a, s') → y t = (.ok b, t') → R a b ∧ S s' t'

/-- Two wirings take alike runs to alike runs, with related results. -/
def WiringsAgree {α β : Type} (R : α → β → Prop) (x : Wiring α) (y : Wiring β) : Prop :=
  ∀ runs runs', RunsAlike runs runs' →
    R (x runs).1 (y runs').1 ∧ RunsAlike (x runs).2 (y runs').2

section

variable {α β γ δ : Type} {R : α → β → Prop} {Q : γ → δ → Prop}

namespace ResultsAgree

theorem ok {a : α} {b : β} (h : R a b) : ResultsAgree R (.ok a) (.ok b) := by
  intro _ _ ha hb
  cases ha; cases hb
  exact h

theorem refl (x : Except Error α) : ResultsAgree (· = ·) x x := by
  intro a b ha hb
  rw [ha] at hb
  exact Except.ok.inj hb

theorem error_left {e : Error} {y : Except Error β} : ResultsAgree R (.error e) y := nofun

theorem error_right {e : Error} {x : Except Error α} : ResultsAgree R x (.error e) :=
  fun _ _ _ => nofun

theorem bind {x : Except Error α} {y : Except Error β} {f : α → Except Error γ}
    {g : β → Except Error δ} (h : ResultsAgree R x y)
    (hNext : ∀ a b, R a b → ResultsAgree Q (f a) (g b)) : ResultsAgree Q (x >>= f) (y >>= g) := by
  intro c d hc hd
  obtain ⟨a, ha, hc⟩ := bind_eq_ok.1 hc
  obtain ⟨b, hb, hd⟩ := bind_eq_ok.1 hd
  exact hNext a b (h a b ha hb) c d hc hd

theorem map {x : Except Error α} {y : Except Error β} {f : α → γ} {g : β → δ}
    (h : ResultsAgree R x y) (hNext : ∀ a b, R a b → Q (f a) (g b)) :
    ResultsAgree Q (x.map f) (y.map g) := by
  intro c d hc hd
  obtain ⟨a, ha, rfl⟩ := map_eq_ok.1 hc
  obtain ⟨b, hb, rfl⟩ := map_eq_ok.1 hd
  exact hNext a b (h a b ha hb)

theorem mapM {P : γ → δ → Prop} {xs : List γ} {ys : List δ} {f : γ → Except Error α}
    {g : δ → Except Error β} (h : List.Forall₂ P xs ys)
    (hStep : ∀ x y, P x y → ResultsAgree R (f x) (g y)) :
    ResultsAgree (List.Forall₂ R) (xs.mapM f) (ys.mapM g) := by
  induction h with
  | nil => exact ok .nil
  | cons hHead _ ih =>
      rw [List.mapM_cons, List.mapM_cons]
      refine (hStep _ _ hHead).bind fun a b hab => ih.bind fun as bs hRest => ?_
      exact ok (.cons hab hRest)

end ResultsAgree

namespace Agree

variable {σ τ : Type} {S : σ → τ → Prop}

theorem pure {a : α} {b : β} (h : R a b) :
    Agree S R (Pure.pure a : ExceptT Error (StateM σ) α) (Pure.pure b) := by
  intro s t hState _ _ _ _ ha hb
  cases ha; cases hb
  exact ⟨h, hState⟩

theorem bind {x : ExceptT Error (StateM σ) α} {y : ExceptT Error (StateM τ) β}
    {f : α → ExceptT Error (StateM σ) γ} {g : β → ExceptT Error (StateM τ) δ}
    (h : Agree S R x y) (hNext : ∀ a b, R a b → Agree S Q (f a) (g b)) :
    Agree S Q (x >>= f) (y >>= g) := by
  intro s t hState c d s' t' hc hd
  obtain ⟨a, between, ha, hc⟩ := bind_state_eq_ok hc
  obtain ⟨b, between', hb, hd⟩ := bind_state_eq_ok hd
  obtain ⟨hab, hState⟩ := h s t hState a b _ _ ha hb
  exact hNext a b hab _ _ hState c d s' t' hc hd

/-- What touches no state agrees if its results do. -/
theorem lift {x : Except Error α} {y : Except Error β} (h : ResultsAgree R x y) :
    Agree S R (liftM x : ExceptT Error (StateM σ) α) (liftM y) := by
  intro s t hState a b s' t' ha hb
  cases x with
  | error e => cases ha
  | ok x =>
      cases y with
      | error e => cases hb
      | ok y => cases ha; cases hb; exact ⟨h _ _ rfl rfl, hState⟩

theorem mapM {P : γ → δ → Prop} {xs : List γ} {ys : List δ}
    {f : γ → ExceptT Error (StateM σ) α} {g : δ → ExceptT Error (StateM τ) β}
    (h : List.Forall₂ P xs ys) (hStep : ∀ x y, P x y → Agree S R (f x) (g y)) :
    Agree S (List.Forall₂ R) (xs.mapM f) (ys.mapM g) := by
  induction h with
  | nil => exact pure .nil
  | cons hHead _ ih =>
      rw [List.mapM_cons, List.mapM_cons]
      refine (hStep _ _ hHead).bind fun a b hab => ih.bind fun as bs hRest => ?_
      exact pure (.cons hab hRest)

theorem forM {P : γ → δ → Prop} {xs : List γ} {ys : List δ}
    {f : γ → ExceptT Error (StateM σ) PUnit} {g : δ → ExceptT Error (StateM τ) PUnit}
    (h : List.Forall₂ P xs ys)
    (hStep : ∀ x y, P x y → Agree S (fun _ _ => True) (f x) (g y)) :
    Agree S (fun _ _ => True) (xs.forM f) (ys.forM g) := by
  induction h with
  | nil => exact pure trivial
  | @cons x y xs ys hHead _ ih =>
      show Agree S _ (f x >>= fun _ => xs.forM f) (g y >>= fun _ => ys.forM g)
      exact (hStep x y hHead).bind fun _ _ _ => ih

theorem foldlM {P : γ → δ → Prop} {xs : List γ} {ys : List δ}
    {f : α → γ → ExceptT Error (StateM σ) α} {g : β → δ → ExceptT Error (StateM τ) β}
    (h : List.Forall₂ P xs ys)
    (hStep : ∀ a b x y, R a b → P x y → Agree S R (f a x) (g b y)) :
    ∀ {a b}, R a b → Agree S R (xs.foldlM f a) (ys.foldlM g b) := by
  induction h with
  | nil => exact fun hab => pure hab
  | cons hHead _ ih =>
      intro a b hab
      rw [List.foldlM_cons, List.foldlM_cons]
      exact (hStep _ _ _ _ hab hHead).bind fun _ _ hNext => ih hNext

end Agree

namespace WiringsAgree

theorem pure {a : α} {b : β} (h : R a b) :
    WiringsAgree R (Pure.pure a : Wiring α) (Pure.pure b) := fun _ _ hRuns => ⟨h, hRuns⟩

theorem bind {x : Wiring α} {y : Wiring β} {f : α → Wiring γ} {g : β → Wiring δ}
    (h : WiringsAgree R x y) (hNext : ∀ a b, R a b → WiringsAgree Q (f a) (g b)) :
    WiringsAgree Q (x >>= f) (y >>= g) := by
  intro runs runs' hRuns
  obtain ⟨hab, hRuns⟩ := h runs runs' hRuns
  exact hNext _ _ hab _ _ hRuns

/-- A wiring never fails. -/
theorem lift {x : Wiring α} {y : Wiring β} (h : WiringsAgree R x y) :
    Agree RunsAlike R (liftM x : Circuit α) (liftM y) := by
  intro runs runs' hRuns a b after after' ha hb
  cases ha; cases hb
  exact h runs runs' hRuns

end WiringsAgree

end

end TypedCircuit
