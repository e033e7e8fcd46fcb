import Mathlib
import TapeStark.Proofs.Field.Lawful
import TapeStark.Proofs.Protocol.Points
import TapeStark.Proofs.Protocol.Received

/-! The verifier is total: on any bytes it accepts or rejects. What is read has the right shape, and
each lookup, inversion and fold of the checks is covered by a check made before it. -/

namespace TapeStark

open ExtensionField

theorem safe_opening {V : Type} [TaggedValue V] (H : Hash) (root : ByteArray) (o : Opening V)
    (kind : Kind) (what : String) : Safe (o.check H root kind what) fun _ => True := by
  rw [Opening.check]
  split
  · exact Safe.rejected
  · rw [Opening.verify]
    split
    · trivial
    · exact Safe.rejected

section Field

variable {F : Type} [ExtensionField F] [LawfulExtension F]

omit [LawfulExtension F] in
theorem safe_inverse? {x : F} (h : x ≠ 0) : Safe (inverse? x) fun _ => True := by
  rw [inverse?_eq h]
  trivial

namespace Fri

omit [LawfulExtension F] in
theorem safe_checkLayers (H : Hash) (k : Nat) (rounds : List (ByteArray × F))
    (openings : List (Opening (Tagged F))) :
    Safe (checkLayers H k rounds openings) fun _ => True := by
  induction rounds generalizing k openings with
  | nil => trivial
  | cons round rounds ih =>
    cases openings with
    | nil => trivial
    | cons o openings => exact (safe_opening ..).bind fun _ _ => ih (k + 1) openings

omit [LawfulExtension F] in
theorem safe_checkTerminal (fri : Fri) (commitments : Commitments F) :
    Safe (fri.checkTerminal commitments) fun _ => True := by
  rw [checkTerminal]
  split
  · exact Safe.rejected
  · trivial

omit [LawfulExtension F] in
theorem safe_pairOf {o : Opening (Tagged F)} (h : o.values.length = 2) :
    Safe (pairOf o) fun _ => True := by
  rw [pairOf]
  match o.values, h with
  | [even, odd], _ => trivial

omit [LawfulExtension F] in
theorem safe_valueOf {o : Opening (Tagged F)} (h : o.values.length = 2) (size : Nat)
    (position : Int) : Safe (valueOf o size position) fun _ => True :=
  (safe_pairOf h).bind fun _ _ => trivial

omit [LawfulExtension F] in
theorem safe_foldValue (even odd alpha : F) {x : F} (h : x ≠ 0) :
    Safe (foldValue even odd alpha x) fun _ => True :=
  (safe_inverse? h).bind fun _ _ => trivial

/-- With a challenge for every layer, pairs in every opening and a domain that can be squared as
often, following the folds accepts or rejects. -/
theorem safe_followFolds (final : Array F) (k : Nat) {alphas : List F}
    {openings : List (Opening (Tagged F))} {d : Domain} (position : Int) (known : Option F)
    (hlength : openings.length = alphas.length) (hpairs : ∀ o ∈ openings, o.values.length = 2)
    (hoffset : d.offset ≠ 0) (hsize : openings.length ≤ d.logSize) :
    Safe (followFolds final k alphas openings d position known) fun _ => True := by
  induction openings generalizing k alphas d position known with
  | nil =>
    rw [followFolds]
    split
    · trivial
    · exact Safe.rejected
  | cons o openings ih =>
    cases alphas with
    | nil => simp at hlength
    | cons alpha alphas =>
      obtain ⟨logSize, offset, hle⟩ := d
      obtain ⟨k', rfl⟩ : ∃ k', logSize = k' + 1 := ⟨logSize - 1, by simp at hsize; omega⟩
      have hpair := hpairs o (List.mem_cons_self ..)
      rw [followFolds]
      refine Safe.ite (fun _ => Safe.rejected) fun _ => ?_
      refine (safe_valueOf hpair _ _).bind fun value _ => ?_
      refine Safe.ite (fun _ => Safe.rejected) fun _ => ?_
      refine (safe_pairOf hpair).bind fun pair _ => ?_
      obtain ⟨even, odd⟩ := pair
      have hx (i : Int) : (ofBase (Domain.elementAt ⟨k' + 1, offset, hle⟩ i) : F) ≠ 0 :=
        ofBase_ne_zero (Domain.elementAt_ne_zero _ hoffset _)
      refine (safe_foldValue even odd alpha (hx _)).bind fun folded _ => ?_
      refine Safe.bind (M := fun d => d.offset ≠ 0 ∧ d.logSize = k')
        (Safe.ok_iff.mpr ⟨mul_ne_zero hoffset hoffset, rfl⟩) fun d hd => ?_
      refine ih (k + 1) _ _ (by simpa using hlength)
        (fun o ho => hpairs o (List.mem_cons_of_mem _ ho)) hd.1 ?_
      simp only [List.length_cons] at hsize
      omega

theorem safe_verifyQuery (fri : Fri) (commitments : Commitments F) (index : Int)
    {openings : List (Opening (Tagged F))} (hlength : openings.length = commitments.rounds.length)
    (hpairs : ∀ o ∈ openings, o.values.length = 2) (hoffset : fri.domain.offset ≠ 0)
    (hsize : openings.length ≤ fri.domain.logSize) :
    Safe (fri.verifyQuery commitments index openings) fun _ => True := by
  refine (safe_followFolds commitments.final 0 index none (by simpa using hlength) hpairs hoffset
    hsize).bind fun _ _ => ?_
  cases openings with
  | nil => trivial
  | cons o openings => exact safe_valueOf (hpairs o (List.mem_cons_self ..)) _ _

end Fri

namespace Composition

variable (c : Composition F)

/-- With heights and weights that fit, the verifier's value exists at every point of the coset. -/
theorem safe_evaluate {claim : Claim} (hheights : Verifier.Heights.Implied claim c.heights)
    {d : Domain} (hd : d.offset = Fp.generator) (i : Nat)
    (openings : PerTable fun t => TableOpening t F) (randomizers : List F) {weights : List F}
    (hrandomizers : 0 ≤ c.randomizers) (hweights : (weights.length : Int) = c.numWeights) :
    Safe (c.evaluate (ofBase (d.elementAt i)) openings randomizers weights) fun _ => True := by
  cases hvalue : c.evaluate (ofBase (d.elementAt i)) openings randomizers weights with
  | ok v => trivial
  | error e =>
    rcases weights_or_subgroup_of_evaluate hd hvalue with hcount | ⟨t, hdomain⟩
    · rw [weightsOf_eq hrandomizers hweights] at hcount
      cases hcount
    · obtain ⟨k, hk, hheight⟩ := hheights.small t
      rw [hheight, Domain.subgroup?_two_pow hk] at hdomain
      cases hdomain

end Composition

namespace Verifier

variable {r : Received F} {q : Query F}

omit [LawfulExtension F] in
theorem safe_checkOpenings (H : Hash) : Safe (checkOpenings r H q) fun _ => True := by
  refine Safe.bind (M := fun _ => True) (Safe.forM ?_) fun _ _ => ?_
  · rintro ⟨base, extension⟩ -
    exact (safe_opening H r.baseRoot base .fp _).bind fun _ _ => safe_opening ..
  · split
    · exact (safe_opening ..).bind fun _ _ => Fri.safe_checkLayers ..
    · exact Fri.safe_checkLayers ..

omit [ExtensionField F] [LawfulExtension F] in
theorem safe_checkPositions : Safe (checkPositions q) fun _ => True := by
  refine Safe.bind (M := fun _ => True) (Safe.forM ?_) fun _ _ => ?_
  · rintro ⟨position, base, extension⟩ -
    exact Safe.ite (fun _ => Safe.rejected) fun _ => trivial
  · split
    · exact Safe.ite (fun _ => Safe.rejected) fun _ => trivial
    · trivial

/-- A row that is opened for a query, at this position in both trees. -/
structure Query.RowAt {F : Type} (q : Query F) (position : Int)
    (row : Opening (Tagged F) × Opening (Tagged F)) : Prop where
  opened : row ∈ q.base.zip q.extension
  base_index : row.1.index = position
  extension_index : row.2.index = position

omit [ExtensionField F] [LawfulExtension F] in
/-- The check compares the opened rows with the positions one by one. -/
theorem rowAt_of_checkPositions {heights : Heights} {fri : Fri} (hq : q.Shaped heights fri)
    (hpositions : checkPositions q = .ok ()) {i : Nat} (hi : i < (q.base.zip q.extension).length) :
    ∃ h : i < q.positions.length, q.RowAt q.positions[i] (q.base.zip q.extension)[i] := by
  obtain ⟨_, hrows, -⟩ := bind_eq_ok.mp hpositions
  have hlength : i < q.positions.length := by
    rwa [List.length_zip, hq.base, hq.extension, min_self] at hi
  have hrow : (q.positions[i], (q.base.zip q.extension)[i]) ∈
      q.positions.zip (q.base.zip q.extension) :=
    List.mem_iff_getElem.mpr ⟨i, by simpa [hlength] using hi, by simp⟩
  have hagrees : (q.base.zip q.extension)[i].1.index = q.positions[i] ∧
      (q.base.zip q.extension)[i].2.index = q.positions[i] := by
    simpa using ok_of_forM hrows _ hrow
  exact ⟨hlength, List.getElem_mem hi, hagrees.1, hagrees.2⟩

omit [ExtensionField F] [LawfulExtension F] in
/-- After the check of the positions every one of them has its row, and that is what is found. -/
theorem exists_rowAt {heights : Heights} {fri : Fri} (hq : q.Shaped heights fri)
    (hpositions : checkPositions q = .ok ()) {position : Int} (hmem : position ∈ q.positions) :
    ∃ row, openedAt q position = .ok row ∧ q.RowAt position row := by
  rw [openedAt]
  cases hfind : (q.base.zip q.extension).find? fun row => row.1.index = position with
  | none =>
    obtain ⟨i, hi, rfl⟩ := List.getElem_of_mem hmem
    have hlength : i < (q.base.zip q.extension).length := by
      rwa [List.length_zip, hq.base, hq.extension, min_self]
    obtain ⟨_, hat⟩ := rowAt_of_checkPositions hq hpositions hlength
    exact absurd hat.base_index (by simpa using List.find?_eq_none.mp hfind _ hat.opened)
  | some row =>
    have hindex : row.1.index = position := by simpa using List.find?_some hfind
    obtain ⟨i, hi, rfl⟩ := List.getElem_of_mem (List.mem_of_find?_eq_some hfind)
    obtain ⟨_, hat⟩ := rowAt_of_checkPositions hq hpositions hi
    have hposition : q.positions[i] = position := hat.base_index.symm.trans hindex
    exact ⟨_, rfl, hposition ▸ hat⟩

omit [ExtensionField F] [LawfulExtension F] in
theorem mem_positions (hq : q.Shaped r.composition.heights r.fri) :
    (q.index : Int) ∈ q.positions ∧ ∀ t : Table,
      Composition.nextPosition q.index r.fri.domain.size (r.composition.heights.get t) ∈
        q.positions := by
  rw [hq.positions]
  exact ⟨Composition.index_mem_positions, Composition.nextPosition_mem_positions⟩

def Query.HasValues {F : Type} [ExtensionField F] (q : Query F) (position : Int) (t : Table)
    (v : t.Column → F) : Prop :=
  ∃ row, q.RowAt position row ∧
    rowOf (row.1.values.map Tagged.lift) (row.2.values.map Tagged.lift) t = .ok v

omit [LawfulExtension F] in
theorem exists_hasValues {heights : Heights} {fri : Fri} (hq : q.Shaped heights fri)
    (hpositions : checkPositions q = .ok ()) {position : Int} (hmem : position ∈ q.positions)
    (t : Table) : ∃ v, openedRow q t position = .ok v ∧ q.HasValues position t v := by
  obtain ⟨row, hrow, hat⟩ := exists_rowAt hq hpositions hmem
  obtain ⟨v, hv⟩ := hq.toFull.found hat.opened t
  refine ⟨v, ?_, row, hat, hv⟩
  rw [openedRow, hrow, ok_bind]
  exact hv

/-- The opening of a table is put together from the rows opened at the index of the query and at this
position. -/
def Received.LooksUp {F : Type} [ExtensionField F] (r : Received F) (q : Query F) (t : Table)
    (next : Int) : Prop :=
  ∃ v v', q.HasValues q.index t v ∧ q.HasValues next t v' ∧ tableOpening r q t = .ok ⟨v, v'⟩

omit [LawfulExtension F] in
theorem looksUp_next (hq : q.Shaped r.composition.heights r.fri)
    (hpositions : checkPositions q = .ok ()) (t : Table) :
    r.LooksUp q t
      (Composition.nextPosition q.index r.fri.domain.size (r.composition.heights.get t)) := by
  obtain ⟨hindex, hnext⟩ := mem_positions hq
  obtain ⟨v, hv, hat⟩ := exists_hasValues hq hpositions hindex t
  obtain ⟨v', hv', hat'⟩ := exists_hasValues hq hpositions (hnext t) t
  refine ⟨v, v', hat, hat', ?_⟩
  rw [tableOpening]
  rw [hv, ok_bind, hv', ok_bind]
  rfl

omit [LawfulExtension F] in
theorem safe_tableOpening (hq : q.Shaped r.composition.heights r.fri)
    (hpositions : checkPositions q = .ok ()) (t : Table) :
    Safe (tableOpening r q t) fun _ => True := by
  obtain ⟨v, v', -, -, hopening⟩ := looksUp_next hq hpositions t
  rw [hopening]
  trivial

theorem safe_checkComposition {claim : Claim} (hr : r.Shaped claim) (hmem : q ∈ r.queries)
    (hpositions : checkPositions q = .ok ()) (first : F) :
    Safe (checkComposition r q first) fun _ => True := by
  refine (Safe.ofFnM (P := fun _ _ => True) fun t =>
    safe_tableOpening (hr.queries q hmem) hpositions t).bind fun openings _ => ?_
  rw [Domain.element_eq, ← Domain.elementAt_natCast]
  refine (r.composition.safe_evaluate hr.heights hr.coset q.index openings _ hr.randomizers
    hr.weights).bind fun expected _ => ?_
  exact Safe.ite (fun _ => Safe.rejected) fun _ => trivial

/-- On what has the right shape every check passes or rejects. -/
theorem safe_check {claim : Claim} (hr : r.Shaped claim) (H : Hash) (config : Config) :
    Safe (check r H config) fun _ => True := by
  refine (Safe.forM fun q _ => safe_checkOpenings H).bind fun _ _ => ?_
  refine Safe.ite (fun _ => Safe.rejected) fun _ => ?_
  refine Safe.ite (fun _ => Safe.rejected) fun _ => ?_
  refine (Safe.forM fun q _ => safe_checkPositions).bind_eq fun _ hpositions _ => ?_
  have hoffset : r.fri.domain.offset ≠ 0 := hr.coset ▸ Fp.generator_ne_zero
  refine (Safe.mapM (P := fun _ => True) fun q hq => ?_).bind fun firsts _ => ?_
  · have hshape := hr.queries q hq
    refine r.fri.safe_verifyQuery r.folded q.index ?_ hshape.pairs hoffset ?_
    · exact hshape.layers.trans hr.folded.symm
    · exact hshape.layers.trans_le hr.rounds
  · refine (r.fri.safe_checkTerminal r.folded).bind fun _ _ => ?_
    refine Safe.forM fun (q, first) hzip => ?_
    have hq := (List.of_mem_zip hzip).1
    exact safe_checkComposition hr hq (ok_of_forM hpositions q hq) first

end Verifier

end Field

namespace Verifier

-- As an equation of functions it needs no step of the verifier to be computed.
theorem verify_eq : verify = fun H config proof claim =>
    (verifyOn H config claim (.reader H proof)).1 := rfl

/-- The verifier is total: whatever the bytes of the proof are, a claim that can be absorbed is
accepted or the proof is rejected. -/
theorem verify_ok_or_rejected (H : Hash) (config : Config) (proof : ByteArray) {claim : Claim}
    (hclaim : claim.Packable) :
    verify H config proof claim = .ok () ∨
      ∃ r, verify H config proof claim = .error (.rejected r) := by
  have hreads : Reads (verifyOn H config claim) fun _ => True :=
    (reads_read H config.degree.Carrier config hclaim).bind fun r hr =>
      Reads.lift (safe_check hr H config)
  rw [verify_eq]
  rcases hreads.ok_or_rejected H proof with ⟨_, hok, -⟩ | hrejected
  · exact .inl hok
  · exact .inr hrejected

/-- Three bytes offered as a proof that the program `.` writes a zero byte. -/
theorem verify_three_bytes :
    (Claim.mk #[46] ByteArray.empty [0].toByteArray).Packable ∧
      (verify .blake2b ⟨{}, by decide⟩ [1, 2, 3].toByteArray
          ⟨#[46], ByteArray.empty, [0].toByteArray⟩ = .ok () ∨
        ∃ r, verify .blake2b ⟨{}, by decide⟩ [1, 2, 3].toByteArray
          ⟨#[46], ByteArray.empty, [0].toByteArray⟩ = .error (.rejected r)) := by
  have hclaim : (Claim.mk #[46] ByteArray.empty [0].toByteArray).Packable :=
    ⟨by decide, by decide, by decide, by decide +kernel⟩
  exact ⟨hclaim, verify_ok_or_rejected .blake2b _ _ hclaim⟩

end Verifier

end TapeStark
