import Mathlib
import TapeStark.Proofs.Protocol.Quotient

/-! The composition of the prover, over the evaluation domain, and that of the verifier, at one of
its points: both are the weighted quotients, the verifier's with what the point constraints are on
their rows. Where the constraints hold they are the values of one polynomial below the bound. -/

namespace TapeStark

open ExtensionField

namespace Domain

variable {F : Type} [ExtensionField F] [LawfulExtension F] {trace wide : Domain}

/-- On the coset the vanishing polynomial of a table is not zero. -/
theorem coset_pow_sub_one_ne_zero (hwide : wide.offset = Fp.generator) (trace : Domain) (i : Nat) :
    (ofBase (wide.element i) : F) ^ trace.size - 1 ≠ 0 := by
  rw [← elementAt_natCast_eq_element, ← ofBase_pow, ← ofBase_one (F := F)]
  intro h
  exact coset_pow_ne_one hwide trace.logSize_le i (ofBase_injective (sub_eq_zero.mp h))

/-- On the coset no row's point is met. -/
theorem coset_sub_ne_zero (hwide : wide.offset = Fp.generator) (hone : trace.offset = 1) (i : Nat)
    (row : Int) : (ofBase (wide.element i) - ofBase (trace.elementAt row) : F) ≠ 0 := by
  rw [← elementAt_natCast_eq_element]
  intro h
  exact coset_ne_subgroup hwide hone i row (ofBase_injective (sub_eq_zero.mp h))

theorem elements_eq (d : Domain) : d.elements = (List.range d.size).map d.element := by
  rw [elements, Fourier.powers_eq, List.map_map]
  exact List.map_congr_left fun i _ => (d.element_eq i).symm

end Domain

theorem batchInverse_eq {F : Type} [ExtensionField F] {xs : Array F} (h : ∀ x ∈ xs, x ≠ 0) :
    batchInverse xs = .ok (xs.map (·⁻¹)) := by
  have hnone : xs.findIdx? (· = 0) = none := by
    rw [Array.findIdx?_eq_none_iff]
    exact fun x hx => decide_eq_false (h x hx)
  rw [batchInverse, hnone]

/-- The inverse of the zerofier exists at every point of the coset. -/
theorem zerofierInverse_eq {trace wide : Domain} (hone : trace.offset = 1)
    (hwide : wide.offset = Fp.generator) :
    zerofierInverse trace wide = .ok ((List.range wide.size).map fun i =>
      (wide.element i - trace.element (trace.size - 1)) *
        (wide.element i ^ trace.size - 1)⁻¹).toArray := by
  have hvalue (i : Nat) : Vanishing.valueAt trace wide i = wide.element i ^ trace.size - 1 := by
    rw [Vanishing.valueAt, hone, one_pow]
  have hinverse : batchInverse ((List.range wide.size).map (Vanishing.valueAt trace wide)).toArray =
      .ok (((List.range wide.size).map (Vanishing.valueAt trace wide)).toArray.map (·⁻¹)) := by
    refine batchInverse_eq fun x hx => ?_
    rw [List.mem_toArray] at hx
    obtain ⟨i, -, rfl⟩ := List.mem_map.mp hx
    rw [hvalue]
    exact Domain.coset_pow_sub_one_ne_zero (F := Fp) hwide trace i
  rw [zerofierInverse, Vanishing.fill_eq trace wide Array.size_replicate, ok_bind, hinverse]
  simp only [pure_eq_ok, Domain.elements_eq, List.map_toArray, List.map_map,
    List.zipWith_map_left, List.zipWith_map_right, List.zipWith_self, Function.comp_apply, hvalue]

/-- The columns of a table at a point and at that of the row behind. -/
noncomputable def TableCode.openingAt {t : Table} {F : Type} [ExtensionField F] [LawfulExtension F]
    (code : TableCode t F) (trace : Domain) (x : F) : TableOpening t F :=
  ⟨fun k => (code.column k).eval x, fun k => (code.column k).eval (ofBase trace.generator * x)⟩

namespace Composition

variable {F : Type} [ExtensionField F] [LawfulExtension F] (c : Composition F) {t : Table}
  {code : TableCode t F} {trace wide : Domain} {cell : Nat → t.Column → F}

/-- The weighted quotients of one table at a point. -/
noncomputable def partAt (code : TableCode t F) (trace : Domain) (weights : TableWeights F)
    (x : F) : F :=
  (code.transitionPoly trace c.challenges weights.transition (c.transitions t)).eval x *
      (x - TableCode.lastPoint trace) * (x ^ trace.size - 1)⁻¹ +
    ((weights.point.zip (c.points t)).map fun k => (code.pointQuotient trace k.1 k.2).eval x).sum

theorem transitionAt_eq (h : code.Extends trace wide cell) (hle : trace.size ≤ wide.size)
    (weights : List F) {i : Nat} (hi : i < wide.size) :
    c.transitionAt code weights wide.size i =
      (code.transitionPoly trace c.challenges weights (c.transitions t)).eval
        (ofBase (wide.element i)) := by
  have hcur : code.value i = fun k => (code.column k).eval (ofBase (wide.element i)) :=
    funext fun k => h.value k i hi
  have hnext : code.value ((i + wide.size / trace.size) % wide.size) = fun k =>
      (code.column k).eval (ofBase trace.generator * ofBase (wide.element i)) := by
    rw [← ofBase_mul, ← Domain.element_stride hle]
    exact funext fun k => h.value k _ (Nat.mod_lt _ wide.size_pos)
  rw [TableCode.eval_transitionPoly, List.sum_eq_foldl, transitionAt, h.domain]
  simp only [Expr.evalAt, hcur, hnext]

/-- The quotients of the point constraints add up over the evaluation domain. -/
theorem pointCodeword_eq (h : code.Extends trace wide cell) (hle : trace.size ≤ wide.size)
    (weights : List F) : c.pointCodeword code weights wide =
      .ok (Fourier.values ((weights.zip (c.points t)).map fun k =>
        code.pointQuotient trace k.1 k.2).sum wide).toArray := by
  have fold (rows : List (Int × List F)) (hrows : ∀ r ∈ rows, r.2.length = trace.size)
      (acc : Array F) (hacc : acc.size = trace.size) : ∃ sum : Array F,
      rows.foldlM (fun acc r => Polynomial.divideOutInto acc r.2.toArray
        (ofBase (trace.elementAt r.1)) 1) acc = .ok sum ∧ sum.size = trace.size ∧
      poly sum.toList = poly acc.toList + TableCode.rowQuotients trace rows := by
    induction rows generalizing acc with
    | nil => exact ⟨acc, rfl, hacc, by simp [TableCode.rowQuotients]⟩
    | cons r rows ih =>
      obtain ⟨hr, hrest⟩ := List.forall_mem_cons.mp hrows
      have hsize : acc.size = r.2.toArray.size := by rw [hacc, List.size_toArray, hr]
      obtain ⟨step, hstep, hstepSize, hstepPoly⟩ :=
        exists_divideOutInto hsize (ofBase (trace.elementAt r.1)) 1
      obtain ⟨sum, hsum, hsumSize, hsumPoly⟩ := ih hrest step (hstepSize.trans hacc)
      refine ⟨sum, ?_, hsumSize, ?_⟩
      · rw [List.foldlM_cons, hstep, ok_bind, hsum]
      · rw [hsumPoly, hstepPoly, TableCode.rowQuotients, TableCode.rowQuotients, List.map_cons,
          List.sum_cons, Polynomial.C_1, one_mul, add_assoc]
  obtain ⟨hlengths, hquotients⟩ :=
    TableCode.rowQuotients_rowPolynomials h (weights.zip (c.points t))
  obtain ⟨sum, hsum, hsize, hpoly⟩ := fold (rowPolynomials code (weights.zip (c.points t)))
    hlengths (Array.replicate trace.size 0) Array.size_replicate
  rw [Array.toList_replicate, poly_replicate_zero, zero_add, hquotients] at hpoly
  rw [← hpoly, ← Fourier.evaluateOver_eq sum wide (hsize ▸ hle), pointCodeword, h.domain]
  exact (congrArg (· >>= fun sum => Fourier.evaluateOver sum wide) hsum).trans rfl

omit [LawfulExtension F] in
theorem replicate_zero_eq_values [LawfulExtension F] (d : Domain) :
    List.replicate d.size (0 : F) = Fourier.values 0 d := by
  simp [Fourier.values, List.map_const']

/-- The prover's part of a table, at every point of the evaluation domain. -/
theorem tableCodeword_eq (h : code.Extends trace wide cell) (hwide : wide.offset = Fp.generator)
    (hle : trace.size ≤ wide.size) (weights : TableWeights F) :
    c.tableCodeword code weights wide =
      .ok ((List.range wide.size).map fun i =>
        c.partAt code trace weights (ofBase (wide.element i))) := by
  have hpoint (rest : List F → Except Error (List F)) :
      (if (c.points t).isEmpty then rest (Array.replicate wide.size 0).toList
        else c.pointCodeword code weights.point wide >>= fun point => rest point.toList) =
      rest (Fourier.values ((weights.point.zip (c.points t)).map fun k =>
        code.pointQuotient trace k.1 k.2).sum wide) := by
    split
    · rename_i hempty
      rw [List.isEmpty_iff.mp hempty, List.zip_nil_right, Array.toList_replicate,
        replicate_zero_eq_values]
      rfl
    · rw [c.pointCodeword_eq h hle weights.point, ok_bind]
  have htransition (rest : List F → Except Error (List F)) :
      (if (c.transitions t).isEmpty then rest (List.replicate wide.size 0)
        else zerofierInverse code.base.domain wide >>= fun zerofier =>
          rest (List.zipWith scale zerofier.toList ((List.range wide.size).map fun i =>
            c.transitionAt code weights.transition wide.size i))) =
      rest ((List.range wide.size).map fun i =>
        (code.transitionPoly trace c.challenges weights.transition (c.transitions t)).eval
          (ofBase (wide.element i)) * (ofBase (wide.element i) - TableCode.lastPoint trace) *
          (ofBase (wide.element i) ^ trace.size - 1)⁻¹) := by
    split
    · rename_i hempty
      rw [List.isEmpty_iff.mp hempty, replicate_zero_eq_values, TableCode.transitionPoly,
        List.zipWith_nil_right, List.sum_nil, Fourier.values]
      simp only [Polynomial.eval_zero, zero_mul]
    · rw [h.domain, zerofierInverse_eq h.offset hwide, ok_bind]
      refine congrArg rest ?_
      simp only [List.zipWith_map_left, List.zipWith_map_right, List.zipWith_self]
      refine List.map_congr_left fun i hi => ?_
      rw [c.transitionAt_eq h hle _ (List.mem_range.mp hi), scale_eq, ofBase_mul, ofBase_sub,
        ofBase_inv, ofBase_sub, ofBase_pow, ofBase_one, TableCode.lastPoint]
      ring
  rw [tableCodeword]
  refine (htransition fun transition =>
    if (c.points t).isEmpty then
      .ok (List.zipWith (· + ·) transition (Array.replicate wide.size 0).toList)
    else c.pointCodeword code weights.point wide >>= fun point =>
      .ok (List.zipWith (· + ·) transition point.toList)).trans ?_
  refine (hpoint fun point => .ok (List.zipWith (· + ·) _ point)).trans (congrArg Except.ok ?_)
  rw [Fourier.values]
  simp only [List.zipWith_map_left, List.zipWith_map_right, List.zipWith_self]
  refine List.map_congr_left fun i _ => ?_
  rw [partAt, ← Polynomial.coe_evalRingHom, map_list_sum, List.map_map]
  rfl

/-- The weighted quotients from the values of the constraints. -/
theorem quotients_eq {x : F} (weights : TableWeights F) (transitions : List F)
    (points : List (Int × F)) (hvanishing : x ^ trace.size - 1 ≠ 0)
    (hrow : ∀ row, x - ofBase (trace.elementAt row) ≠ 0) :
    quotients x trace weights (transitions.map .ok) (points.map fun p => (p.1, .ok p.2)) =
      .ok ((List.zipWith (· * ·) weights.transition transitions).sum *
          (x - TableCode.lastPoint trace) * (x ^ trace.size - 1)⁻¹ +
        ((weights.point.zip points).map fun k =>
          k.1 * k.2.2 * (x - ofBase (trace.elementAt k.2.1))⁻¹).sum) := by
  have hpoint (acc : F) : (weights.point.zip (points.map fun p =>
      (p.1, (Except.ok p.2 : Except Error F)))).foldlM (fun acc k => do
        let value ← k.2.2
        let inverse ← inverse? (x - ofBase (trace.elementAt k.2.1))
        return acc + k.1 * value * inverse) acc =
      .ok (acc + ((weights.point.zip points).map fun k =>
        k.1 * k.2.2 * (x - ofBase (trace.elementAt k.2.1))⁻¹).sum) := by
    rw [← foldl_add_eq_sum, List.zip_map_right, List.foldlM_map]
    refine foldlM_eq_foldl (fun k _ acc => ?_) acc
    simp only [Prod.map_fst, Prod.map_snd, id_eq, ok_bind, inverse?_eq (hrow k.2.1), pure_eq_ok]
  have hfold : (weights.transition.zip (transitions.map (Except.ok (ε := Error)))).foldlM
      (fun acc k => return acc + k.1 * (← k.2)) 0 =
      .ok (List.zipWith (· * ·) weights.transition transitions).sum := by
    have hsum := foldl_add_eq_sum (fun k : F × F => k.1 * k.2)
      (weights.transition.zip transitions) 0
    rw [zero_add, List.map_zip_eq_zipWith] at hsum
    refine Eq.trans ?_ (congrArg Except.ok hsum)
    rw [List.zip_map_right, List.foldlM_map]
    exact foldlM_eq_foldl (fun k _ acc => rfl) 0
  have htransition (rest : F → Except Error F) :
      (if (transitions.map (Except.ok (ε := Error))).isEmpty then rest 0
        else (weights.transition.zip (transitions.map (Except.ok (ε := Error)))).foldlM
            (fun acc k => return acc + k.1 * (← k.2)) 0 >>= fun combined =>
          inverse? (power x trace.size - 1) >>= fun inverse =>
            rest (combined * (x - ofBase (trace.element (trace.size - 1))) * inverse)) =
      rest ((List.zipWith (· * ·) weights.transition transitions).sum *
        (x - TableCode.lastPoint trace) * (x ^ trace.size - 1)⁻¹) := by
    split
    · rename_i hempty
      rw [List.isEmpty_map, List.isEmpty_iff] at hempty
      rw [hempty, List.zipWith_nil_right, List.sum_nil, zero_mul, zero_mul]
    · rw [power_eq_pow, inverse?_eq hvanishing, hfold]
      rfl
  rw [quotients]
  refine (htransition fun acc => (weights.point.zip (points.map fun p =>
      (p.1, (Except.ok p.2 : Except Error F)))).foldlM (fun acc k => do
        let value ← k.2.2
        let inverse ← inverse? (x - ofBase (trace.elementAt k.2.1))
        return acc + k.1 * value * inverse) acc).trans (hpoint _)

/-- What the point constraints are on their rows, weighted, at a point. -/
noncomputable def rowsAt (code : TableCode t F) (trace : Domain) (weights : TableWeights F)
    (x : F) : F :=
  ((weights.point.zip (c.points t)).map fun k =>
    k.1 * k.2.eval (fun l => (code.column l).eval (ofBase (trace.elementAt k.2.row))) *
      (x - ofBase (trace.elementAt k.2.row))⁻¹).sum

/-- The verifier's part of a table at a point of the evaluation domain: also what the point
constraints are on their rows. -/
theorem tableValue_eq (h : code.Extends trace wide cell) (hwide : wide.offset = Fp.generator)
    (hheight : c.heights.get t = trace.size) (weights : TableWeights F) (i : Nat) :
    c.tableValue (ofBase (wide.element i)) (code.openingAt trace (ofBase (wide.element i))) weights =
      .ok (c.partAt code trace weights (ofBase (wide.element i)) +
        c.rowsAt code trace weights (ofBase (wide.element i))) := by
  have hdomain : Domain.subgroup? (c.heights.get t) = .ok trace := by
    rw [hheight, Domain.size_eq, Domain.subgroup?_two_pow trace.logSize_le, ← h.offset]
  have hvanishing : (ofBase (wide.element i) : F) ^ trace.size - 1 ≠ 0 :=
    Domain.coset_pow_sub_one_ne_zero hwide trace i
  have hrow (row : Int) : (ofBase (wide.element i) - ofBase (trace.elementAt row) : F) ≠ 0 :=
    Domain.coset_sub_ne_zero hwide h.offset i row
  have hquotients := quotients_eq weights
    ((c.transitions t).map fun k => k.expr.eval (fun l => (code.column l).eval (ofBase (wide.element i)))
      (fun l => (code.column l).eval (ofBase trace.generator * ofBase (wide.element i))) c.challenges)
    ((c.points t).map fun p =>
      (p.row, p.eval fun l => (code.column l).eval (ofBase (wide.element i)))) hvanishing hrow
  rw [List.map_map, List.map_map, List.zip_map_right, List.map_map, List.zipWith_map_right]
    at hquotients
  rw [tableValue, hdomain, ok_bind]
  refine hquotients.trans (congrArg Except.ok ?_)
  rw [partAt, rowsAt, TableCode.eval_transitionPoly, add_assoc, ← List.sum_map_add]
  refine congrArg₂ (· + ·) rfl (congrArg List.sum (List.map_congr_left fun k _ => ?_))
  rw [TableCode.eval_pointQuotient h k.1 k.2 (hrow k.2.row)]
  simp only [Function.comp_apply, Prod.map_fst, Prod.map_snd, id_eq]
  ring

end Composition

theorem le_foldl_max {α : Type} [LinearOrder α] {x : α} {xs : List α} (h : x ∈ xs) (a : α) :
    x ≤ xs.foldl max a :=
  (List.le_max_of_le' a h le_rfl).trans_eq List.foldl_eq_foldr.symm

/-- The declared degrees bound the degrees in the cells. -/
theorem Table.degree_expr_le {t : Table} {k : Transition t.Column} (hk : k ∈ t.transitions) :
    k.expr.degree ≤ k.degree := by
  have hall : ∀ k ∈ t.transitions, k.expr.degree ≤ k.degree := by cases t <;> decide
  exact hall k hk

/-- No quotient reaches the degree bound, and no table is higher. -/
theorem Heights.lt_degreeBound (h : Heights) (t : Table) :
    h.get t ≤ h.degreeBound ∧ (1 < h.get t → t.quotientDegree (h.get t) < h.degreeBound) := by
  set degree : Table → Int := fun t =>
    if h.get t > 1 then max (t.quotientDegree (h.get t)) (h.get t - 1) else h.get t - 1 with hdegree
  have hfold : degree t ≤ (Table.all.map degree).foldl max 0 :=
    le_foldl_max (List.mem_map_of_mem t.mem_all) 0
  have hle : (Table.all.map degree).foldl max 0 + 1 ≤ (h.degreeBound : Int) :=
    le_nextPowerOfTwo _
  simp only [hdegree] at hfold hle
  split at hfold <;> omega

theorem Heights.le_degreeBound {h : Heights} {t : Table} {n : Nat} (hheight : h.get t = n) :
    n ≤ h.degreeBound := by
  have := (h.lt_degreeBound t).1
  rw [hheight] at this
  exact_mod_cast this

/-- What the transitions of a table can reach is less than the bound and its rows together. -/
theorem Heights.maxDegree_lt {h : Heights} {t : Table} {n : Nat} (hheight : h.get t = n)
    (hrows : 1 < n) : t.maxDegree * (n - 1) + 1 < h.degreeBound + n := by
  have hquotient := (h.lt_degreeBound t).2
  rw [hheight] at hquotient
  have := hquotient (by exact_mod_cast hrows)
  rw [Table.quotientDegree] at this
  zify [Nat.le_of_lt hrows]
  nlinarith

/-- An evaluation domain that expands the degree bound has at least as many points. -/
theorem Heights.degreeBound_le_size {h : Heights} {expansion : Int} {wide : Domain}
    (hwide : Domain.coset? (h.degreeBound * expansion) = .ok wide) : h.degreeBound ≤ wide.size := by
  obtain ⟨hsize, -⟩ := Domain.ofSize?_eq_ok.mp hwide
  have hsizePos := wide.size_pos
  have hpos : 0 < expansion := by
    by_contra hneg
    have : (h.degreeBound : Int) * expansion ≤ 0 :=
      mul_nonpos_of_nonneg_of_nonpos (Int.natCast_nonneg _) (not_lt.mp hneg)
    omega
  have hle : (h.degreeBound : Int) ≤ h.degreeBound * expansion :=
    le_mul_of_one_le_right (Int.natCast_nonneg _) hpos
  rw [hsize] at hle
  exact_mod_cast hle

namespace Composition

variable {F : Type} [ExtensionField F] [LawfulExtension F] (c : Composition F) {t : Table}
  {code : TableCode t F} {trace wide : Domain} {cell : Nat → t.Column → F}

omit [ExtensionField F] [LawfulExtension F] in
theorem degree_le_maxDegree {t : Table} {k : Transition t.Column} (hk : k ∈ t.transitions) :
    k.expr.degree ≤ t.maxDegree :=
  (Table.degree_expr_le hk).trans (le_foldl_max (List.mem_map_of_mem hk) 0)

omit [ExtensionField F] [LawfulExtension F] in
theorem mem_transitions {k : Transition t.Column} :
    k ∈ c.transitions t ↔ 1 < c.heights.get t ∧ k ∈ t.transitions := by
  rw [transitions]
  split <;> simp_all

/-- Where the transitions hold, the part of a table is a polynomial below the degree bound. -/
theorem exists_partAt (h : code.Extends trace wide cell) (hwide : wide.offset = Fp.generator)
    (hheight : c.heights.get t = trace.size)
    (hholds : ∀ k ∈ t.transitions, k.Holds trace.size cell c.challenges)
    (weights : TableWeights F) : ∃ p : Polynomial F, p.degree < c.heights.degreeBound ∧
      ∀ i, c.partAt code trace weights (ofBase (wide.element i)) =
        p.eval (ofBase (wide.element i)) := by
  have hle := (c.heights.lt_degreeBound t).1
  rw [hheight] at hle
  have hrows {k : Transition t.Column} (hk : k ∈ c.transitions t) : 1 < trace.size := by
    have := (c.mem_transitions.mp hk).1
    rw [hheight] at this
    exact_mod_cast this
  have hbound : (if 1 < trace.size then t.maxDegree else 0) * (trace.size - 1) + 1 <
      c.heights.degreeBound + trace.size := by
    have hpos := trace.size_pos
    split
    · exact Heights.maxDegree_lt hheight ‹_›
    · omega
  obtain ⟨q, hq, hmul⟩ := TableCode.exists_transitionQuotient c.challenges weights.transition
    (c.transitions t) h (fun k hk => hholds k (c.mem_transitions.mp hk).2)
    (fun k hk => (if_pos (hrows hk)).symm ▸ degree_le_maxDegree (c.mem_transitions.mp hk).2) hbound
  refine ⟨q + ((weights.point.zip (c.points t)).map fun k =>
    code.pointQuotient trace k.1 k.2).sum, ?_, fun i => ?_⟩
  · rw [← Polynomial.mem_degreeLT]
    refine add_mem (Polynomial.mem_degreeLT.mpr hq) (list_sum_mem fun p hp => ?_)
    obtain ⟨k, -, rfl⟩ := List.mem_map.mp hp
    rw [Polynomial.mem_degreeLT]
    exact (TableCode.degree_pointQuotient_lt h k.1 k.2).trans_le (by exact_mod_cast hle)
  · have hvanishing : (ofBase (wide.element i) : F) ^ trace.size - 1 ≠ 0 :=
      Domain.coset_pow_sub_one_ne_zero hwide trace i
    have heval := congrArg (fun q => q.eval (ofBase (wide.element i))) hmul
    simp only [Polynomial.eval_mul, Polynomial.eval_sub, Polynomial.eval_pow, Polynomial.eval_X,
      Polynomial.eval_one, Polynomial.eval_C] at heval
    rw [partAt, Polynomial.eval_add, ← heval, mul_inv_cancel_right₀ hvanishing]
    congr 1
    rw [← Polynomial.coe_evalRingHom, map_list_sum, List.map_map]
    rfl

/-- Where the point constraints hold they are zero on their rows. -/
theorem rowsAt_eq_zero (h : code.Extends trace wide cell)
    (hholds : ∀ p ∈ c.points t, p.Holds trace.size cell) (weights : TableWeights F) (x : F) :
    c.rowsAt code trace weights x = 0 := by
  refine List.sum_eq_zero fun y hy => ?_
  obtain ⟨k, hk, rfl⟩ := List.mem_map.mp hy
  obtain ⟨i, hi, heval⟩ := hholds k.2 (List.of_mem_zip hk).2
  have hcell : (fun l => (code.column l).eval (ofBase (trace.elementAt k.2.row))) = cell i := by
    rw [TableCode.elementAt_of_position? hi]
    exact funext fun l => h.cell l i (position?_lt hi)
  rw [hcell, heval, mul_zero, zero_mul]

section Total

variable {c} {tables : PerTable fun t => TableCode t F} {trace : Table → Domain}
  {cell : (t : Table) → Nat → t.Column → F} {weights : List F} {split : Weights F}
  {masks : List (Polynomial F)}

omit [LawfulExtension F] in
theorem constraintCount_pos : 0 < c.constraintCount := Nat.lt_of_lt_of_le
  (by simp [points, Table.points, Table.boundary, Air.Processor.boundary])
  (Nat.le_add_right ((c.transitions .processor).length + (c.points .processor).length) _)

omit [LawfulExtension F] in
/-- As many weights as the composition has are split; there is at least one. -/
theorem weightsOf_eq (hrandomizers : 0 ≤ c.randomizers)
    (h : (weights.length : Int) = c.numWeights) :
    c.weightsOf weights = .ok ⟨(c.takeTables weights).1, (c.takeTables weights).2⟩ := by
  have hcount := constraintCount_pos (c := c)
  have hne : weights.isEmpty = false := by
    cases weights with
    | nil =>
      rw [numWeights, List.length_nil] at h
      omega
    | cons => rfl
  rw [weightsOf, hne, splitWeights, if_neg Bool.false_ne_true, if_pos h]
  rfl

/-- Codewords added one by one. -/
theorem foldl_zipWith_add (d : Domain) (fs : List (Nat → F)) (g : Nat → F) :
    (fs.map fun f => (List.range d.size).map f).foldl (List.zipWith (· + ·))
        ((List.range d.size).map g) =
      (List.range d.size).map fun i => g i + (fs.map fun f => f i).sum := by
  induction fs generalizing g with
  | nil => simp
  | cons f fs ih =>
    rw [List.map_cons, List.foldl_cons]
    simp only [List.zipWith_map_left, List.zipWith_map_right, List.zipWith_self]
    rw [ih]
    refine List.map_congr_left fun i _ => ?_
    rw [List.map_cons, List.sum_cons, add_assoc]

/-- The prover's composition at every point of the evaluation domain. -/
theorem compose_eq (h : ∀ t, (tables.get t).Extends (trace t) wide (cell t))
    (hwide : wide.offset = Fp.generator) (hle : ∀ t, (trace t).size ≤ wide.size)
    (hweights : c.weightsOf weights = .ok split) :
    c.compose tables weights (masks.map fun p => (Fourier.values p wide).toArray) wide =
      .ok ((List.range wide.size).map fun i =>
        (Table.all.map fun t => c.partAt (tables.get t) (trace t) (split.tables.get t)
          (ofBase (wide.element i))).sum +
        (List.zipWith (fun w p => w * p.eval (ofBase (wide.element i)))
          split.randomizer masks).sum).toArray := by
  have hparts : (Table.all.mapM fun t =>
      c.tableCodeword (tables.get t) (split.tables.get t) wide) =
      .ok (Table.all.map fun t => (List.range wide.size).map fun i =>
        c.partAt (tables.get t) (trace t) (split.tables.get t) (ofBase (wide.element i))) :=
    mapM_eq_map fun t _ => c.tableCodeword_eq (h t) hwide (hle t) _
  have hzeros : List.replicate wide.size (0 : F) = (List.range wide.size).map fun _ => 0 := by
    simp [List.map_const']
  have hlists : (Table.all.map fun t => (List.range wide.size).map fun i =>
        c.partAt (tables.get t) (trace t) (split.tables.get t) (ofBase (wide.element i))) ++
      List.zipWith (fun w (r : Array F) => r.toList.map (w * ·)) split.randomizer
        (masks.map fun p => (Fourier.values p wide).toArray) =
      ((Table.all.map fun t i =>
          c.partAt (tables.get t) (trace t) (split.tables.get t) (ofBase (wide.element i))) ++
        List.zipWith (fun w p i => w * p.eval (ofBase (wide.element i))) split.randomizer
          masks).map fun f => (List.range wide.size).map f := by
    rw [List.map_append, List.map_map, List.map_zipWith, List.zipWith_map_right]
    simp only [Fourier.values, List.map_map, Function.comp_def]
  rw [compose, hweights, ok_bind, hparts, ok_bind, pure_eq_ok, hlists, hzeros, foldl_zipWith_add]
  refine congrArg (fun l => Except.ok (List.toArray l)) (List.map_congr_left fun i _ => ?_)
  rw [zero_add, List.map_append, List.sum_append, List.map_map, List.map_zipWith]
  rfl

/-- The verifier's composition at a point of the evaluation domain. -/
theorem evaluate_eq (h : ∀ t, (tables.get t).Extends (trace t) wide (cell t))
    (hwide : wide.offset = Fp.generator) (hheights : ∀ t, c.heights.get t = (trace t).size)
    (hweights : c.weightsOf weights = .ok split) (i : Nat) :
    c.evaluate (ofBase (wide.element i))
        (PerTable.ofFn fun t => (tables.get t).openingAt (trace t) (ofBase (wide.element i)))
        (masks.map fun p => p.eval (ofBase (wide.element i))) weights =
      .ok ((Table.all.map fun t => c.partAt (tables.get t) (trace t) (split.tables.get t)
          (ofBase (wide.element i)) + c.rowsAt (tables.get t) (trace t) (split.tables.get t)
          (ofBase (wide.element i))).sum +
        (List.zipWith (fun w p => w * p.eval (ofBase (wide.element i)))
          split.randomizer masks).sum) := by
  have hparts : (Table.all.mapM fun t => c.tableValue (ofBase (wide.element i))
      ((PerTable.ofFn fun t => (tables.get t).openingAt (trace t)
        (ofBase (wide.element i))).get t) (split.tables.get t)) =
      .ok (Table.all.map fun t => c.partAt (tables.get t) (trace t) (split.tables.get t)
        (ofBase (wide.element i)) + c.rowsAt (tables.get t) (trace t) (split.tables.get t)
        (ofBase (wide.element i))) := by
    refine mapM_eq_map fun t _ => ?_
    rw [PerTable.get_ofFn]
    exact c.tableValue_eq (h t) hwide (hheights t) _ i
  rw [evaluate, hweights, ok_bind, hparts, ok_bind, pure_eq_ok, ← List.sum_eq_foldl,
    List.sum_append, List.zipWith_map_right]

/-- Where all constraints hold, prover and verifier have the values of one polynomial below the
degree bound, whatever the weights and the masks are. -/
theorem exists_composition (h : ∀ t, (tables.get t).Extends (trace t) wide (cell t))
    (hwide : wide.offset = Fp.generator) (hle : ∀ t, (trace t).size ≤ wide.size)
    (hheights : ∀ t, c.heights.get t = (trace t).size)
    (htransitions : ∀ t : Table, ∀ k ∈ t.transitions, k.Holds (trace t).size (cell t) c.challenges)
    (hpoints : ∀ t, ∀ p ∈ c.points t, p.Holds (trace t).size (cell t))
    (hmasks : ∀ p ∈ masks, p.degree < c.heights.degreeBound)
    (hweights : c.weightsOf weights = .ok split) :
    ∃ p : Polynomial F, p.degree < c.heights.degreeBound ∧
      c.compose tables weights (masks.map fun p => (Fourier.values p wide).toArray) wide =
        .ok (Fourier.values p wide).toArray ∧
      ∀ i, c.evaluate (ofBase (wide.element i))
          (PerTable.ofFn fun t => (tables.get t).openingAt (trace t) (ofBase (wide.element i)))
          (masks.map fun p => p.eval (ofBase (wide.element i))) weights =
        .ok (p.eval (ofBase (wide.element i))) := by
  choose part hpart hvalue using fun t =>
    c.exists_partAt (h t) hwide (hheights t) (htransitions t) (split.tables.get t)
  have heval (i : Nat) : (Table.all.map fun t => c.partAt (tables.get t) (trace t)
          (split.tables.get t) (ofBase (wide.element i))).sum +
        (List.zipWith (fun w p => w * p.eval (ofBase (wide.element i)))
          split.randomizer masks).sum =
      ((Table.all.map part).sum + (List.zipWith (fun w p => Polynomial.C w * p)
        split.randomizer masks).sum).eval (ofBase (wide.element i)) := by
    rw [Polynomial.eval_add, ← Polynomial.coe_evalRingHom, map_list_sum, map_list_sum,
      List.map_map, List.map_zipWith]
    simp only [Function.comp_def, Polynomial.coe_evalRingHom, Polynomial.eval_mul,
      Polynomial.eval_C, hvalue]
  refine ⟨(Table.all.map part).sum + (List.zipWith (fun w p => Polynomial.C w * p)
    split.randomizer masks).sum, ?_, ?_, fun i => ?_⟩
  · rw [← Polynomial.mem_degreeLT]
    refine add_mem (list_sum_mem fun p hp => ?_) (list_sum_mem fun p hp => ?_)
    · obtain ⟨t, -, rfl⟩ := List.mem_map.mp hp
      exact Polynomial.mem_degreeLT.mpr (hpart t)
    · obtain ⟨i, hi, rfl⟩ := List.getElem_of_mem hp
      rw [List.getElem_zipWith, ← Polynomial.smul_eq_C_mul]
      exact Submodule.smul_mem _ _ (Polynomial.mem_degreeLT.mpr (hmasks _ (List.getElem_mem _)))
  · rw [compose_eq h hwide hle hweights, Fourier.values]
    exact congrArg (fun l => Except.ok (List.toArray l)) (List.map_congr_left fun i _ => heval i)
  · rw [evaluate_eq h hwide hheights hweights, ← heval]
    simp only [fun t => c.rowsAt_eq_zero (h t) (hpoints t) (split.tables.get t), add_zero]

/-- A codeword passes exactly if its polynomial stays below the bound. -/
theorem checkDegree_values_iff (hoffset : wide.offset ≠ 0) {p : Polynomial F} {bound : Nat}
    (hp : p.degree < wide.size) :
    checkDegree (Fourier.values p wide).toArray wide bound = .ok () ↔ p.degree < bound := by
  have hcount : (Fourier.values p wide).toArray.size = wide.size := by simp
  obtain ⟨cs, hok, hsize, hvalues⟩ := Fourier.exists_interpolate hcount hoffset
  have hdegree := degree_poly_lt cs.toList
  rw [Array.length_toList, hsize] at hdegree
  have hpoly : poly cs.toList = p := wide.eq_of_values_eq hoffset hdegree hp hvalues
  rw [checkDegree, hok, ok_bind, ← hpoly, ← degree_lt_iff, ← not_le]
  by_cases h : (bound : Int) ≤ Polynomial.degree cs
  · simp [h]
  · simp [h]

end Total

section Positions

variable {heights : Heights} {index size : Nat}

theorem nextPosition_eq {index size height : Int} (hsize : 0 ≤ size) (hheight : 0 ≤ height) :
    nextPosition index size height = (index + size / height) % size := by
  rw [nextPosition, Int.fdiv_eq_ediv_of_nonneg _ hheight, Int.fmod_eq_emod_of_nonneg _ hsize]

theorem nextPosition_natCast (height : Nat) :
    nextPosition index size height = ((index + size / height) % size : Nat) := by
  rw [nextPosition_eq (Int.natCast_nonneg _) (Int.natCast_nonneg _)]
  push_cast
  rfl

theorem exists_positions : ∃ rest, positions heights index size = (index : Int) :: rest := by
  rw [positions, List.eraseDups_cons]
  exact ⟨_, rfl⟩

theorem index_mem_positions : (index : Int) ∈ positions heights index size := by
  obtain ⟨rest, hrest⟩ : ∃ rest, positions heights index size = (index : Int) :: rest :=
    exists_positions
  rw [hrest]
  exact List.mem_cons_self ..

theorem nextPosition_mem_positions (t : Table) :
    nextPosition index size (heights.get t) ∈ positions heights index size := by
  rw [positions, List.mem_eraseDups]
  exact List.mem_cons_of_mem _ (List.mem_map_of_mem t.mem_all)

/-- All positions are those of points. -/
theorem lt_of_mem_positions (hindex : index < size) {position : Int}
    (h : position ∈ positions heights index size) : ∃ i : Nat, i < size ∧ position = i := by
  have hsize : (0 : Int) < size := by omega
  rw [positions, List.mem_eraseDups, List.mem_cons] at h
  rcases h with rfl | h
  · exact ⟨index, hindex, rfl⟩
  · obtain ⟨t, -, rfl⟩ := List.mem_map.mp h
    have hnonneg := Int.fmod_nonneg_of_pos (index + (size : Int).fdiv (heights.get t)) hsize
    have hlt := Int.fmod_lt_of_pos (index + (size : Int).fdiv (heights.get t)) hsize
    obtain ⟨i, hi⟩ := Int.eq_ofNat_of_zero_le hnonneg
    exact ⟨i, by omega, hi⟩

end Positions

end Composition

end TapeStark
