import Mathlib
import TapeStark.Proofs.Fourier
import TapeStark.Protocol.Fri

/-! Folding a codeword: entry by entry it combines the values at a point and at its negative, and
on the values of a polynomial it gives those of the combination of its even and odd part. A query
follows the folds of one position from layer to layer. -/

namespace TapeStark

open ExtensionField

namespace Domain

variable {d e : Domain}

theorem squared_eq_ok : d.squared = .ok e ↔
    d.logSize = e.logSize + 1 ∧ e.offset = d.offset * d.offset := by
  obtain ⟨k, offset, h⟩ := d
  obtain ⟨k', offset', h'⟩ := e
  cases k with
  | zero => simp [squared]
  | succ k => simp [squared, eq_comm]

/-- Only the domain of one point has no squares. -/
theorem exists_squared (h : 2 ≤ d.size) : ∃ e, d.squared = .ok e := by
  have hle := d.logSize_le
  have hlog : d.logSize ≠ 0 := by
    intro hzero
    rw [size_eq, hzero] at h
    exact absurd h (by decide)
  exact ⟨⟨d.logSize - 1, d.offset * d.offset, by omega⟩, squared_eq_ok.mpr ⟨by dsimp only; omega, rfl⟩⟩

theorem size_of_squared (h : d.squared = .ok e) : d.size = e.size + e.size := by
  rw [size_eq, size_eq, (squared_eq_ok.mp h).1, pow_succ, mul_two]

theorem generator_of_squared (h : d.squared = .ok e) : e.generator = d.generator * d.generator := by
  have hlog := (squared_eq_ok.mp h).1
  have hle := d.logSize_le
  rw [hlog] at hle
  rw [generator, generator, hlog, ← sq, Fp.rootOfUnity_succ_sq hle]

/-- The points of the squared domain are the squares of the points, by their index. -/
theorem elementAt_of_squared (h : d.squared = .ok e) (i : Int) :
    e.elementAt i = d.elementAt i * d.elementAt i := by
  rw [elementAt_eq_zpow, elementAt_eq_zpow, generator_of_squared h, (squared_eq_ok.mp h).2,
    mul_zpow]
  ring

theorem element_of_squared (h : d.squared = .ok e) (i : Nat) :
    e.element i = d.element i * d.element i := by
  rw [← elementAt_natCast_eq_element, ← elementAt_natCast_eq_element, elementAt_of_squared h]

/-- Half way round stands the negative of a point. -/
theorem elementAt_half_add (h : d.squared = .ok e) (i : Int) :
    d.elementAt (e.size + i) = -d.elementAt i := by
  have hroot : IsPrimitiveRoot d.generator (2 ^ (e.logSize + 1)) := by
    rw [← (squared_eq_ok.mp h).1]
    exact d.isPrimitiveRoot_generator
  rw [elementAt_eq_zpow, elementAt_eq_zpow, zpow_add₀ d.generator_ne_zero, zpow_natCast, size_eq,
    Fourier.pow_half_eq hroot]
  ring

theorem element_half_add (h : d.squared = .ok e) (i : Nat) :
    d.element (e.size + i) = -d.element i := by
  rw [← elementAt_natCast_eq_element, ← elementAt_natCast_eq_element, Nat.cast_add,
    elementAt_half_add h]

theorem element_ne_zero (h : d.offset ≠ 0) (i : Nat) : d.element i ≠ 0 := by
  rw [element_eq]
  exact mul_ne_zero h (pow_ne_zero _ d.generator_ne_zero)

end Domain

namespace Fri

variable {F : Type} [ExtensionField F] [LawfulExtension F] {d e : Domain}

/-- Folding acts on the entries at `j` and half way round from there. -/
theorem fold_eq (h : d.squared = .ok e) (hoffset : d.offset ≠ 0) (alpha : F) {codeword : Array F}
    (hsize : codeword.size = d.size) : fold codeword alpha d =
      .ok ((List.range e.size).map fun j => foldPair (alpha * (ofBase (d.element j))⁻¹)
        (codeword.getD j 0) (codeword.getD (e.size + j) 0)).toArray := by
  have hhalf : codeword.size / 2 = e.size := by
    rw [hsize, Domain.size_of_squared h]
    omega
  have hlength : codeword.toList.length = e.size + e.size := by
    rw [Array.length_toList, hsize, Domain.size_of_squared h]
  have heven : codeword.toList.take e.size = (List.range e.size).map fun j => codeword.getD j 0 := by
    refine List.ext_getElem (by simp [hlength]) fun j hj hj' => ?_
    have hj : j < e.size := by simpa using hj'
    simp [show j < codeword.size by rw [← Array.length_toList]; omega]
  have hodd : codeword.toList.drop e.size =
      (List.range e.size).map fun j => codeword.getD (e.size + j) 0 := by
    refine List.ext_getElem (by simp [hlength]) fun j hj hj' => ?_
    have hj : j < e.size := by simpa using hj'
    simp [show e.size + j < codeword.size by rw [← Array.length_toList]; omega]
  have hshift (j : Nat) : scale (d.generator⁻¹ ^ j * d.offset⁻¹) alpha =
      alpha * (ofBase (d.element j))⁻¹ := by
    rw [scale_eq, ← ofBase_inv, d.element_eq, mul_inv, inv_pow, mul_comm alpha]
    congr 2
    ring
  rw [fold, hhalf, inverse?_eq hoffset, ok_bind]
  dsimp only
  rw [if_pos (by simp [hlength]), heven, hodd, Fourier.powers_eq, List.map_map]
  rw [List.zip_map', List.zipWith_map_left, List.zipWith_map_right, List.zipWith_self]
  simp only [Function.comp_apply, hshift]
  rfl

/-- A word is the fold of another exactly when each entry is that of a pair. -/
theorem fold_eq_ok_iff (h : d.squared = .ok e) (hoffset : d.offset ≠ 0) (alpha : F)
    {codeword folded : Array F} (hsize : codeword.size = d.size) :
    fold codeword alpha d = .ok folded ↔ folded.size = e.size ∧ ∀ j < e.size,
      folded.getD j 0 = foldPair (alpha * (ofBase (d.element j))⁻¹) (codeword.getD j 0)
        (codeword.getD (e.size + j) 0) := by
  rw [fold_eq h hoffset alpha hsize, Except.ok.injEq]
  constructor
  · rintro rfl
    exact ⟨by simp, fun j hj => by simp [hj]⟩
  · rintro ⟨hfolded, hentry⟩
    refine Array.ext (by simp [hfolded]) fun j hj hj' => ?_
    have hvalue := hentry j (hfolded ▸ hj')
    rw [Array.getD_eq_getD_getElem?, Array.getElem?_eq_getElem hj', Option.getD_some] at hvalue
    simp [hvalue]

omit [LawfulExtension F] in
/-- The values of a fold, as the verifier works them out. -/
theorem foldValue_eq {x : F} (hx : x ≠ 0) (even odd alpha : F) :
    foldValue even odd alpha x = .ok (foldPair (alpha * x⁻¹) even odd) := by
  rw [foldValue, inverse?_eq hx]
  rfl

/-- The even part and `alpha` times the odd part. -/
noncomputable def foldPoly (alpha : F) (cs : List F) : Polynomial F :=
  poly (Fourier.evens cs) + Polynomial.C alpha * poly (Fourier.odds cs)

theorem degree_foldPoly_lt (alpha : F) {cs : List F} {m : Nat} (h : cs.length ≤ 2 * m) :
    (foldPoly alpha cs).degree < m := by
  obtain ⟨heven, hodd⟩ := Fourier.length_evens_odds cs
  rw [← Polynomial.mem_degreeLT, foldPoly, ← Polynomial.smul_eq_C_mul]
  refine add_mem ?_ (Submodule.smul_mem _ _ ?_)
  · exact Polynomial.mem_degreeLT.mpr
      ((degree_poly_lt _).trans_le (by exact_mod_cast (show _ ≤ m by omega)))
  · exact Polynomial.mem_degreeLT.mpr
      ((degree_poly_lt _).trans_le (by exact_mod_cast (show _ ≤ m by omega)))

theorem two_ne_zero_base : (Fp.ofNat 2 : Fp) ≠ 0 := by decide

/-- Folding the values at a point and its negative gives the value at the square. -/
theorem foldPair_eval {x : F} (hx : x ≠ 0) (alpha : F) (cs : List F) :
    foldPair (alpha * x⁻¹) ((poly cs).eval x) ((poly cs).eval (-x)) =
      (foldPoly alpha cs).eval (x * x) := by
  have htwo : (ofBase (Fp.ofNat 2) : F) ≠ 0 := ofBase_ne_zero two_ne_zero_base
  have hcast : (ofBase (Fp.ofNat 2) : F) = 2 := by
    rw [← Fp.natCast_eq_ofNat, ofBase_natCast]
    rfl
  rw [foldPair, scale_eq, Fourier.eval_evens_odds cs x, Fourier.eval_evens_odds cs (-x), neg_mul_neg,
    foldPoly, Polynomial.eval_add, Polynomial.eval_mul, Polynomial.eval_C, ofBase_inv,
    inv_mul_eq_iff_eq_mul₀ htwo, hcast]
  field_simp
  ring

/-- Folding the values of a polynomial gives those of the fold of its coefficients. -/
theorem fold_values (h : d.squared = .ok e) (hoffset : d.offset ≠ 0) (alpha : F) (cs : List F) :
    fold (Fourier.values (poly cs) d).toArray alpha d =
      .ok (Fourier.values (foldPoly alpha cs) e).toArray := by
  have hsize := Domain.size_of_squared h
  rw [fold_eq h hoffset alpha (by simp), Fourier.values]
  refine congrArg (fun l => Except.ok (List.toArray l)) (List.map_congr_left fun j hj => ?_)
  have hj := List.mem_range.mp hj
  have hx : (ofBase (d.element j) : F) ≠ 0 := ofBase_ne_zero (d.element_ne_zero hoffset j)
  rw [Fourier.getD_of_values_eq rfl (by omega), Fourier.getD_of_values_eq rfl (by omega),
    Domain.element_half_add h, ofBase_neg, foldPair_eval hx, Domain.element_of_squared h, ofBase_mul]

section Chain

variable {o : Opening (Tagged F)} {openings : List (Opening (Tagged F))} {final : Array F}
  {alphas : List F} {known : Option F} {half position : Nat} {g : Nat → F}

omit [LawfulExtension F] in
theorem pairOf_eq {a b : F} (h : o.values.map Tagged.lift = [a, b]) : pairOf o = .ok (a, b) := by
  rcases o with ⟨index, _ | ⟨even, _ | ⟨odd, _ | _⟩⟩, path⟩
  · simp at h
  · simp at h
  · simp only [List.map_cons, List.map_nil, List.cons.injEq, and_true] at h
    rw [← h.1, ← h.2]
    rfl
  · simp at h

omit [LawfulExtension F] in
/-- Of the two values that lie below a position modulo the half, one is its own. -/
theorem valueOf_eq (h : o.values.map Tagged.lift = [g (position % half), g (half + position % half)])
    {size : Nat} (hsize : size = half + half) (hposition : position < size) :
    valueOf o size position = .ok (g position) := by
  have hhalf : size / 2 = half := by omega
  rw [valueOf, pairOf_eq h, ok_bind, hhalf]
  dsimp only
  split
  · rename_i hlt
    rw [Nat.mod_eq_of_lt (by exact_mod_cast hlt)]
    rfl
  · rename_i hge
    have hge : half ≤ position := by exact_mod_cast not_lt.mp hge
    rw [Nat.mod_eq_sub_mod hge, Nat.mod_eq_of_lt (by omega), Nat.add_sub_cancel' hge]
    rfl

omit [LawfulExtension F] in
/-- Behind the last layer the value has to be that of the last polynomial. -/
theorem followFolds_nil (layer position : Nat) : followFolds final layer alphas [] d position known =
    if known.all (· = Polynomial.eval final (ofBase (d.element position))) then .ok ()
    else .error (.rejected (.degree (.lastFold position))) := by
  rw [followFolds, Domain.elementAt_natCast_eq_element]

/-- In a layer the index is checked first, then the value that is known already; the fold of the
pair is what the next layer has to hold. -/
theorem followFolds_cons (h : d.squared = .ok e) (hoffset : d.offset ≠ 0) {alpha : F}
    (hvalues : o.values.map Tagged.lift =
      [g (position % e.size), g (e.size + position % e.size)])
    (hposition : position < d.size) (layer : Nat) :
    followFolds final layer (alpha :: alphas) (o :: openings) d position known =
      if o.index ≠ (position % e.size : Nat) then
        .error (.rejected (.folding (.layerIndex layer o.index (position % e.size : Nat))))
      else if known.any (· ≠ g position) then
        .error (.rejected (.folding (.layerValue layer position)))
      else followFolds final (layer + 1) alphas openings e (position % e.size : Nat)
        (some (foldPair (alpha * (ofBase (d.element (position % e.size)))⁻¹)
          (g (position % e.size)) (g (e.size + position % e.size)))) := by
  have hsize := Domain.size_of_squared h
  have hhalf : d.size / 2 = e.size := by omega
  have hx : (ofBase (d.element (position % e.size)) : F) ≠ 0 :=
    ofBase_ne_zero (d.element_ne_zero hoffset _)
  rw [followFolds, valueOf_eq hvalues hsize hposition, pairOf_eq hvalues, hhalf]
  simp only [← Int.natCast_emod, Domain.elementAt_natCast_eq_element, ok_bind, foldValue_eq hx, h]
  split
  · rfl
  · split <;> rfl

end Chain

end Fri

end TapeStark
