import Mathlib
import TapeStark.Polynomial
import TapeStark.Proofs.Domain
import TapeStark.Proofs.Polynomial

/-! The Fourier transform, by its recursion and as a loop over levels. -/

namespace TapeStark

/-! The transform gives the values at the powers of its root, its inverse the coefficients; so
evaluation and interpolation over a domain are inverse to each other. -/

section Fourier

open ExtensionField

variable {F : Type} [ExtensionField F] [LawfulExtension F]

namespace Fourier

/-- A polynomial is its even part at the square, and its odd part there times the argument. -/
theorem eval_evens_odds (cs : List F) (x : F) :
    (poly cs).eval x = (poly (evens cs)).eval (x * x) + x * (poly (odds cs)).eval (x * x) := by
  induction cs using evens.induct with
  | case1 => simp [evens, odds]
  | case2 a => simp [evens, odds]
  | case3 a b cs ih =>
    rw [evens, odds]
    simp only [eval_poly, List.foldr_cons] at ih ⊢
    rw [ih]
    ring

omit [ExtensionField F] [LawfulExtension F] in
theorem length_evens_odds (cs : List F) :
    (evens cs).length = (cs.length + 1) / 2 ∧ (odds cs).length = cs.length / 2 := by
  induction cs using evens.induct with
  | case1 => simp [evens, odds]
  | case2 a => simp [evens, odds]
  | case3 a b cs ih =>
    simp only [evens, odds, List.length_cons]
    omega

omit [ExtensionField F] [LawfulExtension F] in
theorem length_evens_odds_of_even {cs : List F} {n : Nat} (h : cs.length = 2 * n) :
    (evens cs).length = n ∧ (odds cs).length = n := by
  have := length_evens_odds cs
  omega

theorem powersFrom_eq {α : Type} [Monoid α] (acc x : α) (n : Nat) :
    powersFrom acc x n = (List.range n).map fun i => acc * x ^ i := by
  induction n generalizing acc with
  | zero => rfl
  | succ n ih =>
    rw [powersFrom, ih, List.range_succ_eq_map, List.map_cons, List.map_map, pow_zero, mul_one]
    congr 1
    refine List.map_congr_left fun i _ => ?_
    rw [Function.comp_apply, pow_succ', mul_assoc]

theorem powers_eq {α : Type} [Monoid α] (x : α) (n : Nat) :
    powers x n = (List.range n).map fun i => x ^ i := by
  rw [powers, powersFrom_eq]
  simp only [one_mul]

/-- Half way round a root of even order is minus one. -/
theorem pow_half_eq {root : Fp} {k : Nat} (h : IsPrimitiveRoot root (2 ^ (k + 1))) :
    root ^ 2 ^ k = -1 := by
  have hsq : root ^ 2 ^ k * root ^ 2 ^ k = 1 := by
    rw [← sq, ← pow_mul, ← pow_succ]
    exact h.pow_eq_one
  have hne : root ^ 2 ^ k ≠ 1 :=
    h.pow_ne_one_of_pos_of_lt (Nat.two_pow_pos k).ne' (Nat.pow_lt_pow_right (by decide) (by omega))
  exact (mul_self_eq_one_iff.mp hsq).resolve_left hne

theorem isPrimitiveRoot_sq {root : Fp} {k : Nat} (h : IsPrimitiveRoot root (2 ^ (k + 1))) :
    IsPrimitiveRoot (root * root) (2 ^ k) := by
  rw [← sq]
  exact h.pow (Nat.two_pow_pos _) (pow_succ' 2 k)

/-- The transform gives the values of the polynomial at the powers of the root. -/
theorem transform_eq {k : Nat} {root : Fp} (hroot : IsPrimitiveRoot root (2 ^ k)) {cs : List F}
    (hlen : cs.length = 2 ^ k) :
    transform k root cs = (List.range (2 ^ k)).map fun i => (poly cs).eval (ofBase (root ^ i)) := by
  induction k generalizing root cs with
  | zero =>
    obtain ⟨c, rfl⟩ := List.length_eq_one_iff.mp hlen
    simp [transform]
  | succ k ih =>
    obtain ⟨heven, hodd⟩ := length_evens_odds_of_even (hlen.trans (pow_succ' 2 k))
    have hsq := isPrimitiveRoot_sq hroot
    have hhalf := pow_half_eq hroot
    have hsplit (i : Nat) : (poly cs).eval (ofBase (root ^ i)) =
        (poly (evens cs)).eval (ofBase ((root * root) ^ i)) +
          ofBase (root ^ i) * (poly (odds cs)).eval (ofBase ((root * root) ^ i)) := by
      rw [eval_evens_odds, ← ofBase_mul, mul_pow]
    rw [transform, ih hsq heven, ih hsq hodd, Nat.pow_eq, powers_eq]
    simp only [List.zipWith_map_left, List.zipWith_map_right, List.zipWith_self]
    rw [pow_succ, mul_two, List.range_add, List.map_append, List.map_map]
    congr 1
    · refine List.map_congr_left fun i _ => ?_
      rw [hsplit, scale_eq]
    · refine List.map_congr_left fun i _ => ?_
      have hpow : (root * root) ^ (2 ^ k + i) = (root * root) ^ i := by
        rw [pow_add, hsq.pow_eq_one, one_mul]
      have hneg : root ^ (2 ^ k + i) = -root ^ i := by rw [pow_add, hhalf, neg_one_mul]
      rw [Function.comp_apply, hsplit, hpow, hneg, scale_eq, ofBase_neg]
      ring

omit [LawfulExtension F] in
theorem length_transform {k : Nat} (root : Fp) {cs : List F} (hlen : cs.length = 2 ^ k) :
    (transform k root cs).length = 2 ^ k := by
  induction k generalizing root cs with
  | zero => exact hlen
  | succ k ih =>
    obtain ⟨heven, hodd⟩ := length_evens_odds_of_even (hlen.trans (pow_succ' 2 k))
    simp only [transform, List.length_append, List.length_zipWith, ih _ heven, ih _ hodd,
      length_powers, Nat.pow_eq, min_self]
    rw [pow_succ, mul_two]

noncomputable def values (p : Polynomial F) (d : Domain) : List F :=
  (List.range d.size).map fun i => p.eval (ofBase (d.element i))

omit [LawfulExtension F] in
@[simp] theorem length_values [LawfulExtension F] (p : Polynomial F) (d : Domain) :
    (values p d).length = d.size := by
  simp [values]

theorem getD_values (p : Polynomial F) (d : Domain) {i : Nat} (hi : i < d.size) (x : F) :
    (values p d).getD i x = p.eval (ofBase (d.element i)) := by
  simp [values, hi]

theorem getD_of_values_eq {p : Polynomial F} {d : Domain} {vs : Array F} (h : values p d = vs.toList)
    {i : Nat} (hi : i < d.size) (x : F) : vs.getD i x = p.eval (ofBase (d.element i)) := by
  rw [← getD_values p d hi x, h]
  simp [List.getD_eq_getElem?_getD]

theorem eval_scaleByPowers (x : Fp) (cs : List F) (y : F) :
    (poly (scaleByPowers x cs)).eval y = (poly cs).eval (ofBase x * y) := by
  have hscale : scaleByPowers x cs = List.zipWith (· * ·) (powers (ofBase x) cs.length) cs := by
    rw [scaleByPowers, powers_eq, powers_eq, List.zipWith_map_left, List.zipWith_map_left]
    refine congrArg₂ (fun f l => List.zipWith f l cs) ?_ rfl
    funext i a
    rw [scale_eq, ofBase_pow]
  rw [hscale, eval_poly_scaled]

omit [LawfulExtension F] in
@[simp] theorem length_scaleByPowers [LawfulExtension F] (x : Fp) (cs : List F) :
    (scaleByPowers x cs).length = cs.length := by
  simp [scaleByPowers]

/-- Evaluation over a domain gives the values there. -/
theorem evaluateOver_eq (p : Array F) (d : Domain) (h : p.size ≤ d.size) :
    evaluateOver p d = .ok (values (poly p.toList) d).toArray := by
  have hlen : (scaleByPowers d.offset p.toList ++
      List.replicate (d.size - p.size) 0).length = 2 ^ d.logSize := by
    rw [List.length_append, length_scaleByPowers, List.length_replicate, Array.length_toList]
    exact Nat.add_sub_of_le h
  rw [evaluateOver, if_neg (not_lt.mpr h)]
  simp only [forward, List.size_toArray, hlen, Nat.pow_eq, if_true]
  rw [transform_eq (Fp.isPrimitiveRoot_rootOfUnity d.logSize_le) hlen]
  refine congrArg (fun l => Except.ok (List.toArray l)) (List.map_congr_left fun i _ => ?_)
  rw [poly_append_zeros, eval_scaleByPowers, ← ofBase_mul, d.element_eq]
  rfl

/-- The powers of a root of unity that is not one add up to zero. -/
theorem sum_pow_eq_zero {ζ : F} {n : Nat} (h1 : ζ ≠ 1) (hn : ζ ^ n = 1) :
    ∑ l ∈ Finset.range n, ζ ^ l = 0 := by
  have := mul_neg_geom_sum ζ n
  rw [hn, sub_self] at this
  exact (mul_eq_zero.mp this).resolve_left (sub_ne_zero.mpr h1.symm)

/-- The transform with the inverse root undoes that with the root, up to the length. -/
theorem eval_transform_inv {k : Nat} {root : Fp} (hroot : IsPrimitiveRoot root (2 ^ k))
    {vs : List F} (hlen : vs.length = 2 ^ k) {m : Nat} (hm : m < 2 ^ k) :
    (poly (transform k root⁻¹ vs)).eval (ofBase (root ^ m)) = (2 ^ k : Nat) * vs.getD m 0 := by
  have hne : root ≠ 0 := hroot.ne_zero (Nat.two_pow_pos k).ne'
  have hlen' := length_transform root⁻¹ hlen
  have term (l : Nat) (hl : l ∈ Finset.range (2 ^ k)) :
      (transform k root⁻¹ vs).getD l 0 * ofBase (root ^ m) ^ l =
        ∑ i ∈ Finset.range (2 ^ k), vs.getD i 0 * ofBase (root⁻¹ ^ i * root ^ m) ^ l := by
    rw [transform_eq hroot.inv hlen]
    have hl := Finset.mem_range.mp hl
    rw [List.getD_eq_getElem?_getD, List.getElem?_map, List.getElem?_range hl, Option.map_some,
      Option.getD_some, eval_poly_eq_sum, hlen, Finset.sum_mul]
    refine Finset.sum_congr rfl fun i _ => ?_
    rw [mul_assoc, ← ofBase_pow, ← ofBase_pow, ← ofBase_pow, ← ofBase_mul, mul_pow,
      pow_right_comm root⁻¹ i l]
  rw [eval_poly_eq_sum, hlen', Finset.sum_congr rfl term, Finset.sum_comm]
  simp only [← Finset.mul_sum]
  rw [Finset.sum_eq_single m]
  · have hone : root⁻¹ ^ m * root ^ m = 1 := by
      rw [← mul_pow, inv_mul_cancel₀ hne, one_pow]
    rw [hone, ofBase_one]
    simp [mul_comm]
  · intro i hi him
    have hi := Finset.mem_range.mp hi
    have hζ : root⁻¹ ^ i * root ^ m ≠ 1 := by
      intro h
      rw [inv_pow] at h
      have := (inv_mul_eq_one₀ (pow_ne_zero i hne)).mp h
      exact him (hroot.pow_inj hi hm this)
    rw [sum_pow_eq_zero, mul_zero]
    · rw [← ofBase_one]
      exact fun h => hζ (ofBase_injective h)
    · rw [← ofBase_pow, mul_pow, ← pow_mul, ← pow_mul, mul_comm i, mul_comm m, pow_mul, pow_mul,
        inv_pow, hroot.pow_eq_one, inv_one, one_pow, one_pow, one_mul, ofBase_one]
  · intro h
    exact absurd (Finset.mem_range.mpr hm) h

/-- A power of two up to the number of roots is no multiple of the prime. -/
theorem two_pow_ne_zero_base {k : Nat} (h : k ≤ Fp.twoAdicity) : ((2 ^ k : Nat) : Fp) ≠ 0 := by
  intro h0
  have hlt : 2 ^ k < prime :=
    (Nat.pow_le_pow_right (by decide) h).trans_lt (show 2 ^ Fp.twoAdicity < prime by decide)
  have hval := congrArg Fp.val h0
  rw [Fp.val_natCast hlt] at hval
  exact (Nat.two_pow_pos k).ne' hval

/-- Interpolation gives as many coefficients as there are values, of the polynomial that has these
values on the domain. -/
theorem exists_interpolate {vs : Array F} {d : Domain} (hsize : vs.size = d.size)
    (hoffset : d.offset ≠ 0) : ∃ cs : Array F, interpolate vs d = .ok cs ∧ cs.size = d.size ∧
      values (poly cs.toList) d = vs.toList := by
  have hlen : vs.toList.length = 2 ^ d.logSize := hsize
  have hroot := Fp.isPrimitiveRoot_rootOfUnity d.logSize_le
  have hcount := two_pow_ne_zero_base d.logSize_le
  -- The coefficients over the subgroup, before the offset is taken into account.
  let base : List F := (transform d.logSize (Fp.rootOfUnity d.logSize)⁻¹ vs.toList).map
    (scale (Fp.ofNat (2 ^ d.logSize))⁻¹)
  have hbackward : backward d.logSize vs = .ok base.toArray := by
    rw [backward, if_pos (show vs.size = Nat.pow 2 d.logSize from hsize)]
    rfl
  have hlenbase : base.length = d.size := by
    rw [List.length_map, length_transform _ hlen]
    rfl
  have heval (m : Nat) (hm : m < d.size) :
      (poly base).eval (ofBase (d.generator ^ m)) = vs.toList.getD m 0 := by
    have hmap : base = (transform d.logSize (Fp.rootOfUnity d.logSize)⁻¹ vs.toList).map
        (ofBase (Fp.ofNat (2 ^ d.logSize))⁻¹ * ·) :=
      List.map_congr_left fun x _ => scale_eq _ x
    have hne : ((2 ^ d.logSize : Nat) : F) ≠ 0 := by
      rw [← ofBase_natCast]
      exact ofBase_ne_zero hcount
    rw [hmap, poly_map_mul, Polynomial.eval_mul, Polynomial.eval_C]
    have := eval_transform_inv hroot hlen hm
    rw [show d.generator = Fp.rootOfUnity d.logSize from rfl, this, ← Fp.natCast_eq_ofNat,
      ofBase_inv, ofBase_natCast, inv_mul_cancel_left₀ hne]
  have hvalues (cs : List F)
      (h : ∀ m < d.size, (poly cs).eval (ofBase (d.element m)) = vs.toList.getD m 0) :
      values (poly cs) d = vs.toList := by
    refine List.ext_getElem (by simp [hsize]) fun m hm hm' => ?_
    have hm : m < d.size := by simpa using hm
    simp only [values, List.getElem_map, List.getElem_range, h m hm]
    rw [List.getD_eq_getElem _ _ hm']
  rw [interpolate, hbackward, ok_bind]
  split
  · rename_i h1
    refine ⟨_, rfl, hlenbase, hvalues _ fun m hm => ?_⟩
    rw [d.element_eq, h1, one_mul]
    exact heval m hm
  · rw [inverse?_eq hoffset, ok_bind]
    refine ⟨_, rfl, (length_scaleByPowers _ _).trans hlenbase, hvalues _ fun m hm => ?_⟩
    rw [eval_scaleByPowers, ← ofBase_mul, d.element_eq, inv_mul_cancel_left₀ hoffset]
    exact heval m hm

/-- Extension evaluates what interpolation gives. -/
theorem extend_eq {vs cs : Array F} {trace wide : Domain} (hok : interpolate vs trace = .ok cs)
    (hsize : cs.size ≤ wide.size) :
    extend vs trace wide = .ok (cs, (values (poly cs.toList) wide).toArray) := by
  rw [extend, hok, ok_bind, evaluateOver_eq cs wide hsize]
  rfl

end Fourier

namespace Domain

variable (d : Domain)

theorem element_injective (hoffset : d.offset ≠ 0) {i j : Nat} (hi : i < d.size) (hj : j < d.size)
    (h : d.element i = d.element j) : i = j := by
  rw [d.element_eq, d.element_eq] at h
  exact d.isPrimitiveRoot_generator.pow_inj hi hj (mul_left_cancel₀ hoffset h)

/-- A polynomial of smaller degree than the domain has points is told by its values there. -/
theorem eq_of_values_eq (hoffset : d.offset ≠ 0) {p q : Polynomial F} (hp : p.degree < d.size)
    (hq : q.degree < d.size) (h : Fourier.values p d = Fourier.values q d) : p = q := by
  have hinj : Set.InjOn (fun i => (ofBase (d.element i) : F)) (Finset.range d.size) := by
    intro i hi j hj hij
    exact d.element_injective hoffset (Finset.mem_range.mp hi) (Finset.mem_range.mp hj)
      (ofBase_injective hij)
  refine Polynomial.eq_of_degree_sub_lt_of_eval_finset_eq
    ((Finset.range d.size).image fun i => (ofBase (d.element i) : F)) ?_ ?_
  · rw [Finset.card_image_of_injOn hinj, Finset.card_range]
    exact (Polynomial.degree_sub_le p q).trans_lt (max_lt hp hq)
  · intro x hx
    obtain ⟨i, hi, rfl⟩ := Finset.mem_image.mp hx
    have hi := Finset.mem_range.mp hi
    have := congrArg (·.getD i 0) h
    simpa only [Fourier.getD_values _ d hi] using this

end Domain

end Fourier

/-! The transform as a loop over levels. The entries are brought into bit-reversed order; then each
level joins neighbouring blocks in place, with every second, fourth, … power of one list of powers
as weights. After `j` levels the blocks are the transforms of the strided parts of the input. -/

namespace Fourier

open ExtensionField

variable {F : Type} [ExtensionField F]

/-- The number with the lowest `k` bits of `i` in the opposite order. -/
def reverseBits : (k : Nat) → (i : Nat) → Nat
  | 0, _ => 0
  | k + 1, i => 2 ^ k * (i % 2) + reverseBits k (i / 2)

/-- The `2^j` entries from `start` on that are `step` apart. -/
def strided {α : Type} [Zero α] (xs : List α) (start step j : Nat) : List α :=
  (List.range (2 ^ j)).map fun i => xs.getD (start + i * step) 0

def bitReversed (k : Nat) (xs : List F) : List F :=
  (List.range (2 ^ k)).map fun i => xs.getD (reverseBits k i) 0

/-- Sums and differences of two blocks, the second one weighted. -/
def join (weights : List Fp) (even odd : List F) : List F :=
  List.zipWith (· + ·) even (List.zipWith scale weights odd) ++
    List.zipWith (· - ·) even (List.zipWith scale weights odd)

/-- One level: joins blocks of `size` entries, two by two. -/
def level (weights : List Fp) (size : Nat) : (count : Nat) → (xs : List F) → List F
  | 0, _ => []
  | count + 1, xs =>
    join weights (xs.take size) ((xs.drop size).take size) ++
      level weights size count (xs.drop (2 * size))

/-- The weights of level `j`, taken from one list of all powers of the root. -/
def weights (k : Nat) (root : Fp) (j : Nat) : List Fp :=
  strided (powers root (2 ^ k)) 0 (2 ^ (k - 1 - j)) j

/-- The entries after `j` levels. -/
def levels (k : Nat) (root : Fp) (xs : List F) : (j : Nat) → List F
  | 0 => bitReversed k xs
  | j + 1 => level (weights k root j) (2 ^ j) (2 ^ (k - 1 - j)) (levels k root xs j)

theorem reverseBits_double (k i : Nat) : reverseBits (k + 1) (2 * i) = reverseBits k i := by
  rw [reverseBits, Nat.mul_mod_right, Nat.mul_div_cancel_left i two_pos, mul_zero, zero_add]

theorem reverseBits_double_succ (k i : Nat) :
    reverseBits (k + 1) (2 * i + 1) = reverseBits k i + 2 ^ k := by
  have hbit : (2 * i + 1) % 2 = 1 := by omega
  have hrest : (2 * i + 1) / 2 = i := by omega
  rw [reverseBits, hbit, hrest, mul_one, add_comm]

example : (List.range 8).map (reverseBits 3) = [0, 4, 2, 6, 1, 5, 3, 7] := by decide

theorem evens_odds_map_range {α : Type} (f : Nat → α) (n : Nat) :
    evens ((List.range (2 * n)).map f) = (List.range n).map (fun i => f (2 * i)) ∧
      odds ((List.range (2 * n)).map f) = (List.range n).map (fun i => f (2 * i + 1)) := by
  induction n generalizing f with
  | zero => exact ⟨rfl, rfl⟩
  | succ n ih =>
    obtain ⟨heven, hodd⟩ := ih fun i => f (i + 2)
    have hrange : (List.range (2 * (n + 1))).map f =
        f 0 :: f 1 :: (List.range (2 * n)).map fun i => f (i + 2) := by
      rw [mul_add, mul_one, List.range_succ_eq_map, List.range_succ_eq_map]
      simp only [List.map_cons, List.map_map]
      rfl
    rw [hrange, List.range_succ_eq_map, evens, odds, heven, hodd]
    simp only [List.map_cons, List.map_map]
    exact ⟨rfl, rfl⟩

theorem evens_strided (xs : List F) (start step j : Nat) :
    evens (strided xs start step (j + 1)) = strided xs start (2 * step) j := by
  rw [strided, pow_succ', (evens_odds_map_range _ _).1, strided]
  refine List.map_congr_left fun i _ => ?_
  rw [mul_comm 2 i, mul_assoc]

theorem odds_strided (xs : List F) (start step j : Nat) :
    odds (strided xs start step (j + 1)) = strided xs (start + step) (2 * step) j := by
  rw [strided, pow_succ', (evens_odds_map_range _ _).2, strided]
  refine List.map_congr_left fun i _ => ?_
  congr 1
  ring

@[simp] theorem length_strided {α : Type} [Zero α] (xs : List α) (start step j : Nat) :
    (strided xs start step j).length = 2 ^ j := by
  simp [strided]

theorem strided_zero (xs : List F) (start step : Nat) :
    strided xs start step 0 = [xs.getD start 0] := by
  rw [strided, pow_zero, List.range_one, List.map_singleton, zero_mul, add_zero]

theorem strided_self {xs : List F} {k : Nat} (hlen : xs.length = 2 ^ k) :
    strided xs 0 1 k = xs := by
  refine List.ext_getElem (by simp [hlen]) fun i hi hi' => ?_
  simp [strided, List.getElem?_eq_getElem hi']

/-- The transform of one block is two smaller ones, joined. -/
theorem transform_succ (j : Nat) (root : Fp) (xs : List F) :
    transform (j + 1) root xs = join (powers root (2 ^ j)) (transform j (root * root) (evens xs))
      (transform j (root * root) (odds xs)) := rfl

/-- The weights of a level are the powers of the root that its blocks are transformed with. -/
theorem weights_eq (i j : Nat) (root : Fp) :
    weights (i + 1 + j) root j = powers (root ^ 2 ^ i) (2 ^ j) := by
  have hstep : i + 1 + j - 1 - j = i := by omega
  rw [weights, hstep, strided, powers_eq, powers_eq]
  refine List.map_congr_left fun l hl => ?_
  have hl := List.mem_range.mp hl
  have hbound : l * 2 ^ i < 2 ^ (i + 1 + j) := by
    calc l * 2 ^ i < 2 ^ j * 2 ^ i := Nat.mul_lt_mul_of_pos_right hl (Nat.two_pow_pos i)
      _ = 2 ^ (j + i) := (pow_add 2 j i).symm
      _ ≤ 2 ^ (i + 1 + j) := Nat.pow_le_pow_right two_pos (by omega)
  rw [zero_add, List.getD_eq_getElem?_getD, List.getElem?_map, List.getElem?_range hbound,
    Option.map_some, Option.getD_some, mul_comm, pow_mul]

/-- A level joins the blocks `2 * b` and `2 * b + 1`. -/
theorem level_flatMap {size : Nat} (ws : List Fp) (count : Nat) {block : Nat → List F}
    (hsize : ∀ b, (block b).length = size) :
    level ws size count ((List.range (2 * count)).flatMap block) =
      (List.range count).flatMap fun b => join ws (block (2 * b)) (block (2 * b + 1)) := by
  induction count generalizing block with
  | zero => rfl
  | succ count ih =>
    have hrange : (List.range (2 * (count + 1))).flatMap block =
        block 0 ++ (block 1 ++ (List.range (2 * count)).flatMap fun b => block (b + 2)) := by
      rw [mul_add, mul_one, List.range_succ_eq_map, List.range_succ_eq_map]
      simp only [List.flatMap_cons, List.map_cons, List.flatMap_map, List.map_map]
      rfl
    have hrest := ih (fun b => hsize (b + 2))
    rw [hrange, level, two_mul size, ← List.drop_drop, List.take_left' (hsize 0),
      List.drop_left' (hsize 0), List.take_left' (hsize 1), List.drop_left' (hsize 1), hrest,
      List.range_succ_eq_map, List.flatMap_cons, List.flatMap_map]
    rfl

/-- After `j` levels each block is the transform of the entries that have the same place up to
`2^i`, the blocks by their places in bit-reversed order. -/
theorem levels_eq (i j : Nat) (root : Fp) {xs : List F} (hlen : xs.length = 2 ^ (i + j)) :
    levels (i + j) root xs j = (List.range (2 ^ i)).flatMap fun b =>
      transform j (root ^ 2 ^ i) (strided xs (reverseBits i b) (2 ^ i) j) := by
  -- The blocks of this level are halves of those of the next, so the number of blocks varies.
  induction j generalizing i with
  | zero =>
    simp only [levels, bitReversed, transform, strided_zero, add_zero]
    exact List.map_eq_flatMap
  | succ j ih =>
    have hk : i + (j + 1) = i + 1 + j := by omega
    have hblocks : 2 ^ (i + 1 + j - 1 - j) = 2 ^ i := by
      congr 1
      omega
    rw [hk] at hlen ⊢
    rw [levels, ih (i + 1) hlen, weights_eq, hblocks, pow_succ' 2 i]
    rw [level_flatMap]
    · refine List.flatMap_congr fun b _ => ?_
      rw [transform_succ, evens_strided, odds_strided, reverseBits_double,
        reverseBits_double_succ, ← pow_add, ← two_mul]
    · intro b
      exact length_transform _ (length_strided ..)

/-- The loop computes the transform. -/
theorem levels_eq_transform {k : Nat} (root : Fp) {xs : List F} (hlen : xs.length = 2 ^ k) :
    levels k root xs k = transform k root xs := by
  have h := levels_eq 0 k root (hlen.trans (by rw [zero_add]))
  rw [zero_add] at h
  rw [h, pow_zero, pow_one, List.range_one, List.flatMap_singleton, reverseBits,
    strided_self hlen]

section Coordinates

variable {G : Type} [ExtensionField G] {φ : F → G}

theorem evens_odds_map {α β : Type} (f : α → β) (xs : List α) :
    evens (xs.map f) = (evens xs).map f ∧ odds (xs.map f) = (odds xs).map f := by
  induction xs using evens.induct with
  | case1 => exact ⟨rfl, rfl⟩
  | case2 a => exact ⟨rfl, rfl⟩
  | case3 a b xs ih => simp [evens, odds, ih]

theorem map_join (hadd : ∀ a b, φ (a + b) = φ a + φ b) (hsub : ∀ a b, φ (a - b) = φ a - φ b)
    (hscale : ∀ w a, φ (scale w a) = scale w (φ a)) (ws : List Fp) (even odd : List F) :
    (join ws even odd).map φ = join ws (even.map φ) (odd.map φ) := by
  have hodd : List.zipWith scale ws (odd.map φ) = (List.zipWith scale ws odd).map φ := by
    rw [List.zipWith_map_right, List.map_zipWith]
    simp only [hscale]
  rw [join, join, hodd, List.map_append, List.map_zipWith, List.map_zipWith, List.zipWith_map,
    List.zipWith_map]
  simp only [hadd, hsub]

/-- A map that respects sums, differences and scaling may be taken before or after. -/
theorem map_transform (hadd : ∀ a b, φ (a + b) = φ a + φ b) (hsub : ∀ a b, φ (a - b) = φ a - φ b)
    (hscale : ∀ w a, φ (scale w a) = scale w (φ a)) (k : Nat) (root : Fp) (xs : List F) :
    (transform k root xs).map φ = transform k root (xs.map φ) := by
  induction k generalizing root xs with
  | zero => rfl
  | succ k ih =>
    obtain ⟨heven, hodd⟩ := evens_odds_map φ xs
    rw [transform_succ, transform_succ, map_join hadd hsub hscale, ih, ih, heven, hodd]

end Coordinates

end Fourier

end TapeStark
