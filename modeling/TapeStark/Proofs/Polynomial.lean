import Mathlib
import TapeStark.Polynomial
import TapeStark.Proofs.Field.Lawful

/-! Lists of coefficients as polynomials: evaluation, degree and division by a linear factor. -/

namespace TapeStark

open ExtensionField

variable {F : Type} [ExtensionField F] [LawfulExtension F]

/-- The polynomial with these coefficients, the constant term first. -/
noncomputable def poly (cs : List F) : Polynomial F :=
  cs.foldr (fun c p => p * Polynomial.X + Polynomial.C c) 0

@[simp] theorem poly_nil : poly ([] : List F) = 0 := rfl

@[simp] theorem poly_cons (c : F) (cs : List F) :
    poly (c :: cs) = poly cs * Polynomial.X + Polynomial.C c := rfl

theorem coeff_poly (cs : List F) (n : Nat) : (poly cs).coeff n = cs.getD n 0 := by
  induction cs generalizing n with
  | nil => simp
  | cons c cs ih =>
    cases n with
    | zero => simp
    | succ n => simp [ih, Polynomial.coeff_C_succ]

theorem degree_poly_lt (cs : List F) : (poly cs).degree < cs.length := by
  rw [Polynomial.degree_lt_iff_coeff_zero]
  intro n hn
  rw [coeff_poly, List.getD_eq_getElem?_getD, List.getElem?_eq_none hn, Option.getD_none]

/-- The coefficients below a bound on the degree make up the polynomial. -/
theorem poly_map_coeff {p : Polynomial F} {n : Nat} (h : p.degree < n) :
    poly ((List.range n).map p.coeff) = p := by
  ext k
  rw [coeff_poly, List.getD_eq_getElem?_getD, List.getElem?_map]
  rcases Nat.lt_or_ge k n with hk | hk
  · simp [hk]
  · rw [List.getElem?_eq_none (by simpa using hk), Option.map_none, Option.getD_none]
    exact (Polynomial.degree_lt_iff_coeff_zero p n |>.mp h k hk).symm

/-- The value is that of Horner's rule. -/
theorem eval_poly (cs : List F) (x : F) :
    (poly cs).eval x = cs.foldr (fun c acc => acc * x + c) 0 := by
  induction cs with
  | nil => simp
  | cons c cs ih =>
    rw [poly_cons, List.foldr_cons, ← ih]
    simp

theorem eval_eq (p : Array F) (x : F) : Polynomial.eval p x = (poly p.toList).eval x := by
  rw [eval_poly, Polynomial.eval, Array.foldr_toList]

section Base

/-- Coefficients of the base field, seen in an extension. -/
theorem poly_map_ofBase (cs : List Fp) :
    poly (cs.map (ofBase : Fp → F)) = (poly cs).map (baseHom F) := by
  induction cs with
  | nil => simp
  | cons c cs ih => simp [ih]

/-- They give the same values there. -/
theorem eval_poly_map_ofBase (cs : List Fp) (x : Fp) :
    (poly (cs.map (ofBase : Fp → F))).eval (ofBase x) = ofBase ((poly cs).eval x) := by
  rw [poly_map_ofBase, ← baseHom_apply, Polynomial.eval_map_apply, baseHom_apply]

theorem degree_poly_map_ofBase (cs : List Fp) :
    (poly (cs.map (ofBase : Fp → F))).degree = (poly cs).degree := by
  rw [poly_map_ofBase]
  exact Polynomial.degree_map_eq_of_injective ofBase_injective _

end Base

theorem eval_poly_eq_sum (cs : List F) (x : F) :
    (poly cs).eval x = ∑ j ∈ Finset.range cs.length, cs.getD j 0 * x ^ j := by
  induction cs with
  | nil => simp
  | cons c cs ih =>
    rw [poly_cons, List.length_cons, Finset.sum_range_succ']
    simp [ih, Finset.sum_mul, pow_succ, mul_assoc]

theorem poly_append_zeros (cs : List F) (n : Nat) :
    poly (cs ++ List.replicate n 0) = poly cs := by
  ext k
  rw [coeff_poly, coeff_poly]
  simp only [List.getD_eq_getElem?_getD, List.getElem?_append, List.getElem?_replicate]
  split
  · rfl
  · rw [List.getElem?_eq_none (by omega)]
    split <;> rfl

/-- As many coefficients are told by the polynomial. -/
theorem eq_of_poly_eq {p q : Array F} (hsize : p.size = q.size)
    (h : poly p.toList = poly q.toList) : p = q := by
  refine Array.toList_inj.mp (List.ext_getElem hsize fun i hi hi' => ?_)
  have hcoeff := congrArg (fun r => r.coeff i) h
  simp only [coeff_poly] at hcoeff
  rwa [List.getD_eq_getElem _ _ hi, List.getD_eq_getElem _ _ hi'] at hcoeff

theorem poly_replicate_zero (n : Nat) : poly (List.replicate n (0 : F)) = 0 :=
  poly_append_zeros [] n

/-- Coefficients added one by one. -/
theorem poly_zipWith_add {cs ds : List F} (hlen : cs.length = ds.length) :
    poly (List.zipWith (· + ·) cs ds) = poly cs + poly ds := by
  induction cs generalizing ds with
  | nil =>
    rw [List.length_nil] at hlen
    rw [List.eq_nil_of_length_eq_zero hlen.symm]
    simp
  | cons c cs ih =>
    cases ds with
    | nil => simp at hlen
    | cons d ds =>
      rw [List.zipWith_cons_cons, poly_cons, poly_cons, poly_cons, ih (by simpa using hlen),
        Polynomial.C_add]
      ring

theorem poly_map_mul (k : F) (cs : List F) :
    poly (cs.map (k * ·)) = Polynomial.C k * poly cs := by
  induction cs with
  | nil => simp
  | cons c cs ih =>
    rw [List.map_cons, poly_cons, poly_cons, ih, Polynomial.C_mul]
    ring

/-- Scaling the coefficients by powers scales the argument. -/
theorem eval_poly_scaled (cs : List F) (x y : F) :
    (poly (List.zipWith (· * ·) (powers y cs.length) cs)).eval x = (poly cs).eval (y * x) := by
  have scaled (acc : F) (cs : List F) :
      (poly (List.zipWith (· * ·) (powersFrom acc y cs.length) cs)).eval x =
        acc * (poly cs).eval (y * x) := by
    induction cs generalizing acc with
    | nil => simp
    | cons c cs ih =>
      rw [List.length_cons, powersFrom, List.zipWith_cons_cons, eval_poly, List.foldr_cons,
        ← eval_poly, ih, eval_poly (c :: cs), List.foldr_cons, ← eval_poly]
      ring
  rw [powers, scaled, one_mul]

section Trim

omit [LawfulExtension F] in
theorem toList_trim (p : Array F) :
    (Polynomial.trim p).toList = (p.toList.reverse.dropWhile (· = 0)).reverse := by
  obtain ⟨cs⟩ := p
  rw [Polynomial.trim, List.popWhile_toArray]

omit [LawfulExtension F] in
/-- Only zeros are dropped. -/
theorem exists_trim_append (p : Array F) :
    ∃ n, p.toList = (Polynomial.trim p).toList ++ List.replicate n 0 := by
  refine ⟨(p.toList.reverse.takeWhile (· = 0)).length, ?_⟩
  have hzeros : p.toList.reverse.takeWhile (· = 0) =
      List.replicate (p.toList.reverse.takeWhile (· = 0)).length 0 :=
    List.eq_replicate_of_mem fun c hc => by simpa using List.mem_takeWhile_imp hc
  have hsplit := congrArg List.reverse
    (List.takeWhile_append_dropWhile (p := (· = 0)) (l := p.toList.reverse))
  rw [List.reverse_append, List.reverse_reverse, ← toList_trim, hzeros, List.reverse_replicate]
    at hsplit
  exact hsplit.symm

theorem poly_trim (p : Array F) : poly (Polynomial.trim p).toList = poly p.toList := by
  obtain ⟨n, hn⟩ := exists_trim_append p
  rw [hn, poly_append_zeros]

/-- What is left has as many coefficients as its degree says. -/
theorem size_trim_le_iff {p : Array F} {n : Nat} :
    (Polynomial.trim p).size ≤ n ↔ (poly p.toList).degree < n := by
  constructor
  · intro h
    rw [← poly_trim]
    exact (degree_poly_lt _).trans_le (by exact_mod_cast h)
  · intro h
    by_contra hlt
    have hlength := congrArg List.length (toList_trim p)
    rw [Array.length_toList, List.length_reverse] at hlength
    -- The coefficient on top is the one that the trimming stopped at.
    cases hcs : p.toList.reverse.dropWhile (· = 0) with
    | nil =>
      rw [hcs, List.length_nil] at hlength
      omega
    | cons a rest =>
      have hne : a ≠ 0 := by
        have := List.head_dropWhile_not (fun c : F => decide (c = 0)) (by rw [hcs]; simp)
        simpa [hcs] using this
      rw [hcs, List.length_cons] at hlength
      have hcoeff := (Polynomial.degree_lt_iff_coeff_zero _ _).mp h rest.length (by omega)
      rw [← poly_trim, coeff_poly, toList_trim, hcs] at hcoeff
      exact hne (by simpa using hcoeff)

theorem trim_eq_of_poly_eq {p q : Array F} (h : poly p.toList = poly q.toList) :
    Polynomial.trim p = Polynomial.trim q := by
  refine eq_of_poly_eq (le_antisymm ?_ ?_) (by rw [poly_trim, poly_trim, h])
  · rw [size_trim_le_iff, h]
    exact size_trim_le_iff.mp le_rfl
  · rw [size_trim_le_iff, ← h]
    exact size_trim_le_iff.mp le_rfl

/-- The degree is below a bound exactly when that of the polynomial is. -/
theorem degree_lt_iff {p : Array F} {n : Nat} :
    Polynomial.degree p < n ↔ (poly p.toList).degree < n := by
  rw [← size_trim_le_iff, Polynomial.degree]
  omega

end Trim

section Division

/-- Synthetic division gives the remainder and the quotient. -/
theorem divide_eq (cs : List F) (z : F) :
    (Polynomial.divide cs z).1 = (poly cs).eval z ∧
      (Polynomial.divide cs z).2.length = cs.length ∧
      poly cs = (Polynomial.X - Polynomial.C z) * poly (Polynomial.divide cs z).2 +
        Polynomial.C ((poly cs).eval z) := by
  induction cs with
  | nil => simp [Polynomial.divide]
  | cons c cs ih =>
    obtain ⟨hremainder, hlength, hquotient⟩ := ih
    have hstep : Polynomial.divide (c :: cs) z =
        ((Polynomial.divide cs z).1 * z + c,
          (Polynomial.divide cs z).1 :: (Polynomial.divide cs z).2) := rfl
    have heval : (poly (c :: cs)).eval z = (poly cs).eval z * z + c := by
      rw [eval_poly, List.foldr_cons, ← eval_poly]
    rw [hstep, heval, hremainder]
    refine ⟨rfl, by simp [hlength], ?_⟩
    rw [poly_cons, poly_cons]
    generalize (poly cs).eval z = value at hquotient
    rw [hquotient, Polynomial.C_add, Polynomial.C_mul]
    ring

theorem length_quotient (cs : List F) (z : F) : (Polynomial.quotient cs z).length = cs.length :=
  (divide_eq cs z).2.1

/-- The quotient times the linear factor is the polynomial less its value at the root. -/
theorem mul_poly_quotient (cs : List F) (z : F) :
    (Polynomial.X - Polynomial.C z) * poly (Polynomial.quotient cs z) =
      poly cs - Polynomial.C ((poly cs).eval z) := by
  rw [eq_sub_iff_add_eq]
  exact (divide_eq cs z).2.2.symm

/-- Division is additive. -/
theorem poly_quotient_zipWith_add {cs ds : List F} (h : cs.length = ds.length) (z : F) :
    poly (Polynomial.quotient (List.zipWith (· + ·) cs ds) z) =
      poly (Polynomial.quotient cs z) + poly (Polynomial.quotient ds z) := by
  apply mul_left_cancel₀ (Polynomial.X_sub_C_ne_zero z)
  rw [mul_add, mul_poly_quotient, mul_poly_quotient, mul_poly_quotient, poly_zipWith_add h,
    Polynomial.eval_add, Polynomial.C_add]
  ring

/-- A multiple of the quotient is added to the target. -/
theorem exists_divideOutInto {target source : Array F} (h : target.size = source.size) (z c : F) :
    ∃ sum : Array F, Polynomial.divideOutInto target source z c = .ok sum ∧
      sum.size = target.size ∧ poly sum.toList =
        poly target.toList + Polynomial.C c * poly (Polynomial.quotient source.toList z) := by
  have hlen : target.toList.length = (Polynomial.quotient source.toList z).length := by
    rw [length_quotient]
    exact h
  have hmap : List.zipWith (fun t q => t + q * c) target.toList
      (Polynomial.quotient source.toList z) = List.zipWith (· + ·) target.toList
        ((Polynomial.quotient source.toList z).map (c * ·)) := by
    rw [List.zipWith_map_right]
    simp only [mul_comm]
  refine ⟨_, if_pos h, ?_, ?_⟩
  · rw [List.size_toArray, List.length_zipWith, ← hlen, min_self, Array.length_toList]
  · rw [hmap, poly_zipWith_add (by rw [List.length_map, hlen]), poly_map_mul]

end Division

end TapeStark
