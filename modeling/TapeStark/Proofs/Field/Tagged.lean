import Mathlib
import TapeStark.Field.Tagged
import TapeStark.Proofs.Basic
import TapeStark.Proofs.Polynomial

/-!
Values of two kinds as one field. A value stands for the element of the extension that it is lifted
to: equality across kinds is equality of these elements, and every operation is that of the extension
on them. So the laws of the extension hold up to equality across kinds, and it does not matter whether
values are promoted before an operation or behind it. That every value but zero has an inverse rests
on the modulus `x^3 - x - 1`, which has no factor over the base field.
-/

namespace TapeStark

open ExtensionField

/-- The laws of a commutative ring, up to an equivalence that the operations respect. -/
structure RingUpTo {α : Type} [Add α] [Sub α] [Mul α] [Neg α] (r : α → α → Prop)
    (zero one : α) : Prop where
  equivalence : Equivalence r
  add_congr {a a' b b' : α} (ha : r a a') (hb : r b b') : r (a + b) (a' + b')
  sub_congr {a a' b b' : α} (ha : r a a') (hb : r b b') : r (a - b) (a' - b')
  mul_congr {a a' b b' : α} (ha : r a a') (hb : r b b') : r (a * b) (a' * b')
  neg_congr {a a' : α} (ha : r a a') : r (-a) (-a')
  add_assoc (a b c : α) : r (a + b + c) (a + (b + c))
  add_comm (a b : α) : r (a + b) (b + a)
  zero_add (a : α) : r (zero + a) a
  add_neg_cancel (a : α) : r (a + -a) zero
  sub_eq_add_neg (a b : α) : r (a - b) (a + -b)
  mul_assoc (a b c : α) : r (a * b * c) (a * (b * c))
  mul_comm (a b : α) : r (a * b) (b * a)
  one_mul (a : α) : r (one * a) a
  mul_add (a b c : α) : r (a * (b + c)) (a * b + a * c)

/-- The laws are carried back along a map that respects the operations, where values are related
if they have one image. -/
theorem ringUpTo_of_map {α R : Type} [Add α] [Sub α] [Mul α] [Neg α] [CommRing R] (f : α → R)
    {r : α → α → Prop} {zero one : α} (hr : ∀ a b, r a b ↔ f a = f b)
    (hadd : ∀ a b, f (a + b) = f a + f b) (hsub : ∀ a b, f (a - b) = f a - f b)
    (hmul : ∀ a b, f (a * b) = f a * f b) (hneg : ∀ a, f (-a) = -f a)
    (hzero : f zero = 0) (hone : f one = 1) : RingUpTo r zero one where
  equivalence := by
    constructor
    case refl => exact fun a => (hr a a).mpr rfl
    case symm => exact fun h => (hr _ _).mpr ((hr _ _).mp h).symm
    case trans => exact fun h h' => (hr _ _).mpr (((hr _ _).mp h).trans ((hr _ _).mp h'))
  add_congr ha hb := by
    rw [hr] at ha hb ⊢
    rw [hadd, hadd, ha, hb]
  sub_congr ha hb := by
    rw [hr] at ha hb ⊢
    rw [hsub, hsub, ha, hb]
  mul_congr ha hb := by
    rw [hr] at ha hb ⊢
    rw [hmul, hmul, ha, hb]
  neg_congr ha := by
    rw [hr] at ha ⊢
    rw [hneg, hneg, ha]
  add_assoc a b c := by
    rw [hr, hadd, hadd, hadd, hadd, add_assoc]
  add_comm a b := by
    rw [hr, hadd, hadd, add_comm]
  zero_add a := by
    rw [hr, hadd, hzero, zero_add]
  add_neg_cancel a := by
    rw [hr, hadd, hneg, hzero, add_neg_cancel]
  sub_eq_add_neg a b := by
    rw [hr, hsub, hadd, hneg, sub_eq_add_neg]
  mul_assoc a b c := by
    rw [hr, hmul, hmul, hmul, hmul, mul_assoc]
  mul_comm a b := by
    rw [hr, hmul, hmul, mul_comm]
  one_mul a := by
    rw [hr, hmul, hone, one_mul]
  mul_add a b c := by
    rw [hr, hmul, hadd, hadd, hmul, hmul, mul_add]

namespace Fp3

/-- The polynomial whose root generates the extension. -/
noncomputable def modulus : Polynomial Fp := Polynomial.X ^ 3 - Polynomial.X - 1

theorem irreducible_modulus : Irreducible modulus := by
  have hdegree : modulus.natDegree = 3 := by
    unfold modulus
    compute_degree!
  refine Polynomial.irreducible_of_degree_le_three_of_not_isRoot ?_ fun r hr => ?_
  · rw [hdegree]
    decide
  · have hroot : r ^ 3 - r - 1 = 0 := by simpa [modulus, Polynomial.IsRoot] using hr
    exact no_root r (by linear_combination hroot)

/-- The coordinates of a product are those of the product of polynomials modulo `x^3 - x - 1`. -/
theorem modulus_dvd (a b : Fp3) : modulus ∣
    poly (limbs a).toList * poly (limbs b).toList - poly (limbs (a * b)).toList := by
  -- What is over is `x^3` and `x^4` less what they are replaced by.
  refine ⟨Polynomial.C (a.c1 * b.c2 + a.c2 * b.c1) + Polynomial.C (a.c2 * b.c2) * Polynomial.X, ?_⟩
  change poly [a.c0, a.c1, a.c2] * poly [b.c0, b.c1, b.c2] -
    poly [(a * b).c0, (a * b).c1, (a * b).c2] = _
  simp only [modulus, poly_cons, poly_nil, mul_c0, mul_c1, mul_c2, Polynomial.C_add,
    Polynomial.C_mul]
  ring

end Fp3

namespace Tagged

open TaggedValue

variable {F : Type} [ExtensionField F]

def promoted (v : Tagged F) : Tagged F := fx v.lift

@[simp] theorem lift_fp (a : Fp) : (fp a : Tagged F).lift = ofBase a := rfl

@[simp] theorem lift_fx (x : F) : (fx x).lift = x := rfl

/-- A result belongs to the extension if an operand does. -/
theorem kind_combine (f : Fp → Fp → Fp) (g : F → F → F) (v w : Tagged F) :
    kind (combine f g v w) = .fx ↔ kind v = .fx ∨ kind w = .fx := by
  cases v <;> cases w <;> simp [combine, kind]

theorem inverse_fp (a : Fp) : (fp a : Tagged F).inverse =
    if a = 0 then .error .zeroInverse else .ok (fp a⁻¹) :=
  if_congr decide_eq_true_iff rfl rfl

theorem inverse_fx (x : F) : (fx x).inverse =
    if x = 0 then .error .zeroInverse else .ok (fx x⁻¹) :=
  if_congr decide_eq_true_iff rfl rfl

theorem kind_neg (v : Tagged F) : kind (-v) = kind v := by
  cases v <;> rfl

variable [LawfulExtension F]

omit [LawfulExtension F] in
/-- An operation is the one of the extension, if it is that on base-field operands. -/
theorem lift_combine {f : Fp → Fp → Fp} {g : F → F → F}
    (hbase : ∀ a b, ofBase (f a b) = g (ofBase a) (ofBase b)) (v w : Tagged F) :
    (combine f g v w).lift = g v.lift w.lift := by
  cases v with
  | fp a =>
    cases w with
    | fp b => exact hbase a b
    | fx y => rfl
  | fx x => rfl

theorem lift_add (v w : Tagged F) : (v + w).lift = v.lift + w.lift := lift_combine ofBase_add v w

theorem lift_sub (v w : Tagged F) : (v - w).lift = v.lift - w.lift := lift_combine ofBase_sub v w

theorem lift_mul (v w : Tagged F) : (v * w).lift = v.lift * w.lift := lift_combine ofBase_mul v w

theorem lift_neg (v : Tagged F) : (-v).lift = -v.lift := by
  cases v with
  | fp a => exact ofBase_neg a
  | fx x => rfl

theorem same_iff (v w : Tagged F) : v.same w ↔ v.lift = w.lift := by
  cases v with
  | fp a =>
    cases w with
    | fp b => exact decide_eq_true_iff.trans ofBase_injective.eq_iff.symm
    | fx y => exact decide_eq_true_iff
  | fx x => exact decide_eq_true_iff

theorem isZero_iff (v : Tagged F) : v.isZero ↔ v.lift = 0 := by
  cases v with
  | fp a =>
    rw [lift_fp, ← ofBase_zero, ofBase_injective.eq_iff]
    exact decide_eq_true_iff
  | fx x => exact decide_eq_true_iff

theorem ringUpTo_same : RingUpTo (fun v w : Tagged F => v.same w) (fp 0) (fp 1) :=
  ringUpTo_of_map lift same_iff lift_add lift_sub lift_mul lift_neg ofBase_zero ofBase_one

omit [LawfulExtension F] in
theorem inverse_of_isZero {v : Tagged F} (h : v.isZero) : v.inverse = .error .zeroInverse := if_pos h

omit [LawfulExtension F] in
theorem divide_of_isZero (v : Tagged F) {w : Tagged F} (h : w.isZero) :
    v.divide w = .error .zeroInverse := by
  rw [divide, inverse_of_isZero h, error_bind]

/-- A value that is not zero has an inverse of its own kind. -/
theorem exists_inverse {v : Tagged F} (h : ¬ v.isZero) :
    ∃ u, v.inverse = .ok u ∧ kind u = kind v ∧ u.lift = v.lift⁻¹ := by
  cases v with
  | fp a => exact ⟨fp a⁻¹, if_neg h, rfl, ofBase_inv a⟩
  | fx x => exact ⟨fx x⁻¹, if_neg h, rfl, rfl⟩

theorem exists_divide (v : Tagged F) {w : Tagged F} (h : ¬ w.isZero) :
    ∃ q, v.divide w = .ok q ∧ (kind q = .fx ↔ kind v = .fx ∨ kind w = .fx) ∧
      q.lift = v.lift / w.lift := by
  obtain ⟨u, hinverse, hkind, hlift⟩ := exists_inverse h
  refine ⟨v * u, ?_, ?_, ?_⟩
  · rw [divide, hinverse, ok_bind, pure_eq_ok]
  · rw [← hkind]
    exact kind_combine _ _ v u
  · rw [lift_mul, hlift, div_eq_mul_inv]

/-- The power is of the kind of its base. -/
theorem exists_pow (v : Tagged F) (n : Nat) :
    ∃ u, v.pow n = .ok u ∧ kind u = kind v ∧ u.lift = v.lift ^ n := by
  have hn : ¬ (n : Int) < 0 := Int.not_lt.mpr (Int.natCast_nonneg n)
  cases v with
  | fp a =>
    refine ⟨fp (power a n), if_neg hn, rfl, ?_⟩
    rw [lift_fp, power_eq_pow, ofBase_pow, lift_fp]
  | fx x =>
    refine ⟨fx (power x n), if_neg hn, rfl, ?_⟩
    rw [lift_fx, power_eq_pow, lift_fx]

omit [LawfulExtension F] in
theorem pow_eq_error_iff (v : Tagged F) (n : Int) : v.pow n = .error .negativeExponent ↔ n < 0 := by
  constructor
  · intro h
    by_contra hn
    rw [pow.eq_def, if_neg hn] at h
    cases v <;> cases h
  · exact fun hn => if_pos hn

/-- `n` factors, multiplied one after the other. -/
theorem lift_foldl_mul (v acc : Tagged F) (n : Nat) :
    ((List.replicate n v).foldl (· * ·) acc).lift = acc.lift * v.lift ^ n := by
  induction n generalizing acc with
  | zero => simp
  | succ n ih => rw [List.replicate_succ, List.foldl_cons, ih, lift_mul, pow_succ', mul_assoc]

end Tagged

namespace Variant

open Tagged

variable {d : Degree}

/-- Values of one pair of fields come together as they are, unless both are of the base field. -/
theorem together_ofTagged (v w : Tagged d.Carrier) : together (ofTagged v) (ofTagged w) =
    match v, w with
    | .fp a, .fp b => .ok ⟨.one, .fp a, .fp b⟩
    | v, w => .ok ⟨d, v, w⟩ := by
  cases v <;> cases w <;> cases d <;> rfl

theorem add_ofTagged (v w : Tagged d.Carrier) :
    (ofTagged v).add (ofTagged w) = .ok (ofTagged (v + w)) := by
  rw [add, together_ofTagged]
  cases v <;> cases w <;> rfl

/-- The divisor is inverted in its own field, which is the one of its kind. -/
theorem divide_ofTagged (v w : Tagged d.Carrier) :
    (ofTagged v).divide (ofTagged w) = (v.divide w).map ofTagged := by
  have hdivide (inverse : Tagged d.Carrier) :
      (together (ofTagged v) (ofTagged inverse) >>= fun both =>
        return ofTagged (both.2.1 * both.2.2) : Except Error Variant) =
      .ok (ofTagged (v * inverse)) := by
    rw [together_ofTagged]
    cases v <;> cases inverse <;> rfl
  cases w with
  | fp b =>
    rw [divide, together_ofTagged, Tagged.divide]
    simp only [ok_bind]
    rw [inverse_fp, inverse_fp]
    split
    · rfl
    · exact hdivide (fp b⁻¹)
  | fx y =>
    rw [divide, together_ofTagged, Tagged.divide]
    simp only [ok_bind]
    rw [inverse_fx]
    split
    · rfl
    · exact hdivide (fx y⁻¹)

end Variant

namespace Tagged

open TaggedValue

/-- Tagged values of either pair of fields are a field, up to equality across kinds. Promotion is a
homomorphism, a result belongs to the extension exactly if an operand does, and only negative
exponents and divisors that are zero are refused. -/
theorem field_up_to_same (d : Degree) :
    RingUpTo (fun v w : Tagged d.Carrier => v.same w) (fp 0) (fp 1) ∧
    ¬ (fp 0 : Tagged d.Carrier).same (fp 1) ∧
    (∃ φ : Fp →+* d.Carrier, ∀ a, (Element.ofBase a).promote d = .ok (φ a) ∧
      (fp a : Tagged d.Carrier).promoted = fx (φ a)) ∧
    (∀ v w : Tagged d.Carrier, v.same v.promoted ∧ (-v).promoted = -v.promoted ∧
      (v + w).promoted = v.promoted + w.promoted ∧ (v - w).promoted = v.promoted - w.promoted ∧
      (v * w).promoted = v.promoted * w.promoted) ∧
    (∀ v w : Tagged d.Carrier, kind (-v) = kind v ∧
      (kind (v + w) = .fx ↔ kind v = .fx ∨ kind w = .fx) ∧
      (kind (v - w) = .fx ↔ kind v = .fx ∨ kind w = .fx) ∧
      (kind (v * w) = .fx ↔ kind v = .fx ∨ kind w = .fx)) ∧
    (∀ v : Tagged d.Carrier, (∀ n : Int, v.pow n = .error .negativeExponent ↔ n < 0) ∧
      ∀ n : Nat, ∃ u, v.pow n = .ok u ∧ kind u = kind v ∧
        u.same ((List.replicate n v).foldl (· * ·) (fp 1))) ∧
    (∀ v w : Tagged d.Carrier, (w.isZero ↔ w.same (fp 0)) ∧
      if w.isZero then w.inverse = .error .zeroInverse ∧ v.divide w = .error .zeroInverse
      else ∃ u q, w.inverse = .ok u ∧ kind u = kind w ∧ (w * u).same (fp 1) ∧
        v.divide w = .ok q ∧ (kind q = .fx ↔ kind v = .fx ∨ kind w = .fx) ∧ (q * w).same v) ∧
    (∀ v w : Tagged d.Carrier,
      (Variant.ofTagged v).add (Variant.ofTagged w) = .ok (Variant.ofTagged (v + w)) ∧
      (Variant.ofTagged v).divide (Variant.ofTagged w) = (v.divide w).map Variant.ofTagged) ∧
    Irreducible Fp3.modulus ∧ ∀ a b : Fp3, Fp3.modulus ∣
      poly (limbs a).toList * poly (limbs b).toList - poly (limbs (a * b)).toList := by
  refine ⟨ringUpTo_same, ?_, ?_, ?_, ?_, ?_, ?_, ?_, Fp3.irreducible_modulus, Fp3.modulus_dvd⟩
  · rw [same_iff, lift_fp, lift_fp, ofBase_zero, ofBase_one]
    exact zero_ne_one
  · exact ⟨baseHom d.Carrier, fun a => ⟨rfl, rfl⟩⟩
  · intro v w
    refine ⟨(same_iff _ _).mpr rfl, ?_, ?_, ?_, ?_⟩
    · exact congrArg fx (lift_neg v)
    · exact congrArg fx (lift_add v w)
    · exact congrArg fx (lift_sub v w)
    · exact congrArg fx (lift_mul v w)
  · intro v w
    exact ⟨kind_neg v, kind_combine _ _ v w, kind_combine _ _ v w, kind_combine _ _ v w⟩
  · intro v
    refine ⟨pow_eq_error_iff v, fun n => ?_⟩
    obtain ⟨u, hpow, hkind, hlift⟩ := v.exists_pow n
    refine ⟨u, hpow, hkind, ?_⟩
    rw [same_iff, hlift, lift_foldl_mul, lift_fp, ofBase_one, one_mul]
  · intro v w
    constructor
    · rw [isZero_iff, same_iff, lift_fp, ofBase_zero]
    · split
      · rename_i hzero
        exact ⟨inverse_of_isZero hzero, divide_of_isZero v hzero⟩
      · rename_i hzero
        obtain ⟨u, hinverse, hkind, hu⟩ := exists_inverse hzero
        obtain ⟨q, hdivide, hquotient, hq⟩ := exists_divide v hzero
        have hne : w.lift ≠ 0 := fun h => hzero ((isZero_iff w).mpr h)
        refine ⟨u, q, hinverse, hkind, ?_, hdivide, hquotient, ?_⟩
        · rw [same_iff, lift_mul, hu, mul_inv_cancel₀ hne, lift_fp, ofBase_one]
        · rw [same_iff, lift_mul, hq, div_mul_cancel₀ _ hne]
  · intro v w
    exact ⟨Variant.add_ofTagged v w, Variant.divide_ofTagged v w⟩

end Tagged

end TapeStark
