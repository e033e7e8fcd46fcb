import Mathlib
import TapeStark.Field.Base
import TapeStark.Field.Extension

/-!
The two fields are fields: the order of the base field is prime, and the extension's modulus is
irreducible.
-/

namespace TapeStark

/-! The order of the base field is prime, by the certificate that 7 generates the multiplicative
group; and the representatives compute as residue classes do. -/

private theorem prime_sub_one : 18446744069414584321 - 1 =
    2 ^ 32 * (3 * (5 * (17 * (257 * 65537)))) := by norm_num

private theorem dvd_prime_sub_one {q : Nat} (hq : q.Prime) (hd : q ∣ 18446744069414584321 - 1) :
    q = 2 ∨ q = 3 ∨ q = 5 ∨ q = 17 ∨ q = 257 ∨ q = 65537 := by
  have h3 : Nat.Prime 3 := by norm_num
  have h5 : Nat.Prime 5 := by norm_num
  have h17 : Nat.Prime 17 := by norm_num
  have h257 : Nat.Prime 257 := by norm_num
  have h65537 : Nat.Prime 65537 := by norm_num
  rw [prime_sub_one] at hd
  simp only [hq.dvd_mul] at hd
  rcases hd with h | h | h | h | h | h
  · left
    exact (Nat.prime_dvd_prime_iff_eq hq Nat.prime_two).mp (hq.dvd_of_dvd_pow h)
  all_goals simp_all [Nat.prime_dvd_prime_iff_eq]

private theorem seven_pow_ne_one {q : Nat} (hq : q.Prime) (hd : q ∣ 18446744069414584321 - 1) :
    (7 : ZMod 18446744069414584321) ^ ((18446744069414584321 - 1) / q) ≠ 1 := by
  rcases dvd_prime_sub_one hq hd with rfl | rfl | rfl | rfl | rfl | rfl <;>
    norm_num <;> reduce_mod_char <;> decide

private theorem seven_pow : (7 : ZMod 18446744069414584321) ^ (18446744069414584321 - 1) = 1 := by
  norm_num
  reduce_mod_char

theorem prime_prime : prime.Prime :=
  lucas_primality 18446744069414584321 7 seven_pow fun _ hq hd => seven_pow_ne_one hq hd

instance : Fact prime.Prime := ⟨prime_prime⟩

theorem orderOf_seven : orderOf (7 : ZMod prime) = prime - 1 :=
  orderOf_eq_of_pow_and_pow_div_prime (by decide) seven_pow fun _ hq hd => seven_pow_ne_one hq hd

/-- Powers by squaring are powers, also seen through a map that respects products. -/
theorem map_power {α β : Type} [One α] [Mul α] [Monoid β] (f : α → β) (h1 : f 1 = 1)
    (hm : ∀ a b, f (a * b) = f a * f b) (x : α) (n : Nat) : f (power x n) = f x ^ n := by
  induction n using Nat.strong_induction_on generalizing x with
  | _ n ih =>
    rw [power]
    split
    · next h => simp [h, h1]
    · next h =>
      have half := ih (n / 2) (by omega) (x * x)
      have split : n = 2 * (n / 2) + n % 2 := (Nat.div_add_mod n 2).symm
      dsimp only
      split
      · next h0 => rw [half, hm, ← pow_two, ← pow_mul, show 2 * (n / 2) = n by omega]
      · next h1 =>
        rw [hm, half, hm, ← pow_two, ← pow_mul, ← pow_succ', show 2 * (n / 2) + 1 = n by omega]

theorem power_eq_pow {α : Type} [Monoid α] (x : α) (n : Nat) : power x n = x ^ n :=
  map_power id rfl (fun _ _ => rfl) x n

namespace Fp

def residue (a : Fp) : ZMod prime := a.val

theorem residue_injective : Function.Injective residue := by
  intro a b h
  apply Fp.ext
  have h' := (ZMod.natCast_eq_natCast_iff' a.val b.val prime).mp h
  rwa [Nat.mod_eq_of_lt a.isLt, Nat.mod_eq_of_lt b.isLt] at h'

theorem residue_ofNat (n : Nat) : residue (ofNat n) = n := ZMod.natCast_mod n prime

theorem residue_ofInt (n : Int) : residue (ofInt n) = n := by
  have h0 : 0 ≤ n % (prime : Int) := Int.emod_nonneg n (by decide)
  have h : (((n % prime).toNat : Int) : ZMod prime) = n := by
    rw [Int.toNat_of_nonneg h0]
    exact ZMod.intCast_mod n prime
  rw [Int.cast_natCast] at h
  exact h

theorem residue_zero : residue 0 = 0 := (residue_ofNat 0).trans Nat.cast_zero

theorem residue_one : residue 1 = 1 := (residue_ofNat 1).trans Nat.cast_one

theorem residue_add (a b : Fp) : residue (a + b) = residue a + residue b :=
  (residue_ofNat _).trans (Nat.cast_add _ _)

theorem residue_mul (a b : Fp) : residue (a * b) = residue a * residue b :=
  (residue_ofNat _).trans (Nat.cast_mul _ _)

theorem residue_neg (a : Fp) : residue (-a) = -residue a := by
  have h := residue_ofNat (prime - a.val)
  rw [Nat.cast_sub a.isLt.le, CharP.cast_eq_zero (ZMod prime) prime, zero_sub] at h
  exact h

theorem residue_sub (a b : Fp) : residue (a - b) = residue a - residue b := by
  have h := residue_ofNat (a.val + (prime - b.val))
  rw [Nat.cast_add, Nat.cast_sub b.isLt.le, CharP.cast_eq_zero (ZMod prime) prime, zero_sub,
    ← sub_eq_add_neg] at h
  exact h

theorem residue_power (a : Fp) (n : Nat) : residue (power a n) = residue a ^ n :=
  map_power residue residue_one residue_mul a n

theorem residue_inv (a : Fp) : residue a⁻¹ = (residue a)⁻¹ := by
  have h : residue a⁻¹ = residue a ^ (prime - 2) := residue_power a (prime - 2)
  by_cases h0 : residue a = 0
  · rw [h, h0, inv_zero, zero_pow (by decide)]
  · refine h.trans (eq_inv_of_mul_eq_one_left ?_)
    rw [← pow_succ]
    exact ZMod.pow_card_sub_one_eq_one h0

end Fp

/-! What makes the operations of an extension those of a field that contains the base field, and the
base field itself as an instance. -/

/-- The operations are those of a field, in which the base field sits as a subfield and in which
the coordinates determine an element. -/
class LawfulExtension (F : Type) [ExtensionField F] : Prop where
  add_assoc (a b c : F) : a + b + c = a + (b + c)
  add_comm (a b : F) : a + b = b + a
  zero_add (a : F) : 0 + a = a
  neg_add_cancel (a : F) : -a + a = 0
  sub_eq (a b : F) : a - b = a + -b
  mul_assoc (a b c : F) : a * b * c = a * (b * c)
  mul_comm (a b : F) : a * b = b * a
  one_mul (a : F) : 1 * a = a
  add_mul (a b c : F) : (a + b) * c = a * c + b * c
  zero_ne_one : (0 : F) ≠ 1
  mul_inv_cancel (a : F) : a ≠ 0 → a * a⁻¹ = 1
  inv_zero : (0 : F)⁻¹ = 0
  ofBase_one : (ExtensionField.ofBase 1 : F) = 1
  ofBase_add (a b : Fp) :
    (ExtensionField.ofBase (a + b) : F) = ExtensionField.ofBase a + ExtensionField.ofBase b
  ofBase_mul (a b : Fp) :
    (ExtensionField.ofBase (a * b) : F) = ExtensionField.ofBase a * ExtensionField.ofBase b
  scale_eq (a : Fp) (x : F) : ExtensionField.scale a x = ExtensionField.ofBase a * x
  ofLimbs_limbs (x : F) : ExtensionField.ofLimbs (ExtensionField.limbs x) = x
  limbs_ofLimbs (v : Vector Fp (ExtensionField.degree F)) :
    ExtensionField.limbs (ExtensionField.ofLimbs v : F) = v
  limbs_ofBase (a : Fp) : (ExtensionField.limbs (ExtensionField.ofBase a : F)).toList =
    a :: List.replicate (ExtensionField.degree F - 1) 0

namespace LawfulExtension

variable {F : Type} [ExtensionField F] [LawfulExtension F]

private theorem mul_add (a b c : F) : a * (b + c) = a * b + a * c := by
  rw [LawfulExtension.mul_comm, LawfulExtension.add_mul, LawfulExtension.mul_comm b,
    LawfulExtension.mul_comm c]

private theorem zero_mul (a : F) : 0 * a = 0 := by
  have h : 0 * a + 0 * a = 0 * a := by
    rw [← LawfulExtension.add_mul, LawfulExtension.zero_add]
  have h' := congrArg (-(0 * a) + ·) h
  simpa only [← LawfulExtension.add_assoc, LawfulExtension.neg_add_cancel,
    LawfulExtension.zero_add] using h'

instance : Field F where
  add_assoc := LawfulExtension.add_assoc
  add_comm := LawfulExtension.add_comm
  zero_add := LawfulExtension.zero_add
  add_zero a := by rw [LawfulExtension.add_comm, LawfulExtension.zero_add]
  neg_add_cancel := LawfulExtension.neg_add_cancel
  sub_eq_add_neg := LawfulExtension.sub_eq
  mul_assoc := LawfulExtension.mul_assoc
  mul_comm := LawfulExtension.mul_comm
  one_mul := LawfulExtension.one_mul
  mul_one a := by rw [LawfulExtension.mul_comm, LawfulExtension.one_mul]
  right_distrib := LawfulExtension.add_mul
  left_distrib := mul_add
  zero_mul := zero_mul
  mul_zero a := by rw [LawfulExtension.mul_comm, zero_mul]
  exists_pair_ne := ⟨0, 1, LawfulExtension.zero_ne_one⟩
  mul_inv_cancel := LawfulExtension.mul_inv_cancel
  inv_zero := LawfulExtension.inv_zero
  nsmul := nsmulRec
  zsmul := zsmulRec
  nnqsmul := _
  qsmul := _

end LawfulExtension

instance : LawfulExtension Fp where
  add_assoc a b c := Fp.residue_injective (by simp only [Fp.residue_add]; ring)
  add_comm a b := Fp.residue_injective (by simp only [Fp.residue_add]; ring)
  zero_add a := Fp.residue_injective (by simp only [Fp.residue_add, Fp.residue_zero]; ring)
  neg_add_cancel a := Fp.residue_injective (by
    simp only [Fp.residue_add, Fp.residue_neg, Fp.residue_zero]; ring)
  sub_eq a b := Fp.residue_injective (by
    simp only [Fp.residue_add, Fp.residue_neg, Fp.residue_sub]; ring)
  mul_assoc a b c := Fp.residue_injective (by simp only [Fp.residue_mul]; ring)
  mul_comm a b := Fp.residue_injective (by simp only [Fp.residue_mul]; ring)
  one_mul a := Fp.residue_injective (by simp only [Fp.residue_mul, Fp.residue_one]; ring)
  add_mul a b c := Fp.residue_injective (by simp only [Fp.residue_mul, Fp.residue_add]; ring)
  zero_ne_one := by decide
  mul_inv_cancel a h := Fp.residue_injective (by
    have h0 : Fp.residue a ≠ 0 := fun e => h (Fp.residue_injective (e.trans Fp.residue_zero.symm))
    rw [Fp.residue_mul, Fp.residue_inv, Fp.residue_one, mul_inv_cancel₀ h0])
  inv_zero := Fp.residue_injective (by rw [Fp.residue_inv, Fp.residue_zero, inv_zero])
  ofBase_one := rfl
  ofBase_add _ _ := rfl
  ofBase_mul _ _ := rfl
  scale_eq _ _ := rfl
  ofLimbs_limbs _ := rfl
  limbs_ofLimbs v := by
    apply Vector.ext
    intro i hi
    obtain rfl : i = 0 := by change i < 1 at hi; omega
    rfl
  limbs_ofBase _ := rfl

namespace Fp

def residueHom : Fp →+* ZMod prime where
  toFun := residue
  map_zero' := residue_zero
  map_one' := residue_one
  map_add' := residue_add
  map_mul' := residue_mul

theorem natCast_eq_ofNat (n : Nat) : (n : Fp) = ofNat n :=
  residue_injective ((map_natCast residueHom n).trans (residue_ofNat n).symm)

theorem intCast_eq_ofInt (n : Int) : (n : Fp) = ofInt n :=
  residue_injective ((map_intCast residueHom n).trans (residue_ofInt n).symm)

theorem val_natCast {n : Nat} (h : n < prime) : (n : Fp).val = n := by
  rw [natCast_eq_ofNat, val_ofNat, Nat.mod_eq_of_lt h]

/-- The Frobenius map fixes the base field. -/
theorem pow_prime (a : Fp) : a ^ prime = a := by
  apply residue_injective
  have h : residue (a ^ prime) = residue a ^ prime := map_pow residueHom a prime
  rw [h, ZMod.pow_card]

theorem orderOf_generator : orderOf generator = prime - 1 := by
  have h : residueHom generator = 7 := (residue_ofNat 7).trans (by norm_num)
  rw [← orderOf_seven, ← h]
  exact (orderOf_injective residueHom.toMonoidHom residue_injective generator).symm

end Fp

namespace ExtensionField

variable {F : Type} [ExtensionField F] [LawfulExtension F]

variable (F) in
def baseHom : Fp →+* F where
  toFun := ofBase
  map_one' := LawfulExtension.ofBase_one
  map_mul' := LawfulExtension.ofBase_mul
  map_add' := LawfulExtension.ofBase_add
  map_zero' := by
    have h : (ofBase 0 : F) + ofBase 0 = ofBase 0 :=
      (LawfulExtension.ofBase_add 0 0).symm.trans (congrArg ofBase (zero_add (0 : Fp)))
    exact left_eq_add.mp h.symm

@[simp] theorem baseHom_apply (a : Fp) : baseHom F a = ofBase a := rfl

theorem ofBase_injective : Function.Injective (ofBase : Fp → F) := (baseHom F).injective

theorem ofBase_zero : (ofBase 0 : F) = 0 := map_zero (baseHom F)

theorem ofBase_ne_zero {a : Fp} (h : a ≠ 0) : (ofBase a : F) ≠ 0 :=
  (map_ne_zero (baseHom F)).mpr h

theorem ofBase_one : (ofBase 1 : F) = 1 := map_one (baseHom F)

theorem ofBase_add (a b : Fp) : (ofBase (a + b) : F) = ofBase a + ofBase b :=
  map_add (baseHom F) a b

theorem ofBase_sub (a b : Fp) : (ofBase (a - b) : F) = ofBase a - ofBase b :=
  map_sub (baseHom F) a b

theorem ofBase_neg (a : Fp) : (ofBase (-a) : F) = -ofBase a := map_neg (baseHom F) a

theorem ofBase_mul (a b : Fp) : (ofBase (a * b) : F) = ofBase a * ofBase b :=
  map_mul (baseHom F) a b

theorem ofBase_pow (a : Fp) (n : Nat) : (ofBase (a ^ n) : F) = ofBase a ^ n :=
  map_pow (baseHom F) a n

theorem ofBase_inv (a : Fp) : (ofBase a⁻¹ : F) = (ofBase a)⁻¹ := map_inv₀ (baseHom F) a

theorem ofBase_natCast (n : Nat) : (ofBase (n : Fp) : F) = n := map_natCast (baseHom F) n

/-- Numbers below the prime are different elements. -/
theorem natCast_inj {m n : Nat} (hm : m < prime) (hn : n < prime) : (m : F) = n ↔ m = n := by
  constructor
  · intro h
    rw [← ofBase_natCast m, ← ofBase_natCast n] at h
    rw [← Fp.val_natCast hm, ← Fp.val_natCast hn, ofBase_injective h]
  · rintro rfl
    rfl

theorem ofBase_intCast (n : Int) : (ofBase (n : Fp) : F) = n := map_intCast (baseHom F) n

theorem natCast_eq (n : Nat) : (natCast n : F) = n := by
  rw [natCast, ← Fp.natCast_eq_ofNat, ofBase_natCast]

theorem degree_pos : 0 < degree F := by
  have := congrArg List.length (LawfulExtension.limbs_ofBase (F := F) 0)
  rw [Vector.length_toList, List.length_cons] at this
  omega

/-- An integer below the prime stands for an element of the base field. -/
theorem ofInt?_natCast {n : Nat} (h : n < prime) :
    (ofInt? (n : Int) : Option F) = some (ofBase (Fp.ofNat n)) := by
  have hle : prime ≤ Nat.pow prime (degree F) := Nat.le_self_pow degree_pos.ne' prime
  rw [ofInt?, if_pos ⟨Int.natCast_nonneg n, by exact_mod_cast h.trans_le hle⟩,
    ← LawfulExtension.ofLimbs_limbs (ofBase (Fp.ofNat n) : F)]
  congr 2
  apply Vector.toList_inj.mp
  rw [LawfulExtension.limbs_ofBase]
  apply List.ext_getElem
  · have := degree_pos (F := F)
    simp
    omega
  · intro k _ _
    cases k with
    | zero => simp
    | succ k =>
      have hzero : n / Nat.pow prime (k + 1) = 0 :=
        Nat.div_eq_of_lt (h.trans_le (Nat.le_self_pow (Nat.succ_ne_zero k) prime))
      simp only [Vector.getElem_toList, Vector.getElem_ofFn, Int.toNat_natCast, hzero]
      simp
      rfl

theorem scale_eq (a : Fp) (x : F) : scale a x = ofBase a * x := LawfulExtension.scale_eq a x

omit [LawfulExtension F] in
theorem inverse?_eq {x : F} (h : x ≠ 0) : inverse? x = .ok x⁻¹ := if_neg h

end ExtensionField

/-! The cubic extension is a field: `x^3 - x - 1` has no root in the base field, so the norm of an
element vanishes only at zero. -/

namespace Fp3

@[simp] theorem zero_c0 : (0 : Fp3).c0 = 0 := rfl
@[simp] theorem zero_c1 : (0 : Fp3).c1 = 0 := rfl
@[simp] theorem zero_c2 : (0 : Fp3).c2 = 0 := rfl
@[simp] theorem one_c0 : (1 : Fp3).c0 = 1 := rfl
@[simp] theorem one_c1 : (1 : Fp3).c1 = 0 := rfl
@[simp] theorem one_c2 : (1 : Fp3).c2 = 0 := rfl
@[simp] theorem add_c0 (a b : Fp3) : (a + b).c0 = a.c0 + b.c0 := rfl
@[simp] theorem add_c1 (a b : Fp3) : (a + b).c1 = a.c1 + b.c1 := rfl
@[simp] theorem add_c2 (a b : Fp3) : (a + b).c2 = a.c2 + b.c2 := rfl
@[simp] theorem sub_c0 (a b : Fp3) : (a - b).c0 = a.c0 - b.c0 := rfl
@[simp] theorem sub_c1 (a b : Fp3) : (a - b).c1 = a.c1 - b.c1 := rfl
@[simp] theorem sub_c2 (a b : Fp3) : (a - b).c2 = a.c2 - b.c2 := rfl
@[simp] theorem neg_c0 (a : Fp3) : (-a).c0 = -a.c0 := rfl
@[simp] theorem neg_c1 (a : Fp3) : (-a).c1 = -a.c1 := rfl
@[simp] theorem neg_c2 (a : Fp3) : (-a).c2 = -a.c2 := rfl

@[simp] theorem mul_c0 (a b : Fp3) :
    (a * b).c0 = a.c0 * b.c0 + (a.c1 * b.c2 + a.c2 * b.c1) := rfl

@[simp] theorem mul_c1 (a b : Fp3) :
    (a * b).c1 = a.c0 * b.c1 + a.c1 * b.c0 + (a.c1 * b.c2 + a.c2 * b.c1) + a.c2 * b.c2 := rfl

@[simp] theorem mul_c2 (a b : Fp3) :
    (a * b).c2 = a.c0 * b.c2 + a.c1 * b.c1 + a.c2 * b.c0 + a.c2 * b.c2 := rfl

@[simp] theorem ofBase_c0 (a : Fp) : (ofBase a).c0 = a := rfl
@[simp] theorem ofBase_c1 (a : Fp) : (ofBase a).c1 = 0 := rfl
@[simp] theorem ofBase_c2 (a : Fp) : (ofBase a).c2 = 0 := rfl

private theorem mul_assoc' (a b c : Fp3) : a * b * c = a * (b * c) := by
  ext1 <;> simp only [mul_c0, mul_c1, mul_c2] <;> ring

private theorem add_mul' (a b c : Fp3) : (a + b) * c = a * c + b * c := by
  ext1 <;> simp only [mul_c0, mul_c1, mul_c2, add_c0, add_c1, add_c2] <;> ring

/-- The cofactor completes an element to its norm. -/
theorem mul_cofactor (a : Fp3) : a * cofactor a = ofBase (norm a) := by
  ext1 <;> simp only [mul_c0, mul_c1, mul_c2, cofactor, norm, ofBase_c0, ofBase_c1, ofBase_c2] <;>
    ring

theorem norm_mul (a b : Fp3) : norm (a * b) = norm a * norm b := by
  simp only [norm, cofactor, mul_c0, mul_c1, mul_c2]
  ring

/-- The class of `x`, squared `n` times. -/
def frobenius : Nat → Fp3
  | 0 => ⟨0, 1, 0⟩
  | n + 1 => frobenius n * frobenius n

/-- The value at a point of the polynomial that an element stands for. -/
def value (r : Fp) (a : Fp3) : Fp := a.c0 + a.c1 * r + a.c2 * r ^ 2

theorem value_mul {r : Fp} (hr : r ^ 3 = r + 1) (a b : Fp3) :
    value r (a * b) = value r a * value r b := by
  simp only [value, mul_c0, mul_c1, mul_c2]
  linear_combination (-(a.c1 * b.c2 + a.c2 * b.c1) - a.c2 * b.c2 * r) * hr

theorem value_frobenius {r : Fp} (hr : r ^ 3 = r + 1) (n : Nat) :
    value r (frobenius n) = r ^ 2 ^ n := by
  induction n with
  | zero => simp [frobenius, value]
  | succ n ih => rw [frobenius, value_mul hr, ih, ← pow_add, pow_succ, mul_two]

private theorem norm_frobenius : norm (frobenius 64 - frobenius 32) ≠ 0 := by decide +kernel

/-- A root would be fixed by the Frobenius map, and then a unit would vanish at it. -/
theorem no_root (r : Fp) : r ^ 3 ≠ r + 1 := by
  intro hr
  have fixed : r ^ 2 ^ 64 = r ^ 2 ^ 32 := by
    have split : r ^ (prime + (2 ^ 32 - 1)) = r ^ (1 + (2 ^ 32 - 1)) := by
      rw [pow_add, Fp.pow_prime, pow_add, pow_one]
    have h64 : prime + (2 ^ 32 - 1) = 2 ^ 64 := by norm_num [prime]
    have h32 : 1 + (2 ^ 32 - 1) = 2 ^ 32 := by norm_num
    rwa [h64, h32] at split
  have vanishes : value r (frobenius 64 - frobenius 32) = 0 := by
    have h64 := value_frobenius hr 64
    have h32 := value_frobenius hr 32
    rw [fixed, ← h32] at h64
    simp only [value, sub_c0, sub_c1, sub_c2] at h64 ⊢
    linear_combination h64
  have h := value_mul hr (frobenius 64 - frobenius 32) (cofactor (frobenius 64 - frobenius 32))
  rw [mul_cofactor, vanishes, zero_mul] at h
  refine norm_frobenius ?_
  simpa [value] using h

/-- A linear polynomial has its only root in the base field. -/
private theorem norm_linear {a : Fp3} (h2 : a.c2 = 0) (ha : a ≠ 0) : norm a ≠ 0 := by
  intro hn
  have expanded : a.c0 ^ 3 - a.c0 * a.c1 ^ 2 + a.c1 ^ 3 = 0 := by
    rw [← hn]
    simp only [norm, cofactor, h2]
    ring
  by_cases h1 : a.c1 = 0
  · have h0 : a.c0 = 0 := by simpa [h1] using expanded
    exact ha (Fp3.ext h0 h1 h2)
  · refine no_root (-a.c0 / a.c1) ?_
    field_simp
    linear_combination -expanded

theorem norm_ne_zero {a : Fp3} (ha : a ≠ 0) : norm a ≠ 0 := by
  by_cases h2 : a.c2 = 0
  · exact norm_linear h2 ha
  · -- Dividing `x^3 - x - 1` by the polynomial leaves a linear remainder that is not zero.
    have product : a * ⟨-a.c1, a.c2, 0⟩ =
        ⟨a.c2 ^ 2 - a.c0 * a.c1, a.c2 ^ 2 + a.c0 * a.c2 - a.c1 ^ 2, 0⟩ := by
      ext1 <;> simp only [mul_c0, mul_c1, mul_c2] <;> ring
    intro hn
    have h := norm_mul a ⟨-a.c1, a.c2, 0⟩
    rw [hn, zero_mul, product] at h
    refine norm_linear (by rfl) ?_ h
    intro hzero
    have e0 : a.c2 ^ 2 - a.c0 * a.c1 = 0 := congrArg Fp3.c0 hzero
    have e1 : a.c2 ^ 2 + a.c0 * a.c2 - a.c1 ^ 2 = 0 := congrArg Fp3.c1 hzero
    refine no_root (a.c1 / a.c2) ?_
    field_simp
    linear_combination -a.c1 * e1 - a.c2 * e0

private theorem mul_inv' {a : Fp3} (ha : a ≠ 0) : a * a⁻¹ = 1 := by
  have hn := norm_ne_zero ha
  have h : a * a⁻¹ = ofBase (norm a)⁻¹ * (a * cofactor a) := by
    ext1 <;> simp only [Inv.inv, scale, mul_c0, mul_c1, mul_c2, ofBase_c0, ofBase_c1, ofBase_c2] <;>
      ring
  rw [h, mul_cofactor]
  ext1 <;> simp [inv_mul_cancel₀ hn]

instance : LawfulExtension Fp3 where
  add_assoc a b c := by ext1 <;> simp only [add_c0, add_c1, add_c2] <;> ring
  add_comm a b := by ext1 <;> simp only [add_c0, add_c1, add_c2] <;> ring
  zero_add a := by ext1 <;> simp
  neg_add_cancel a := by ext1 <;> simp
  sub_eq a b := by ext1 <;> simp [sub_eq_add_neg]
  mul_assoc := mul_assoc'
  mul_comm a b := by ext1 <;> simp only [mul_c0, mul_c1, mul_c2] <;> ring
  one_mul a := by ext1 <;> simp
  add_mul := add_mul'
  zero_ne_one := by decide
  mul_inv_cancel _ := mul_inv'
  inv_zero := by decide +kernel
  ofBase_one := rfl
  ofBase_add a b := by ext1 <;> simp [ExtensionField.ofBase]
  ofBase_mul a b := by ext1 <;> simp [ExtensionField.ofBase]
  scale_eq a x := by ext1 <;> simp [ExtensionField.scale, ExtensionField.ofBase, scale]
  ofLimbs_limbs _ := rfl
  limbs_ofLimbs v := by
    apply Vector.ext
    intro i hi
    change i < 3 at hi
    interval_cases i <;> rfl
  limbs_ofBase _ := rfl

end Fp3

instance : (d : Degree) → LawfulExtension d.Carrier
  | .one => inferInstanceAs (LawfulExtension Fp)
  | .three => inferInstanceAs (LawfulExtension Fp3)

end TapeStark
