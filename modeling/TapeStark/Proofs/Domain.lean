import Mathlib
import TapeStark.Domain
import TapeStark.Proofs.Basic
import TapeStark.Proofs.Field.Lawful

/-! Domains as cosets of roots of unity: their points, and that the coset by the generator stays
apart from every subgroup. -/

namespace TapeStark

namespace Fp

theorem rootOfUnity_eq (k : Nat) : rootOfUnity k = generator ^ ((prime - 1) / 2 ^ k) :=
  power_eq_pow _ _

theorem generator_ne_zero : generator ≠ 0 := by decide

private theorem two_pow_dvd {k : Nat} (h : k ≤ twoAdicity) : 2 ^ k ∣ prime - 1 :=
  (Nat.pow_dvd_pow 2 h).trans (by decide)

/-- Every root is primitive for its order. -/
theorem isPrimitiveRoot_rootOfUnity {k : Nat} (h : k ≤ twoAdicity) :
    IsPrimitiveRoot (rootOfUnity k) (2 ^ k) := by
  rw [rootOfUnity_eq]
  refine IsPrimitiveRoot.pow (by decide) (orderOf_generator ▸ IsPrimitiveRoot.orderOf generator) ?_
  exact (Nat.div_mul_cancel (two_pow_dvd h)).symm

/-- The generator is no root of unity whose order is a power of two. -/
theorem generator_pow_two_pow_ne_one {k : Nat} (h : k ≤ twoAdicity) : generator ^ 2 ^ k ≠ 1 := by
  intro h1
  have hdvd := orderOf_dvd_of_pow_eq_one h1
  rw [orderOf_generator] at hdvd
  have hle := Nat.le_of_dvd (Nat.two_pow_pos k) hdvd
  have : 2 ^ k ≤ 2 ^ twoAdicity := Nat.pow_le_pow_right (by decide) h
  exact absurd (hle.trans this) (by decide)

/-- The root of the next smaller order is the square. -/
theorem rootOfUnity_succ_sq {k : Nat} (h : k + 1 ≤ twoAdicity) :
    rootOfUnity (k + 1) ^ 2 = rootOfUnity k := by
  rw [rootOfUnity_eq, rootOfUnity_eq, ← pow_mul]
  congr 1
  obtain ⟨m, hm⟩ := two_pow_dvd h
  rw [hm, Nat.mul_div_cancel_left _ (Nat.two_pow_pos _), pow_succ, mul_assoc,
    Nat.mul_div_cancel_left _ (Nat.two_pow_pos _), mul_comm]

/-- A root of smaller order is a power of one of larger order. -/
theorem rootOfUnity_pow {j k : Nat} (hjk : j ≤ k) (h : k ≤ twoAdicity) :
    rootOfUnity k ^ 2 ^ (k - j) = rootOfUnity j := by
  obtain ⟨d, rfl⟩ := Nat.exists_eq_add_of_le hjk
  rw [rootOfUnity_eq, rootOfUnity_eq, ← pow_mul, Nat.add_sub_cancel_left]
  congr 1
  obtain ⟨m, hm⟩ := two_pow_dvd h
  rw [hm, Nat.mul_div_cancel_left _ (Nat.two_pow_pos _), pow_add, mul_assoc,
    Nat.mul_div_cancel_left _ (Nat.two_pow_pos _), mul_comm]

end Fp

namespace Domain

theorem logSize?_two_pow {k : Nat} (h : k ≤ Fp.twoAdicity) :
    logSize? (2 ^ k : Nat) = .ok ⟨k, h⟩ := by
  have hlog : ((2 ^ k : Nat) : Int).toNat.log2 = k := by
    rw [Int.toNat_natCast, Nat.log2_two_pow]
  rw [logSize?, if_pos (isPowerOfTwo_iff.mpr ⟨k, rfl⟩), dif_pos (hlog.trans_le h)]
  congr

theorem ofSize?_two_pow {k : Nat} (h : k ≤ Fp.twoAdicity) (offset : Fp) :
    ofSize? (2 ^ k : Nat) offset = .ok ⟨k, offset, h⟩ := by
  rw [ofSize?, logSize?_two_pow h]
  rfl

theorem ofSize?_eq_ok {n : Int} {offset : Fp} {d : Domain} :
    ofSize? n offset = .ok d ↔ n = d.size ∧ offset = d.offset := by
  constructor
  · intro h
    obtain ⟨k, hk, hd⟩ := bind_eq_ok.mp h
    obtain rfl := Except.ok.inj hd
    rw [logSize?] at hk
    split at hk
    · rename_i hn
      obtain ⟨j, rfl⟩ := isPowerOfTwo_iff.mp hn
      split at hk
      · obtain rfl := Except.ok.inj hk
        exact ⟨congrArg (fun k => ((2 ^ k : Nat) : Int)) Nat.log2_two_pow.symm, rfl⟩
      · cases hk
    · cases hk
  · rintro ⟨rfl, rfl⟩
    exact ofSize?_two_pow d.logSize_le d.offset

theorem subgroup?_two_pow {k : Nat} (h : k ≤ Fp.twoAdicity) :
    subgroup? (2 ^ k : Nat) = .ok ⟨k, 1, h⟩ := ofSize?_two_pow h 1

theorem coset?_two_pow {k : Nat} (h : k ≤ Fp.twoAdicity) :
    coset? (2 ^ k : Nat) = .ok ⟨k, Fp.generator, h⟩ := ofSize?_two_pow h Fp.generator

variable (d : Domain)

theorem size_eq : d.size = 2 ^ d.logSize := rfl

theorem size_pos : 0 < d.size := Nat.two_pow_pos _

theorem isPrimitiveRoot_generator : IsPrimitiveRoot d.generator d.size :=
  Fp.isPrimitiveRoot_rootOfUnity d.logSize_le

theorem generator_pow_size : d.generator ^ d.size = 1 := d.isPrimitiveRoot_generator.pow_eq_one

theorem element_eq (i : Nat) : d.element i = d.offset * d.generator ^ i := by
  rw [element, power_eq_pow, ← pow_eq_pow_mod i d.generator_pow_size]

theorem elementAt_natCast (i : Nat) : d.elementAt i = d.offset * d.generator ^ i := by
  rw [elementAt, element_eq, ← Int.natCast_emod, Int.toNat_natCast,
    ← pow_eq_pow_mod i d.generator_pow_size]

theorem elementAt_natCast_eq_element (i : Nat) : d.elementAt i = d.element i := by
  rw [elementAt_natCast, element_eq]

theorem elementAt_eq (i : Int) :
    d.elementAt i = d.offset * d.generator ^ (i % d.size).toNat := d.element_eq _

theorem generator_ne_zero : d.generator ≠ 0 :=
  d.isPrimitiveRoot_generator.ne_zero d.size_pos.ne'

/-- Indices on either side of zero go on with the powers of the generator. -/
theorem elementAt_eq_zpow (i : Int) : d.elementAt i = d.offset * d.generator ^ i := by
  have hpos : (d.size : Int) ≠ 0 := by exact_mod_cast d.size_pos.ne'
  have hsplit : i = (i % d.size).toNat + (d.size : Int) * (i / d.size) := by
    rw [Int.toNat_of_nonneg (Int.emod_nonneg i hpos), Int.emod_add_mul_ediv]
  have hround : d.generator ^ ((d.size : Int) * (i / d.size)) = 1 := by
    rw [zpow_mul, zpow_natCast, d.generator_pow_size, one_zpow]
  rw [elementAt_eq]
  conv_rhs => rw [hsplit, zpow_add₀ d.generator_ne_zero, hround, mul_one, zpow_natCast]

theorem elementAt_emod (i : Int) : d.elementAt (i % d.size) = d.elementAt i := by
  rw [elementAt, elementAt, Int.emod_emod_of_dvd _ (dvd_refl _)]

theorem elementAt_ne_zero (h : d.offset ≠ 0) (i : Int) : d.elementAt i ≠ 0 := by
  rw [elementAt_eq]
  exact mul_ne_zero h (pow_ne_zero _ d.generator_ne_zero)

/-- In the power that every root of unity is one, a point is told by the offset alone. -/
theorem elementAt_pow (i : Int) :
    d.elementAt i ^ 2 ^ Fp.twoAdicity = d.offset ^ 2 ^ Fp.twoAdicity := by
  obtain ⟨m, hm⟩ : d.size ∣ 2 ^ Fp.twoAdicity := Nat.pow_dvd_pow 2 d.logSize_le
  have root : (d.generator ^ (i % d.size).toNat) ^ 2 ^ Fp.twoAdicity = 1 := by
    rw [pow_right_comm, hm, pow_mul d.generator, d.generator_pow_size, one_pow, one_pow]
  rw [elementAt_eq, mul_pow, root, mul_one]

section Coset

variable {d}

/-- A point of the coset is no point of a subgroup. -/
theorem coset_ne_subgroup (hd : d.offset = Fp.generator) {trace : Domain} (ht : trace.offset = 1)
    (i j : Int) : d.elementAt i ≠ trace.elementAt j := by
  intro h
  have h' := congrArg (· ^ 2 ^ Fp.twoAdicity) h
  simp only [elementAt_pow, hd, ht, one_pow] at h'
  exact Fp.generator_pow_two_pow_ne_one (Nat.le_refl _) h'

/-- On the coset no vanishing polynomial of a subgroup is zero. -/
theorem coset_pow_ne_one (hd : d.offset = Fp.generator) {k : Nat} (hk : k ≤ Fp.twoAdicity) (i : Int) :
    d.elementAt i ^ 2 ^ k ≠ 1 := by
  intro h
  have h' := congrArg (· ^ 2 ^ (Fp.twoAdicity - k)) h
  simp only [← pow_mul, ← pow_add, Nat.add_sub_cancel' hk, one_pow, elementAt_pow, hd] at h'
  exact Fp.generator_pow_two_pow_ne_one (Nat.le_refl _) h'

end Coset

end Domain

end TapeStark
