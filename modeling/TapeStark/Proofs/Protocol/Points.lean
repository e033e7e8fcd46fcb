import Mathlib
import TapeStark.Proofs.Field.Lawful
import TapeStark.Proofs.Protocol.Composition
import TapeStark.Proofs.Protocol.Fold

/-! The points of a domain, by any index and as the roots of its vanishing polynomial, and the
evaluation coset, on which nothing that the composition divides by is zero. -/

namespace TapeStark

open ExtensionField

namespace Domain

variable {d : Domain}

theorem length_elements (d : Domain) : d.elements.length = d.size := by
  rw [elements_eq, List.length_map, List.length_range]

theorem nodup_elements (hoffset : d.offset ≠ 0) : d.elements.Nodup := by
  rw [elements_eq]
  refine List.Nodup.map_on (fun i hi j hj h => ?_) List.nodup_range
  exact d.element_injective hoffset (List.mem_range.mp hi) (List.mem_range.mp hj) h

theorem getElem?_elements {i : Nat} (hi : i < d.size) :
    d.elements[i]? = some (d.elementAt i) := by
  rw [elements_eq, List.getElem?_map, List.getElem?_range hi, Option.map_some,
    elementAt_natCast_eq_element]

section Vanishing

variable {F : Type} [ExtensionField F] [LawfulExtension F]

/-- A root over the base is as primitive in every extension. -/
theorem isPrimitiveRoot_ofBase_generator (d : Domain) :
    IsPrimitiveRoot (ofBase d.generator : F) d.size :=
  d.isPrimitiveRoot_generator.map_of_injective (f := baseHom F) ofBase_injective

/-- There are as many roots of unity as points, so that an extension has no others. -/
theorem vanishingAt_eq_zero_iff (hoffset : d.offset ≠ 0) {x : F} :
    d.vanishingAt x = 0 ↔ ∃ y ∈ d.elements, x = ofBase y := by
  have hbase : (ofBase d.offset : F) ≠ 0 := ofBase_ne_zero hoffset
  rw [vanishingAt, offsetPower, power_eq_pow, power_eq_pow, sub_eq_zero, ofBase_pow, elements_eq]
  constructor
  · intro h
    have hroot : (x / ofBase d.offset) ^ d.size = 1 := by
      rw [div_pow, h, div_self (pow_ne_zero _ hbase)]
    have : NeZero d.size := ⟨d.size_pos.ne'⟩
    obtain ⟨i, hi, hpow⟩ := d.isPrimitiveRoot_ofBase_generator.eq_pow_of_pow_eq_one hroot
    refine ⟨d.element i, List.mem_map.mpr ⟨i, List.mem_range.mpr hi, rfl⟩, ?_⟩
    rw [element_eq, ofBase_mul, ofBase_pow, hpow, mul_div_cancel₀ _ hbase]
  · rintro ⟨y, hy, rfl⟩
    obtain ⟨i, -, rfl⟩ := List.mem_map.mp hy
    rw [element_eq, ofBase_mul, mul_pow, ofBase_pow, ← pow_mul, mul_comm i, pow_mul,
      ← ofBase_pow d.generator d.size, d.generator_pow_size, ofBase_one, one_pow, mul_one]

end Vanishing

/-- What a domain of `n` points is relied on for. -/
structure Enumerates (d : Domain) (n : Nat) : Prop where
  length : d.elements.length = n
  distinct : d.elements.Nodup
  entry : ∀ i < n, d.elements[i]? = some (d.elementAt i)
  periodic : ∀ i : Int, d.elementAt i = d.elementAt (i % n)
  vanishing : ∀ (e : Degree) (x : e.Carrier),
    d.vanishingAt x = 0 ↔ ∃ y ∈ d.elements, x = ofBase y
  negative : 2 ≤ n → ∀ i : Int, d.elementAt (i + (n / 2 : Nat)) = -d.elementAt i
  squares : 2 ≤ n → ∃ s, d.squared = .ok s ∧ s.size = n / 2 ∧
    ∀ i : Int, s.elementAt i = d.elementAt i * d.elementAt i

theorem enumerates (hoffset : d.offset ≠ 0) : d.Enumerates d.size where
  length := d.length_elements
  distinct := nodup_elements hoffset
  entry _ hi := getElem?_elements hi
  periodic i := (d.elementAt_emod i).symm
  vanishing _ _ := vanishingAt_eq_zero_iff hoffset
  negative h2 i := by
    obtain ⟨s, hs⟩ := exists_squared h2
    have hhalf : d.size / 2 = s.size := by
      have := size_of_squared hs
      omega
    rw [hhalf, add_comm, elementAt_half_add hs]
  squares h2 := by
    obtain ⟨s, hs⟩ := exists_squared h2
    have := size_of_squared hs
    exact ⟨s, hs, by omega, elementAt_of_squared hs⟩

/-- Nothing that the composition divides by is zero on `wide`. -/
structure Avoids (wide trace : Domain) : Prop where
  disjoint : ∀ y ∈ wide.elements, y ∉ trace.elements
  zerofier : ∃ values, zerofierInverse trace wide = .ok values
  vanishing : ∀ (e : Degree) (i : Int),
    (power (ofBase (wide.elementAt i)) trace.size - 1 : e.Carrier) ≠ 0
  row : ∀ (e : Degree) (i row : Int),
    (ofBase (wide.elementAt i) - ofBase (trace.elementAt row) : e.Carrier) ≠ 0

theorem avoids {wide trace : Domain} (hwide : wide.offset = Fp.generator)
    (htrace : trace.offset = 1) : wide.Avoids trace where
  disjoint y hy hmem := by
    rw [elements_eq] at hy hmem
    obtain ⟨i, -, rfl⟩ := List.mem_map.mp hy
    obtain ⟨j, -, hj⟩ := List.mem_map.mp hmem
    rw [← elementAt_natCast_eq_element, ← elementAt_natCast_eq_element] at hj
    exact coset_ne_subgroup hwide htrace i j hj.symm
  zerofier := ⟨_, zerofierInverse_eq htrace hwide⟩
  vanishing e i := by
    rw [power_eq_pow]
    exact coset_pow_sub_one_ne_zero hwide trace _
  row _ _ row := coset_sub_ne_zero hwide htrace _ row

end Domain

namespace Composition

variable {F : Type} [ExtensionField F] [LawfulExtension F] {c : Composition F} {wide : Domain}

/-- At a point of the coset a table has a value, unless its height is no size of a domain. -/
theorem subgroup_of_tableValue (hwide : wide.offset = Fp.generator) {i : Int} {t : Table}
    {opening : TableOpening t F} {weights : TableWeights F} {e : Error}
    (h : c.tableValue (ofBase (wide.elementAt i)) opening weights = .error e) :
    Domain.subgroup? (c.heights.get t) = .error e := by
  rw [tableValue] at h
  cases hdomain : Domain.subgroup? (c.heights.get t) with
  | error e' =>
    rw [hdomain, error_bind] at h
    exact congrArg Except.error (Except.error.inj h)
  | ok trace =>
    have hone : trace.offset = 1 := (Domain.ofSize?_eq_ok.mp hdomain).2.symm
    have hvanishing : (ofBase (wide.elementAt i) : F) ^ trace.size - 1 ≠ 0 :=
      Domain.coset_pow_sub_one_ne_zero hwide trace _
    have hrow (row : Int) : (ofBase (wide.elementAt i) - ofBase (trace.elementAt row) : F) ≠ 0 :=
      Domain.coset_sub_ne_zero hwide hone _ row
    have hquotients := quotients_eq weights
      ((c.transitions t).map fun k => k.expr.eval opening.current opening.next c.challenges)
      ((c.points t).map fun p => (p.row, p.eval opening.current)) hvanishing hrow
    rw [List.map_map, List.map_map] at hquotients
    rw [hdomain, ok_bind] at h
    exact absurd (hquotients.symm.trans h) (by simp)

/-- At a point of the coset the verifier's value fails for the number of weights or for a height
only, before anything is divided. -/
theorem weights_or_subgroup_of_evaluate (hwide : wide.offset = Fp.generator) {i : Int}
    {openings : PerTable fun t => TableOpening t F} {randomizers weights : List F} {e : Error}
    (h : c.evaluate (ofBase (wide.elementAt i)) openings randomizers weights = .error e) :
    c.weightsOf weights = .error e ∨ ∃ t, Domain.subgroup? (c.heights.get t) = .error e := by
  rw [evaluate] at h
  cases hweights : c.weightsOf weights with
  | error e' =>
    rw [hweights, error_bind] at h
    exact .inl (congrArg Except.error (Except.error.inj h))
  | ok split =>
    rw [hweights, ok_bind] at h
    cases hparts : Table.all.mapM fun t =>
        c.tableValue (ofBase (wide.elementAt i)) (openings.get t) (split.tables.get t) with
    | error e' =>
      rw [hparts, error_bind] at h
      obtain rfl := Except.error.inj h
      obtain ⟨t, -, ht⟩ := error_of_mapM hparts
      exact .inr ⟨t, subgroup_of_tableValue hwide ht⟩
    | ok parts =>
      rw [hparts, ok_bind] at h
      cases h

end Composition

namespace Domain

/-- Every size that is a power of two up to `2 ^ 32` has domains, with all the points that the
protocol counts on. The coset by the generator keeps away from every table's own domain, so that the
verifier's value at its points lacks nothing but weights or heights of a right size. -/
theorem enumerates_and_avoids :
    (∀ (k : Nat) (offset : Fp), k ≤ 32 → offset ≠ 0 →
      ∃ d, ofSize? (2 ^ k : Nat) offset = .ok d ∧ d.offset = offset ∧ d.Enumerates (2 ^ k)) ∧
    ∀ j k : Nat, j ≤ 32 → k ≤ 32 →
      ∃ trace wide, subgroup? (2 ^ j : Nat) = .ok trace ∧ coset? (2 ^ k : Nat) = .ok wide ∧
        wide.Avoids trace ∧
        ∀ (e : Degree) (c : Composition e.Carrier) (i : Int)
          (openings : PerTable fun t => TableOpening t e.Carrier)
          (randomizers weights : List e.Carrier),
          let value := c.evaluate (ofBase (wide.elementAt i)) openings randomizers weights
          (∃ v, value = .ok v) ∨
            ∃ error, value = .error error ∧ (c.weightsOf weights = .error error ∨
              ∃ t, subgroup? (c.heights.get t) = .error error) := by
  refine ⟨fun k offset hk hoffset => ?_, fun j k hj hk => ?_⟩
  · exact ⟨_, ofSize?_two_pow hk offset, rfl, enumerates (d := ⟨k, offset, hk⟩) hoffset⟩
  · refine ⟨_, _, subgroup?_two_pow hj, coset?_two_pow hk, avoids rfl rfl, ?_⟩
    intro e c i openings randomizers weights value
    cases hvalue : value with
    | ok v => exact .inl ⟨v, rfl⟩
    | error error =>
      exact .inr ⟨error, rfl, Composition.weights_or_subgroup_of_evaluate rfl hvalue⟩

theorem enumerates_and_avoids_of_four :
    (∃ d, ofSize? 4 Fp.generator = .ok d ∧ d.elements.Nodup ∧
      d.elementAt (-1 + 2) = -d.elementAt (-1)) ∧
    ∃ trace wide, subgroup? 8 = .ok trace ∧ coset? 4 = .ok wide ∧
      ∀ y ∈ wide.elements, y ∉ trace.elements := by
  obtain ⟨hsizes, hpairs⟩ := enumerates_and_avoids
  obtain ⟨d, hd, -, hfour⟩ := hsizes 2 Fp.generator (by decide) Fp.generator_ne_zero
  obtain ⟨trace, wide, htrace, hwide, havoids, -⟩ := hpairs 3 2 (by decide) (by decide)
  exact ⟨⟨d, hd, hfour.distinct, hfour.negative (by decide) (-1)⟩,
    trace, wide, htrace, hwide, havoids.disjoint⟩

end Domain

end TapeStark
