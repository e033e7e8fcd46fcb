import Mathlib
import TapeStark.Proofs.Protocol.Coverage
import TapeStark.Proofs.Protocol.Extended
import TapeStark.Proofs.Protocol.Prepared
import TapeStark.Proofs.Protocol.Totality
import TapeStark.Proofs.Sampling

/-! The positions that a query opens: its own and, for each table, the one of the next row, at the
end of the domain from the start again. They are told by the heights alone, and the rows that the
verifier looks up are among them. -/

namespace TapeStark

open ExtensionField

namespace Composition

/-- What the positions of a query are, in an evaluation domain of this size. -/
structure Covers (heights : Heights) (size index : Nat) (positions : List Int) : Prop where
  first : positions.head? = some (index : Int)
  distinct : positions.Nodup
  within : ∀ p ∈ positions, 0 ≤ p ∧ p < size
  mem_iff (p : Int) : p ∈ positions ↔
    p = index ∨ ∃ t, p = (index + size / heights.get t) % size

theorem covers {heights : Heights} {size index : Nat} (hheights : ∀ t, 0 < heights.get t)
    (hindex : index < size) : Covers heights size index (positions heights index size) where
  first := by
    obtain ⟨rest, hrest⟩ : ∃ rest, positions heights index size = (index : Int) :: rest :=
      exists_positions
    rw [hrest, List.head?_cons]
  distinct := (firstOccurrences_eraseDups _).nodup
  within p hp := by
    obtain ⟨i, hi, rfl⟩ := lt_of_mem_positions hindex hp
    omega
  mem_iff p := by
    have hnext (t : Table) : nextPosition index size (heights.get t) =
        (index + size / heights.get t) % size :=
      nextPosition_eq (Int.natCast_nonneg _) (hheights t).le
    simp only [positions, List.mem_eraseDups, List.mem_cons, List.mem_map, hnext, Table.mem_all,
      true_and, eq_comm]

theorem positions?_eq {heights : Heights} {index size : Int} (hsize : size ≠ 0)
    (hheights : ∀ t, heights.get t ≠ 0) :
    positions? heights index size = .ok (positions heights index size) := by
  have hany : ¬ heights.toList.any (· = 0) := by
    simp [Heights.toList, Table.mem_all, hheights]
  rw [positions?, if_neg (not_or.mpr ⟨hsize, hany⟩)]

/-- Only a table of one row has its next row where it stands: all the way around the domain. -/
theorem nextPosition_eq_self_iff {index size height : Nat} (hindex : index < size)
    (hheight : 0 < height) (hle : height ≤ size) :
    nextPosition index size height = index ↔ height = 1 := by
  have hround : (index + size / height) % size = index ↔ size ∣ size / height := by
    rw [← Nat.add_modEq_left_iff, Nat.ModEq, Nat.mod_eq_of_lt hindex]
  rw [nextPosition_natCast, Int.natCast_inj, hround]
  constructor
  · intro hdvd
    have hpos : 0 < size / height := Nat.div_pos hle hheight
    by_contra hne
    have hlt : size / height < size := Nat.div_lt_self (by omega) (by omega)
    exact absurd (Nat.le_of_dvd hpos hdvd) (not_le.mpr hlt)
  · rintro rfl
    rw [Nat.div_one]

end Composition

namespace Domain

/-- How the rows of a table lie in the evaluation domain: evenly, at least two points apart, and with
the next row of a point where the next position leads. The prover takes the values that it combines
at a position from the same two places. -/
structure Strides (wide trace : Domain) : Prop where
  dvd : trace.size ∣ wide.size
  two_le : 2 ≤ wide.size / trace.size
  next_eq (i : Nat) : Composition.nextPosition i wide.size trace.size =
    ((i + wide.size / trace.size) % wide.size : Nat)
  point (i : Nat) : wide.elementAt (Composition.nextPosition i wide.size trace.size) =
    wide.elementAt i * trace.generator
  next_eq_self_iff (i : Nat) (hi : i < wide.size) :
    Composition.nextPosition i wide.size trace.size = i ↔ trace.size = 1
  rotated {κ F : Type} [ExtensionField F] (value : Nat → κ → F) (ch : Challenges F) (e : Expr κ)
    (i : Nat) : e.evalAt value ch wide.size (wide.size / trace.size) i =
      e.eval (value i) (value (Composition.nextPosition i wide.size trace.size).toNat) ch

theorem strides {wide trace : Domain} (h : 2 * trace.size ≤ wide.size) : wide.Strides trace where
  dvd := by
    have hle : 2 ^ trace.logSize ≤ 2 ^ wide.logSize := by
      rw [← size_eq, ← size_eq]
      omega
    exact Nat.pow_dvd_pow 2 ((Nat.pow_le_pow_iff_right (by decide)).mp hle)
  two_le := (Nat.le_div_iff_mul_le trace.size_pos).mpr h
  next_eq i := Composition.nextPosition_natCast trace.size
  point i := by
    rw [Composition.nextPosition_natCast, elementAt_natCast_eq_element,
      elementAt_natCast_eq_element, element_stride (by omega), mul_comm]
  next_eq_self_iff i hi := Composition.nextPosition_eq_self_iff hi trace.size_pos (by omega)
  rotated value ch e i := by
    rw [Composition.nextPosition_natCast]
    rfl

end Domain

namespace Heights

theorem ofClaim_pos (claim : Claim) {processor : Int} (h : 0 < processor) (t : Table) :
    0 < (ofClaim claim processor).get t := by
  cases t with
  | processor | memory => exact h
  | instruction | input | output => exact Int.natCast_pos.mpr (nextPowerOfTwo_pos _)

/-- All tables have their domains exactly if the processor table has a height to which rows can be
padded; the other heights are rounded up. -/
theorem ofClaim_domains_iff {claim : Claim} {processor : Int} {wide : Domain}
    (hwide : (ofClaim claim processor).degreeBound ≤ wide.size) :
    isPowerOfTwo processor = true ↔
      ∀ t, ∃ trace, Domain.subgroup? ((ofClaim claim processor).get t) = .ok trace := by
  constructor
  · intro hpower t
    have hpowers : ∃ k : Nat, (ofClaim claim processor).get t = (2 ^ k : Nat) := by
      obtain ⟨k, rfl⟩ := isPowerOfTwo_iff.mp hpower
      have hpadded := exists_ofClaim claim (2 ^ k : Nat) t
      rwa [nextPowerOfTwo_two_pow] at hpadded
    obtain ⟨trace, hone, hheight, -⟩ := exists_domain hwide hpowers
    exact ⟨trace, Domain.ofSize?_eq_ok.mpr ⟨hheight, hone.symm⟩⟩
  · intro hdomains
    obtain ⟨trace, htrace⟩ := hdomains .processor
    have hheight : processor = trace.size := (Domain.ofSize?_eq_ok.mp htrace).1
    exact isPowerOfTwo_iff.mpr ⟨trace.logSize, hheight⟩

/-- Where the evaluation domain expands the degree bound, the rows of every table lie evenly. -/
theorem strides {h : Heights} {wide trace : Domain} (hwide : 2 * h.degreeBound ≤ wide.size)
    {t : Table} (htrace : Domain.subgroup? (h.get t) = .ok trace) :
    h.get t = trace.size ∧ wide.Strides trace := by
  have hheight : h.get t = trace.size := (Domain.ofSize?_eq_ok.mp htrace).1
  have hle : trace.size ≤ h.degreeBound := le_degreeBound hheight
  exact ⟨hheight, Domain.strides (by omega)⟩

end Heights

namespace Composition

/-- Whatever the heights, a query opens its own position and those of the next rows, each once, and
when the positions of the opened rows are checked, the verifier finds the row of the query and the
next row of every table among them. The rows of a table that has its domain lie evenly in the
evaluation domain, and all tables have theirs exactly for the processor heights that padding makes. -/
theorem positions_cover_lookups (config : Config) (claim : Claim) {processor : Int}
    (hprocessor : 0 < processor) :
    let heights := Heights.ofClaim claim processor
    let size := heights.degreeBound * config.expansion
    (∀ index < size, positions? heights index size = .ok (positions heights index size) ∧
      Covers heights size index (positions heights index size)) ∧
    (size ≤ 2 ^ 32 → ∃ wide, Domain.coset? size = .ok wide ∧ wide.size = size ∧
      (isPowerOfTwo processor = true ↔
        ∀ t, ∃ trace, Domain.subgroup? (heights.get t) = .ok trace) ∧
      (∀ t trace, Domain.subgroup? (heights.get t) = .ok trace →
        heights.get t = trace.size ∧ wide.Strides trace) ∧
      ∀ (e : Degree) (r : Verifier.Received e.Carrier) (q : Verifier.Query e.Carrier),
        r.composition.heights = heights → r.fri.domain = wide → q.Shaped heights r.fri →
        Verifier.checkPositions q = .ok () →
        ∀ t, r.LooksUp q t (nextPosition q.index size (heights.get t))) := by
  intro heights size
  have hheights (t : Table) : 0 < heights.get t := Heights.ofClaim_pos claim hprocessor t
  refine ⟨fun index hindex => ⟨?_, covers hheights hindex⟩, fun hsize => ?_⟩
  · exact positions?_eq (by omega) fun t => (hheights t).ne'
  · rcases config.domain_cases heights with ⟨wide, hcoset, -, hwide⟩ | ⟨hlarge, -⟩
    · have hdouble : 2 * heights.degreeBound ≤ wide.size := by
        obtain ⟨e, he, -⟩ := config.exists_expansion
        rw [← hwide, he, pow_succ]
        nlinarith [Nat.two_pow_pos e]
      have hbound : heights.degreeBound ≤ wide.size := by omega
      refine ⟨wide, hcoset, hwide.symm, Heights.ofClaim_domains_iff hbound, ?_, ?_⟩
      · exact fun t trace htrace => Heights.strides hdouble htrace
      · rintro e r q hr rfl hq hpositions t
        have hlooks := Verifier.looksUp_next (hr ▸ hq) hpositions t
        rwa [hr, ← hwide] at hlooks
    · exact absurd hsize (not_le.mpr hlarge)

end Composition

namespace Skewed

def expandingByTwo : Config := ⟨{ expansionFactor := 2 }, by decide⟩

/-- Rows opened at the last of 16 points, and behind it from the start again. -/
def lastQuery : Verifier.Query Fp where
  index := 15
  positions := [15, 7, 3]
  base := [15, 7, 3].map fun i => ⟨i, List.replicate Verifier.baseWidth (.fp (Fp.ofInt i)), []⟩
  extension :=
    [15, 7, 3].map fun i => ⟨i, List.replicate Verifier.extensionWidth (.fx (Fp.ofInt i)), []⟩
  randomizers := none
  layers := []

def received : Verifier.Received Fp where
  composition := composition
  fri := ⟨wide, 0, 16, 8⟩
  baseRoot := ByteArray.empty
  extensionRoot := ByteArray.empty
  randomizerRoot := none
  weights := []
  folded := ⟨[], #[]⟩
  state := ByteArray.empty
  nonce := 0
  drawn := [15]
  queries := [lastQuery]

end Skewed

namespace Composition

open Skewed in
/-- At the end of the domain the next rows are found at its start. -/
theorem positions_cover_lookups_at_end :
    let heights := Heights.ofClaim ⟨#[], ByteArray.empty, ByteArray.empty⟩ 2
    (0 : Int) < 2 ∧ isPowerOfTwo 2 = true ∧
      heights.degreeBound * expandingByTwo.expansion = 16 ∧
      lastQuery.Shaped heights received.fri ∧ Verifier.checkPositions lastQuery = .ok () ∧
      positions? heights 15 16 = .ok [15, 7, 3] ∧ Covers heights 16 15 [15, 7, 3] ∧
      (∃ trace, Domain.subgroup? 2 = .ok trace ∧ wide.Strides trace) ∧
      received.LooksUp lastQuery .memory 7 := by
  intro heights
  have hsize : heights.degreeBound * expandingByTwo.expansion = 16 := by decide +kernel
  have hpositions : positions heights 15 16 = [15, 7, 3] := by decide +kernel
  have hshaped : lastQuery.Shaped heights received.fri :=
    ⟨⟨by simp [lastQuery], by simp [lastQuery]⟩, hpositions.symm, rfl, rfl, rfl, by simp [lastQuery]⟩
  have hchecked : Verifier.checkPositions lastQuery = .ok () := rfl
  obtain ⟨hlist, hdomains⟩ := positions_cover_lookups expandingByTwo
    ⟨#[], ByteArray.empty, ByteArray.empty⟩ (by decide : (0 : Int) < 2)
  obtain ⟨hfound, hcovers⟩ := hlist 15 (hsize.symm ▸ by decide)
  obtain ⟨d, hcoset, -, htables, hstrides, hlooks⟩ := hdomains (hsize.trans_le (by decide))
  obtain rfl : wide = d := Except.ok.inj (coset_eq.symm.trans hcoset)
  obtain ⟨trace, htrace⟩ := htables.mp (by decide) .memory
  have hlooks := hlooks .one received lastQuery rfl rfl hshaped hchecked .memory
  rw [hsize] at hfound hcovers hlooks
  exact ⟨by decide, by decide, hsize, hshaped, hchecked,
    hfound.trans (congrArg Except.ok hpositions), hpositions ▸ hcovers,
    ⟨trace, htrace, (hstrides .memory trace htrace).2⟩, hlooks⟩

end Composition

end TapeStark
