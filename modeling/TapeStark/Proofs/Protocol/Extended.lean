import Mathlib
import TapeStark.Proofs.Air.Complete
import TapeStark.Proofs.Protocol.Opened

/-! The padded tables of a run on the evaluation domain: their columns extend and are committed to,
and what is composed of them is a polynomial below the degree bound. -/

namespace TapeStark

open ExtensionField

variable {F : Type} [ExtensionField F] [LawfulExtension F]

namespace Heights

/-- The heights that a claim implies are powers of two. -/
theorem exists_ofClaim (claim : Claim) (n : Int) (t : Table) :
    ∃ k : Nat, (ofClaim claim (nextPowerOfTwo n)).get t = (2 ^ k : Nat) := by
  have power (m : Int) : ∃ k : Nat, (nextPowerOfTwo m : Int) = (2 ^ k : Nat) := by
    obtain ⟨k, hk⟩ := exists_nextPowerOfTwo m
    exact ⟨k, congrArg Nat.cast hk⟩
  cases t <;> exact power _

/-- Below the size of the evaluation domain every height has its domain. -/
theorem exists_domain {h : Heights} {wide : Domain} (hwide : h.degreeBound ≤ wide.size) {t : Table}
    (hpower : ∃ k : Nat, h.get t = (2 ^ k : Nat)) :
    ∃ d : Domain, d.offset = 1 ∧ h.get t = d.size ∧ d.size ≤ wide.size := by
  obtain ⟨k, hk⟩ := hpower
  have hle : 2 ^ k ≤ 2 ^ wide.logSize := by
    have := (h.lt_degreeBound t).1
    rw [hk] at this
    exact (Int.ofNat_le.mp this).trans hwide
  exact ⟨⟨k, 1, ((Nat.pow_le_pow_iff_right (by decide)).mp hle).trans wide.logSize_le⟩, rfl, hk, hle⟩

end Heights

namespace ExtendedTo

variable {κ : Table → Type} [∀ t, ColumnSet (κ t)] {V W : Type} [ExtensionField V]
  [LawfulExtension V] {codes : PerTable fun t => LowDegree (κ t) V} {wide : Domain}

theorem codewords_ne_nil (h : ExtendedTo codes wide) (tag : V → W)
    (hne : (ColumnSet.all : List (κ .processor)) ≠ []) : Prover.codewords tag codes ≠ [] := by
  obtain ⟨coefficients, trace, hcode⟩ := h.columns .processor
  rw [Prover.codewords, ← List.length_pos_iff, Table.all, List.flatMap_cons, List.length_append,
    List.length_map, hcode]
  refine Nat.lt_of_lt_of_le ?_ (Nat.le_add_right ..)
  exact List.length_pos_iff.mpr (by simpa [LowDegree.of, Matrix.ofColumns] using hne)

/-- The codewords of all tables are committed to. -/
theorem exists_commit (h : ExtendedTo codes wide) [TaggedValue W] (H : Hash) (workers : Int)
    (tag : V → W) (hne : (ColumnSet.all : List (κ .processor)) ≠ []) :
    ∃ c, Commitment.commit H workers (Prover.codewords tag codes) = .ok c ∧
      c.Opens H (Prover.codewords tag codes) wide.logSize :=
  Commitment.exists_commit H workers (h.codewords_ne_nil tag hne) (h.size_codewords tag)

end ExtendedTo

/-- Commitments to codewords of columns are those of a trace. -/
theorem Verifier.TraceCommitted.of_opens {H : Hash} {wide : Domain}
    {base : PerTable fun t => LowDegree t.Base Fp} {extension : PerTable fun t => LowDegree t.Ext F}
    (hbase : ExtendedTo base wide) (hextension : ExtendedTo extension wide)
    {trace : Table → Domain} {cell : (t : Table) → Nat → t.Column → F}
    (hextends : ∀ t, (⟨base.get t, extension.get t⟩ : TableCode t F).Extends (trace t) wide (cell t))
    {b e : Commitment (Tagged F)}
    (hb : b.Opens H (Prover.codewords Tagged.fp base) wide.logSize)
    (he : e.Opens H (Prover.codewords Tagged.fx extension) wide.logSize) :
    TraceCommitted H (PerTable.ofFn fun t => ⟨base.get t, extension.get t⟩) wide b e := by
  have hb' : (PerTable.ofFn fun t => ((PerTable.ofFn fun t =>
      (⟨base.get t, extension.get t⟩ : TableCode t F)).get t).base) = base :=
    PerTable.ext_get fun t => by rw [PerTable.get_ofFn, PerTable.get_ofFn]
  have he' : (PerTable.ofFn fun t => ((PerTable.ofFn fun t =>
      (⟨base.get t, extension.get t⟩ : TableCode t F)).get t).extension) = extension :=
    PerTable.ext_get fun t => by rw [PerTable.get_ofFn, PerTable.get_ofFn]
  refine ⟨hb'.symm ▸ hb, he'.symm ▸ he, hb'.symm ▸ hbase, he'.symm ▸ hextension, fun t k i hi => ?_⟩
  rw [PerTable.get_ofFn]
  exact (hextends t).value k i hi

namespace Trace

variable {padded : Trace} {domain : Table → Domain} {wide : Domain}

/-- Every table has the height of its domain, inside the evaluation domain. -/
structure On (padded : Trace) (domain : Table → Domain) (wide : Domain) : Prop where
  offset (t : Table) : (domain t).offset = 1
  length (t : Table) : (padded.rows t).length = (domain t).size
  size_le (t : Table) : (domain t).size ≤ wide.size

theorem On.height (h : padded.On domain wide) (t : Table) :
    padded.heights.get t = (domain t).size :=
  (PerTable.get_ofFn ..).trans (congrArg Nat.cast (h.length t))

/-- The base columns extend, and together with them the extension columns at any challenges. -/
theorem On.exists_code (h : padded.On domain wide) : ∃ base,
    Prover.extendAll padded.baseMatrices wide = .ok base ∧ ExtendedTo base wide ∧
      ∀ ch : Challenges F, ∃ extension,
        Prover.extendAll (PerTable.ofFn fun t => (t.columns ch (padded.rows t)).extension) wide =
            .ok extension ∧
          ExtendedTo extension wide ∧
          ∀ t, (⟨base.get t, extension.get t⟩ : TableCode t F).Extends (domain t) wide
            (t.columns ch (padded.rows t)).cell := by
  have hsize (t : Table) (c : t.Base) :
      ((padded.rows t).map fun r => r.get c).toArray.size = (domain t).size := by
    rw [List.size_toArray, List.length_map, h.length]
  choose b hb hbase using fun t => Matrix.exists_lowDegree (h.offset t) (ColumnSet.base_ne_nil t)
    (hsize t) (h.size_le t)
  refine ⟨PerTable.ofFn fun t => .of ColumnSet.all (b t) (domain t) wide,
    PerTable.ofFnM_eq_ok fun t => ?_, ⟨fun t => ⟨b t, domain t, PerTable.get_ofFn ..⟩⟩, fun ch => ?_⟩
  · rw [baseMatrices, PerTable.get_ofFn]
    exact hbase t
  · choose b' e hb' he hextends using fun t => TableCode.exists_extends (F := F)
      (h.offset t) (hsize t)
      (fun c => (List.size_toArray ..).trans
        ((Table.length_extension ch t (padded.rows t) c).trans (h.length t))) (h.size_le t)
    refine ⟨PerTable.ofFn fun t => .of ColumnSet.all (e t) (domain t) wide,
      PerTable.ofFnM_eq_ok fun t => ?_, ⟨fun t => ⟨e t, domain t, PerTable.get_ofFn ..⟩⟩, fun t => ?_⟩
    · rw [PerTable.get_ofFn]
      exact he t
    · have hsame : LowDegree.of ColumnSet.all (b t) (domain t) wide =
          .of ColumnSet.all (b' t) (domain t) wide := Except.ok.inj ((hbase t).symm.trans (hb' t))
      rw [PerTable.get_ofFn, PerTable.get_ofFn, hsame]
      exact hextends t

end Trace

namespace Run

variable {program : Program} {input : ByteArray} (r : Run program input) {t : Trace}

/-- The composition over the padded tables, under a number of randomizers. -/
def composition (t : Trace) (ch : Challenges F) (randomizers : Nat) : Composition F :=
  ⟨t.heights, r.claim.input.size, r.claim.output.size, ch, r.terminals ch, randomizers⟩

variable {starts : Nat → Prop} (hlayout : Program.Layout program [] starts) (h : r.Padded t)
  (hpad : r.PadFits) (ch : Challenges F)

include h in
/-- The padded tables have domains inside the evaluation domain. -/
theorem Padded.exists_on {wide : Domain} (hwide : t.heights.degreeBound ≤ wide.size) :
    ∃ domain, t.On domain wide := by
  choose domain hone hheight hle using fun T => Heights.exists_domain hwide (t := T)
    (h.heights_eq r ▸ Heights.exists_ofClaim r.claim (r.length + 1 : Nat) T)
  exact ⟨domain, hone, fun T => Int.ofNat.inj ((PerTable.get_ofFn ..).symm.trans (hheight T)), hle⟩

include h hpad

/-- Prover and verifier compose alike. -/
theorem Padded.composition_of (hfits : r.Fits) (randomizers : Nat) :
    Composition.of ch r.claim t.heights ((Table.columns ch .processor t.processor).extension.last .ipa)
      ((Table.columns ch .processor t.processor).extension.last .mpa) randomizers =
        .ok (r.composition t ch randomizers) := by
  rw [Composition.of, show r.claim.program = program from rfl,
    h.compute_terminals r hpad ch hfits, ok_bind]
  rfl

include hlayout

/-- What is composed is a polynomial below the degree bound, whatever the randomizers are. -/
theorem Padded.exists_polynomial {domain : Table → Domain} {wide : Domain}
    (hon : t.On domain wide) (hwide : wide.offset = Fp.generator)
    {tables : PerTable fun T => TableCode T F}
    (hextends : ∀ T, (tables.get T).Extends (domain T) wide (T.columns ch (t.rows T)).cell)
    {masks : List (Polynomial F)} (hmasks : ∀ p ∈ masks, p.degree < t.heights.degreeBound)
    {weights : List F}
    (hweights : (weights.length : Int) = (r.composition t ch masks.length).numWeights) :
    ∃ p : Polynomial F, p.degree < t.heights.degreeBound ∧
      (r.composition t ch masks.length).compose tables weights
          (masks.map fun p => (Fourier.values p wide).toArray) wide =
        .ok (Fourier.values p wide).toArray ∧
      ∀ i, (r.composition t ch masks.length).evaluate (ofBase (wide.element i))
          (PerTable.ofFn fun T => (tables.get T).openingAt (domain T) (ofBase (wide.element i)))
          (masks.map fun p => p.eval (ofBase (wide.element i))) weights =
        .ok (p.eval (ofBase (wide.element i))) := by
  have hheight (T : Table) : (T.columns ch (t.rows T)).height = (domain T).size :=
    (TableColumns.height_of_base rfl).trans (hon.length T)
  refine (r.composition t ch masks.length).exists_composition hextends hwide hon.size_le
    (fun T => ?_) (fun T k hk => ?_) (fun T p hp => ?_) hmasks
    (Composition.weightsOf_eq (Int.natCast_nonneg _) hweights)
  · exact hon.height T
  · rw [← hheight]
    exact (h.satisfies r hlayout hpad ch T).1 k hk
  · rw [← hheight]
    exact (h.satisfies r hlayout hpad ch T).2 p hp

end Run

end TapeStark
