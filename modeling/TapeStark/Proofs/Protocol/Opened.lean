import Mathlib
import TapeStark.Proofs.Protocol.Composition
import TapeStark.Proofs.Protocol.Fri
import TapeStark.Proofs.Protocol.Received
import TapeStark.Proofs.Stream.Replay
import TapeStark.Protocol.Execution
import TapeStark.Protocol.Verifier

/-! The committed trace: an opening at a position holds the values of every table's columns there,
in the places where the verifier looks for them. -/

namespace TapeStark

open ExtensionField

theorem PerTable.ofFnM_eq_ok {α : Table → Type} {f : (t : Table) → Except Error (α t)}
    {g : (t : Table) → α t} (h : ∀ t, f t = .ok (g t)) : ofFnM f = .ok (ofFn g) := by
  rw [ofFnM, h, h, h, h, h]
  rfl

/-- What is there for every column, of one table after the other. -/
def columnRow {κ : Table → Type} [∀ t, ColumnSet (κ t)] {W : Type} (entry : (t : Table) → κ t → W) :
    List W :=
  Table.all.flatMap fun t => (ColumnSet.all : List (κ t)).map (entry t)

section ColumnRow

variable {κ : Table → Type} [∀ t, ColumnSet (κ t)] {V W : Type} (entry : (t : Table) → κ t → V)

theorem map_columnRow (f : V → W) :
    (columnRow entry).map f = columnRow fun t c => f (entry t c) := by
  simp [columnRow, List.map_flatMap, Function.comp_def]

theorem mem_columnRow {v : V} (h : v ∈ columnRow entry) : ∃ t c, entry t c = v := by
  obtain ⟨t, -, ht⟩ := List.mem_flatMap.mp h
  obtain ⟨c, -, hc⟩ := List.mem_map.mp ht
  exact ⟨t, c, hc⟩

theorem length_columnRow_base (entry : (t : Table) → t.Base → V) :
    (columnRow entry).length = Verifier.baseWidth := rfl

theorem length_columnRow_ext (entry : (t : Table) → t.Ext → V) :
    (columnRow entry).length = Verifier.extensionWidth := rfl

/-- The verifier finds every column in its place. -/
theorem rowOf_columnRow {F : Type} [ExtensionField F] (base : (t : Table) → t.Base → F)
    (ext : (t : Table) → t.Ext → F) (t : Table) :
    Verifier.rowOf (columnRow base) (columnRow ext) t =
      .ok fun | .base c => base t c | .ext c => ext t c := by
  refine Verifier.rowOf_eq_ok_iff.mpr fun k => ?_
  cases t with
  | processor =>
    rcases k with c | c
    · cases c with
      | flag i => rcases i with _ | _ | i <;> first | rfl | cases i <;> rfl
      | _ => rfl
    · cases c <;> rfl
  | memory => rcases k with c | c <;> cases c <;> rfl
  | instruction => rcases k with c | c <;> cases c <;> rfl
  | input => rcases k with c | c <;> cases c <;> rfl
  | output => rcases k with c | c <;> cases c <;> rfl

end ColumnRow

theorem Opening.Of.values_eq {V : Type} [TaggedValue V] {o : Opening V} {columns : List (Array V)}
    {k i : Nat} (h : o.Of columns k i) {values : List V}
    (hvalues : columns.map (·[i]?) = values.map some) : o.values = values := by
  refine List.map_injective_iff.mpr (Option.some_injective V) (Eq.trans ?_ hvalues)
  rw [← List.forall₂_eq_eq_eq, List.forall₂_map_left_iff, List.forall₂_map_right_iff]
  exact h.values.flip.imp fun _ _ h => h.symm

/-- The codewords of all tables are those of columns that are extended to `wide`. -/
structure ExtendedTo {κ : Table → Type} [∀ t, ColumnSet (κ t)] {V : Type} [ExtensionField V]
    [LawfulExtension V] (codes : PerTable fun t => LowDegree (κ t) V) (wide : Domain) : Prop where
  columns (t : Table) : ∃ coefficients trace,
    codes.get t = .of ColumnSet.all coefficients trace wide

namespace ExtendedTo

variable {κ : Table → Type} [∀ t, ColumnSet (κ t)] [∀ t, DecidableEq (κ t)] {V W : Type}
  [ExtensionField V] [LawfulExtension V] {codes : PerTable fun t => LowDegree (κ t) V}
  {wide : Domain} (h : ExtendedTo codes wide) (tag : V → W)

include h

theorem codewords_map {i : Nat} (hi : i < wide.size)
    (hall : ∀ t, ∀ c : κ t, c ∈ (ColumnSet.all : List (κ t))) :
    (Prover.codewords tag codes).map (·[i]?) =
      (columnRow fun t c => tag (((codes.get t).codewords.column c).getD i 0)).map some := by
  rw [Prover.codewords, columnRow, List.map_flatMap, List.map_flatMap]
  refine congrArg (List.flatMap · Table.all) (funext fun t => ?_)
  obtain ⟨coefficients, trace, hcode⟩ := h.columns t
  have hcolumns : (LowDegree.of ColumnSet.all coefficients trace wide).codewords.columns =
      ColumnSet.all.map fun c => (Fourier.values (poly (coefficients c).toList) wide).toArray := rfl
  rw [hcode, hcolumns, List.map_map, List.map_map, List.map_map]
  refine List.map_congr_left fun c _ => ?_
  have hentry := LowDegree.getD_codewords_of coefficients trace wide (hall t c) hi 0
  simp only [Function.comp_apply, hentry]
  simp [Fourier.values, hi]

omit [∀ t, DecidableEq (κ t)] in
/-- All columns have as many values as the domain has points. -/
theorem size_codewords : ∀ column ∈ Prover.codewords tag codes, column.size = 2 ^ wide.logSize := by
  intro column hcolumn
  obtain ⟨t, -, ht⟩ := List.mem_flatMap.mp hcolumn
  obtain ⟨coefficients, trace, hcode⟩ := h.columns t
  rw [hcode] at ht
  obtain ⟨_, hvalues, rfl⟩ := List.mem_map.mp ht
  obtain ⟨c, -, rfl⟩ := List.mem_map.mp hvalues
  simp [Domain.size_eq]

end ExtendedTo

namespace Verifier

variable {F : Type} [ExtensionField F] [LawfulExtension F] (H : Hash)
  (tables : PerTable fun t => TableCode t F) (wide : Domain)

/-- What a verifier can have of the trace at a position. -/
structure Opened (baseRoot extensionRoot : ByteArray) (i : Nat)
    (base extension : Opening (Tagged F)) : Prop where
  base_index : base.index = i
  extension_index : extension.index = i
  base_check (what : String) : base.check H baseRoot .fp what = .ok ()
  extension_check (what : String) : extension.check H extensionRoot .fx what = .ok ()
  row (t : Table) : rowOf (base.values.map Tagged.lift) (extension.values.map Tagged.lift) t =
    .ok fun k => ((tables.get t).column k).eval (ofBase (wide.element i))

/-- Commitments to the columns of all tables, extended to the domain. -/
structure TraceCommitted (base extension : Commitment (Tagged F)) : Prop where
  base : base.Opens H (Prover.codewords Tagged.fp (PerTable.ofFn fun t => (tables.get t).base))
    wide.logSize
  extension : extension.Opens H
    (Prover.codewords Tagged.fx (PerTable.ofFn fun t => (tables.get t).extension)) wide.logSize
  baseCode : ExtendedTo (PerTable.ofFn fun t => (tables.get t).base) wide
  extensionCode : ExtendedTo (PerTable.ofFn fun t => (tables.get t).extension) wide
  value (t : Table) (k : t.Column) (i : Nat) (hi : i < wide.size) :
    (tables.get t).value i k = ((tables.get t).column k).eval (ofBase (wide.element i))

variable {H tables wide} {base extension : Commitment (Tagged F)}

/-- Every position is opened, and what is opened is read back. -/
theorem TraceCommitted.exists_opened (h : TraceCommitted H tables wide base extension) {i : Nat}
    (hi : i < wide.size) :
    ∃ b e, base.openAt i = .ok b ∧ extension.openAt i = .ok e ∧
      (∀ (T : ByteArray → Prop) (E : Error → ProofStream → Prop), Replays T E
        (ProofStream.push H (.opening b)) (ProofStream.pullOpening H F baseWidth wide.size)
        fun _ o => o = b) ∧
      (∀ (T : ByteArray → Prop) (E : Error → ProofStream → Prop), Replays T E
        (ProofStream.push H (.opening e)) (ProofStream.pullOpening H F extensionWidth wide.size)
        fun _ o => o = e) ∧
      Opened H tables wide base.root extension.root i b e := by
  obtain ⟨b, hb, hbOf, hbCheck⟩ := h.base.opened i hi
  obtain ⟨e, he, heOf, heCheck⟩ := h.extension.opened i hi
  have hbValues := hbOf.values_eq (h.baseCode.codewords_map Tagged.fp hi fun t => Table.mem_base)
  have heValues := heOf.values_eq (h.extensionCode.codewords_map Tagged.fx hi fun t => Table.mem_ext)
  refine ⟨b, e, hb, he, fun T E => ?_, fun T E => ?_, hbOf.index, heOf.index, fun what => ?_,
    fun what => ?_, fun t => ?_⟩
  · refine ProofStream.replays_opening_of H hbOf hi ?_ fun h => absurd h (by decide)
    rw [hbValues, length_columnRow_base]
  · refine ProofStream.replays_opening_of H heOf hi ?_ fun h => absurd h (by decide)
    rw [heValues, length_columnRow_ext]
  · refine hbCheck .fp what fun v hv => ?_
    rw [hbValues] at hv
    obtain ⟨t, c, rfl⟩ := mem_columnRow _ hv
    rfl
  · refine heCheck .fx what fun v hv => ?_
    rw [heValues] at hv
    obtain ⟨t, c, rfl⟩ := mem_columnRow _ hv
    rfl
  · rw [hbValues, heValues, map_columnRow, map_columnRow, rowOf_columnRow]
    refine congrArg Except.ok (funext fun k => ?_)
    rw [← h.value t k i hi]
    cases k with
    | base c =>
      simp only [PerTable.get_ofFn]
      rfl
    | ext c =>
      simp only [PerTable.get_ofFn]
      rfl

end Verifier

end TapeStark
