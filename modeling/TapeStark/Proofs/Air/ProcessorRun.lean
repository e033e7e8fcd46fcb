import Mathlib
import TapeStark.Proofs.Air.Columns
import TapeStark.Proofs.Air.Evaluation
import TapeStark.Proofs.Air.Extension
import TapeStark.Proofs.Air.Processor
import TapeStark.Proofs.Trace.Padded

/-! The padded processor table of a run, with the bytes that the run reads and writes. -/

namespace TapeStark

/-! The bytes that a run has read and written before each of its cycles, and the columns that fold
them. -/

section Streams

open Simulator ExtensionField

def byteCells (bytes : ByteArray) : List Fp := bytes.data.toList.map fun b => .ofNat b.toNat

theorem length_byteCells (bytes : ByteArray) : (byteCells bytes).length = bytes.size := by
  rw [byteCells, List.length_map, Array.length_toList]
  rfl

theorem byteCells_push (bytes : ByteArray) (b : UInt8) :
    byteCells (bytes.push b) = byteCells bytes ++ [.ofNat b.toNat] := by
  rw [byteCells, ByteArray.data_push, Array.toList_push, List.map_append, List.map_singleton]
  rfl

theorem byteCells_take (bytes : ByteArray) (n : Nat) :
    byteCells (bytes.extract 0 n) = (byteCells bytes).take n := by
  simp [byteCells, List.map_take]

theorem evaluateBytes_eq {F : Type} [ExtensionField F] (bytes : ByteArray) (x : F) :
    evaluateBytes bytes x = horner (byteCells bytes) x := by
  rw [evaluateBytes, horner, byteCells, List.foldl_map]
  rfl

namespace Run

variable {program : Program} {input : ByteArray} (r : Run program input)

theorem input_state (k : Nat) : (r.state k).memory.input = input := by
  induction k with
  | zero => rw [r.state_zero]; rfl
  | succ k ih =>
    cases r.effect k with
    | halted _ _ _ _ memory => rw [memory, ih]
    | opening _ _ _ memory => rw [memory, ih]
    | closing _ _ _ memory => rw [memory, ih]
    | op a _ _ _ memory => rw [memory.input, ih]

theorem flag_row (k : Nat) (i : Instruction) :
    (r.row k).flag i = if (r.state k).word program = i.code then 1 else 0 := rfl

theorem flag_row_eq_zero {k : Nat} {i j : Instruction}
    (hw : (r.state k).word program = i.code) (hij : i ≠ j) : (r.row k).flag j = 0 := by
  rw [flag_row, if_neg]
  rw [hw]
  exact fun e => hij (Instruction.code_injective e)

theorem flag_row_eq_one {k : Nat} {i : Instruction} (hw : (r.state k).word program = i.code) :
    (r.row k).flag i = 1 := by
  rw [flag_row, if_pos hw]

theorem flag_row_of_halted {k : Nat} (hw : (r.state k).word program = 0) (i : Instruction) :
    (r.row k).flag i = 0 := by
  rw [flag_row, if_neg]
  rw [hw]
  exact (Instruction.code_ne_zero i).symm

theorem mv_row (k : Nat) : (r.row k).mv = (r.state k).memory.cell := rfl

/-- What a cycle does to the memory, by the flag of one operation. -/
theorem applied_cases (k : Nat) (a : Op) :
    ((r.row k).flag (.op a) = 0 ∧ ((r.state (k + 1)).memory = (r.state k).memory ∨
        ∃ b, b ≠ a ∧ (r.state k).memory.Applied b (r.state (k + 1)).memory)) ∨
      ((r.row k).flag (.op a) ≠ 0 ∧ (r.state k).memory.Applied a (r.state (k + 1)).memory) := by
  cases r.effect k with
  | halted _ word _ _ memory => exact .inl ⟨r.flag_row_of_halted word _, .inl memory⟩
  | opening _ word _ memory => exact .inl ⟨r.flag_row_eq_zero word nofun, .inl memory⟩
  | closing _ word _ memory => exact .inl ⟨r.flag_row_eq_zero word nofun, .inl memory⟩
  | op b _ word _ memory =>
    by_cases hb : b = a
    · subst hb
      exact .inr ⟨by rw [r.flag_row_eq_one word]; exact one_ne_zero, memory⟩
    · exact .inl ⟨r.flag_row_eq_zero word (by simpa using hb), .inr ⟨b, hb, memory⟩⟩

def bytesRead (k : Nat) : List Fp := (byteCells input).take (r.state k).memory.consumed

def bytesWritten (k : Nat) : List Fp := byteCells (r.state k).memory.output

/-- A list that starts empty and takes in a cell at every cycle that executes the instruction. -/
structure Collects (i : Instruction) (cell : ProcessorRow → ProcessorRow → Fp)
    (bytes : Nat → List Fp) : Prop where
  start : bytes 0 = []
  step (k : Nat) : bytes (k + 1) =
    if (r.row k).flag i = 0 then bytes k else bytes k ++ [cell (r.row k) (r.row (k + 1))]

/-- A read takes in the cell that it leaves. -/
theorem collects_read : r.Collects (.op .read) (fun _ row => row.mv) r.bytesRead where
  start := by
    rw [bytesRead, r.state_zero]
    rfl
  step k := by
    rcases r.applied_cases k .read with ⟨hflag, hkept⟩ | ⟨hflag, happlied⟩
    · rw [if_pos hflag, bytesRead, bytesRead]
      rcases hkept with hmemory | ⟨b, hb, happlied⟩
      · rw [hmemory]
      · rw [(happlied.consumed.resolve_right fun h => hb h.1).2]
    · obtain ⟨-, b, hb, hconsumed, hcell⟩ := happlied.consumed.resolve_left fun h => h.1 rfl
      rw [r.input_state] at hb
      obtain ⟨hlt, hget⟩ := getElem?_eq_some_iff.mp hb
      rw [if_neg hflag, bytesRead, hconsumed, bytesRead, mv_row, hcell,
        List.take_succ_eq_append_getElem (by rw [length_byteCells]; exact hlt)]
      congr 2
      simp only [byteCells, List.getElem_map, Array.getElem_toList]
      rw [← hget]
      rfl

/-- A write takes in the cell that it finds. -/
theorem collects_write : r.Collects (.op .write) (fun row _ => row.mv) r.bytesWritten where
  start := by
    rw [bytesWritten, r.state_zero]
    rfl
  step k := by
    rcases r.applied_cases k .write with ⟨hflag, hkept⟩ | ⟨hflag, happlied⟩
    · rw [if_pos hflag, bytesWritten, bytesWritten]
      rcases hkept with hmemory | ⟨b, hb, happlied⟩
      · rw [hmemory]
      · rw [(happlied.output.resolve_right fun h => hb h.1).2]
    · obtain ⟨-, hv, houtput⟩ := happlied.output.resolve_left fun h => h.1 rfl
      rw [if_neg hflag, bytesWritten, houtput, byteCells_push, bytesWritten, mv_row]
      congr 2
      apply Fp.ext
      rw [UInt8.toNat_ofNat', Nat.mod_eq_of_lt (by omega),
        Fp.val_ofNat_of_lt (r.state k).memory.cell.isLt]

theorem bytesRead_of_le {k : Nat} (h : r.length ≤ k) :
    r.bytesRead k = byteCells r.claim.input := by
  obtain ⟨j, rfl⟩ := Nat.exists_eq_add_of_le h
  rw [bytesRead, r.state_add, claim, Trace.claimOf, r.input_state, byteCells_take]

theorem bytesWritten_of_le {k : Nat} (h : r.length ≤ k) :
    r.bytesWritten k = byteCells r.claim.output := by
  obtain ⟨j, rfl⟩ := Nat.exists_eq_add_of_le h
  rw [bytesWritten, r.state_add]
  rfl

namespace Collects

variable {r} {i : Instruction} {cell : ProcessorRow → ProcessorRow → Fp} {bytes : Nat → List Fp}
  (h : r.Collects i cell bytes)

include h

theorem length_le (k : Nat) : (bytes k).length ≤ k := by
  induction k with
  | zero => rw [h.start, List.length_nil]
  | succ k ih =>
    rw [h.step]
    split
    · omega
    · rw [List.length_append, List.length_singleton]
      omega

/-- The evaluation column of the padded rows folds what has been taken in. -/
theorem getD_evaluation {F : Type} [ExtensionField F] (x : F) {k : Nat} (hk : k < r.height) :
    (Witness.evaluation i x cell ((List.range r.height).map r.row)).getD k 0 =
      horner (bytes k) x := by
  have start : (0 : F) = horner (bytes 0) x := by
    rw [h.start]
    rfl
  rw [Witness.evaluation, start]
  refine getD_scanRows _ (A := fun k => horner (bytes k) x) _ (fun j _ => ?_) k (by simpa using hk)
  simp only [List.getElem_map, List.getElem_range, h.step]
  split
  · rfl
  · rw [horner_append]

end Collects

end Run

end Streams

/-! The padded processor table of a run satisfies the processor constraints. -/

section ProcessorRun

open Simulator ExtensionField Air.Processor

namespace Run

variable {program : Program} {input : ByteArray} (r : Run program input)

theorem ip_row (k : Nat) : (r.row k).ip = ((r.state k).ip : Fp) := (Fp.intCast_eq_ofInt _).symm

theorem ci_row (k : Nat) : (r.row k).ci = ((r.state k).word program : Fp) :=
  (Fp.intCast_eq_ofInt _).symm

theorem ni_row (k : Nat) : (r.row k).ni = (program.following (r.state k).ip : Fp) :=
  (Fp.intCast_eq_ofInt _).symm

theorem mp_row (k : Nat) : (r.row k).mp = ((r.state k).memory.head : Fp) :=
  (Fp.natCast_eq_ofNat _).symm

theorem clk_row (k : Nat) : (r.row k).clk = (k : Fp) :=
  (r.row_clk k).trans (Fp.natCast_eq_ofNat k).symm

variable {F : Type} [ExtensionField F] [LawfulExtension F]

/-- The cells of a cycle, with any entries in the extension columns. -/
def cells (e : ProcessorExt → F) (k : Nat) : Column ProcessorBase ProcessorExt → F :=
  Table.Row.cells (t := .processor) (r.row k) e

section Cells

variable (e : ProcessorExt → F) (k : Nat)

@[simp] theorem cells_ip : r.cells e k (.base .ip) = (r.state k).ip :=
  (congrArg ofBase (r.ip_row k)).trans (ofBase_intCast _)

@[simp] theorem cells_ci : r.cells e k (.base .ci) = (r.state k).word program :=
  (congrArg ofBase (r.ci_row k)).trans (ofBase_intCast _)

@[simp] theorem cells_ni : r.cells e k (.base .ni) = program.following (r.state k).ip :=
  (congrArg ofBase (r.ni_row k)).trans (ofBase_intCast _)

@[simp] theorem cells_mp : r.cells e k (.base .mp) = (r.state k).memory.head :=
  (congrArg ofBase (r.mp_row k)).trans (ofBase_natCast _)

@[simp] theorem cells_clk : r.cells e k (.base .clk) = k :=
  (congrArg ofBase (r.clk_row k)).trans (ofBase_natCast _)

omit [LawfulExtension F] in
@[simp] theorem cells_mv : r.cells e k (.base .mv) = ofBase (r.state k).memory.cell := rfl

@[simp] theorem cells_inv : r.cells e k (.base .inv) = (ofBase (r.state k).memory.cell)⁻¹ :=
  ofBase_inv _

/-- The selectors of a row are those of its word. -/
theorem selects_of_word {i : Option Instruction} (hw : (r.state k).word program = word i) :
    Selects (r.cells e k) i := by
  intro j
  change ofBase ((r.row k).flag j) = _
  cases i with
  | none => rw [r.flag_row_of_halted hw, if_neg (by simp), ofBase_zero]
  | some i =>
    by_cases hj : i = j
    · rw [r.flag_row_eq_one (hj ▸ hw), if_pos (congrArg some hj), ofBase_one]
    · rw [r.flag_row_eq_zero hw hj, if_neg (fun h => hj (Option.some.inj h)), ofBase_zero]

end Cells

section Step

variable (e e' : ProcessorExt → F) (k : Nat)

/-- Two consecutive cycles are a step of the machine. -/
theorem stepped : Stepped (r.cells e k) (r.cells e' (k + 1)) := by
  obtain ⟨i, hword, hprescribed⟩ := prescribed_of_effect (F := F) (r.effect k)
  constructor
  · rw [cells_clk, cells_clk, Nat.cast_succ]
  · rw [cells_mv, cells_inv, InverseOf]
    split
    · rename_i hzero
      rw [hzero, inv_zero]
    · rename_i hne
      exact mul_inv_cancel₀ hne
  · refine ⟨i, ?_, r.selects_of_word e k hword, ?_⟩
    · rw [cells_ci, hword, Int.cast_natCast]
    · simpa only [cells_ip, cells_ni, cells_mp, cells_mv] using hprescribed

/-- The rows of two consecutive cycles satisfy every relation on base columns. -/
theorem rowConstraints_run (ch : Challenges F) : ∀ c ∈ rowConstraints,
    c.eval (r.cells e k) (r.cells e' (k + 1)) ch = 0 :=
  (rowConstraints_iff _ _ ch).mpr (r.stepped e e' k)

end Step

section Table

variable (ch : Challenges F) {t : Trace} (h : r.Padded t)

def processorExt (k : Nat) (c : ProcessorExt) : F :=
  (Witness.processor ch ((List.range r.height).map r.row) c).getD k 0

omit [LawfulExtension F] in
include h in
theorem cell_processor {k : Nat} (hk : k < r.height) :
    (Table.columns ch .processor t.processor).cell k = r.cells (r.processorExt ch k) k := by
  rw [Table.cell_columns ch (t := .processor) t.processor (by rw [h.processor]; simpa using hk)]
  simp only [h.processor, List.getElem_map, List.getElem_range]
  rfl

omit [LawfulExtension F] in
include h in
/-- The selectors of a cycle are zero or one. -/
theorem regular_processor : Table.Regular .processor t.processor := by
  intro row hrow i
  rw [h.processor] at hrow
  obtain ⟨k, -, rfl⟩ := List.mem_map.mp hrow
  rw [r.flag_row]
  split
  · exact .inr rfl
  · exact .inl rfl

omit [ExtensionField F] [LawfulExtension F] in
include h in
theorem length_processor : t.processor.length = r.height := by
  rw [h.processor, List.length_map, List.length_range]

omit [ExtensionField F] [LawfulExtension F] in
include h in
theorem length_processor_pos : 0 < t.processor.length := by
  rw [r.length_processor h]
  exact Nat.zero_lt_of_lt r.lt_height

omit [LawfulExtension F] in
include h in
theorem processor_satisfiesPoint {p : PointConstraint (Table.Column .processor) F} {k : Nat}
    (hrow : p.row = k) (hk : k < r.height) (hp : p.eval (r.cells (r.processorExt ch k) k) = 0) :
    (Table.columns ch .processor t.processor).SatisfiesPoint p := by
  rw [TableColumns.SatisfiesPoint, PointConstraint.holds_iff hrow
    (by rwa [TableColumns.height_of_base rfl, r.length_processor h]), r.cell_processor ch h hk]
  exact hp

include h in
theorem processor_transitions : ∀ c ∈ Table.transitions .processor,
    (Table.columns ch .processor t.processor).SatisfiesTransition ch c := by
  refine Table.columns_satisfyTransitions ch (r.length_processor_pos h) (r.regular_processor h) ?_
  intro c hc i hi
  have hmem : c.expr ∈ rowConstraints := List.mem_map_of_mem hc
  rw [TableColumns.height_of_base rfl, r.length_processor h] at hi
  rw [r.cell_processor ch h (by omega), r.cell_processor ch h hi]
  exact r.rowConstraints_run _ _ i ch c.expr hmem

omit [LawfulExtension F] in
/-- The last entries of the evaluations fold the bytes of the claim. -/
theorem processorExt_last :
    r.processorExt ch (r.height - 1) .ipo = evaluateBytes r.claim.input ch.gamma ∧
      r.processorExt ch (r.height - 1) .opo = evaluateBytes r.claim.output ch.delta := by
  have hlt := r.lt_height
  rw [evaluateBytes_eq, evaluateBytes_eq, ← r.bytesRead_of_le (k := r.height - 1) (by omega),
    ← r.bytesWritten_of_le (k := r.height - 1) (by omega)]
  exact ⟨r.collects_read.getD_evaluation _ (by omega),
    r.collects_write.getD_evaluation _ (by omega)⟩

include h in
theorem processor_boundary : ∀ p ∈ Table.boundary ch .processor,
    (Table.columns ch .processor t.processor).SatisfiesPoint p := by
  have hpos := r.length_processor_pos h
  refine Table.columns_satisfyBoundary ch hpos (r.regular_processor h) ?_
  have first (p : PointConstraint (Table.Column .processor) F) (hrow : p.row = 0)
      (hp : p.eval (r.cells (r.processorExt ch 0) 0) = 0) :
      (Table.columns ch .processor t.processor).SatisfiesPoint p :=
    r.processor_satisfiesPoint ch h hrow (Nat.zero_lt_of_lt r.lt_height) hp
  change ∀ p ∈ (boundary ch).take 4, _
  simp only [boundary, List.take_succ_cons, List.take_zero, List.forall_mem_cons,
    List.not_mem_nil, false_implies, implies_true, and_true]
  refine ⟨first _ rfl ?_, first _ rfl ?_, first _ rfl ?_, first _ rfl ?_⟩
  all_goals
    simp only [PointConstraint.eval, List.foldl_cons, List.foldl_nil, neg_zero, zero_add, one_mul]
  · rw [cells_clk, Nat.cast_zero]
  · rw [cells_ip, r.state_zero]
    exact Int.cast_zero
  · rw [cells_mp, r.state_zero]
    exact Nat.cast_zero
  · rw [cells_mv, r.state_zero]
    exact ofBase_zero

include h in
theorem processor_terminal (terminals : Terminals F)
    (hpi : terminals.processorInstruction = r.processorExt ch (r.height - 1) .ipa)
    (hpm : terminals.processorMemory = r.processorExt ch (r.height - 1) .mpa)
    (hinput : terminals.inputEvaluation = evaluateBytes r.claim.input ch.gamma)
    (houtput : terminals.outputEvaluation = evaluateBytes r.claim.output ch.delta) :
    ∀ p ∈ terminal terminals r.height,
      (Table.columns ch .processor t.processor).SatisfiesPoint p := by
  have hlt := r.lt_height
  obtain ⟨hinputEnd, houtputEnd⟩ := r.processorExt_last ch
  have last (p : PointConstraint (Table.Column .processor) F) (hrow : p.row = r.height - 1)
      (hp : p.eval (r.cells (r.processorExt ch (r.height - 1)) (r.height - 1)) = 0) :
      (Table.columns ch .processor t.processor).SatisfiesPoint p :=
    r.processor_satisfiesPoint ch h (k := r.height - 1) (by omega) (by omega) hp
  simp only [terminal, List.forall_mem_cons, List.not_mem_nil, false_implies, implies_true,
    and_true]
  refine ⟨last _ rfl ?_, last _ rfl ?_, last _ rfl ?_, last _ rfl ?_, last _ rfl ?_⟩
  all_goals
    simp only [PointConstraint.eval, List.foldl_cons, List.foldl_nil, neg_zero, zero_add, one_mul]
  · rw [cells_ci, Simulator.word_of_le (r.behind (by omega)), Int.cast_zero]
  · exact neg_add_eq_zero.mpr hpi
  · exact neg_add_eq_zero.mpr hpm
  · exact neg_add_eq_zero.mpr (hinput.trans hinputEnd.symm)
  · exact neg_add_eq_zero.mpr (houtput.trans houtputEnd.symm)

end Table

end Run

end ProcessorRun

end TapeStark
