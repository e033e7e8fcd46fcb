import Mathlib
import TapeStark.Proofs.Air.Columns
import TapeStark.Proofs.Machine.Run

/-! The processor constraints, solved. -/

namespace TapeStark.Air.Processor

open ExtensionField

/-! What the processor constraints say once it is known which instruction a row selects. -/

section Processor

variable {F : Type} [ExtensionField F]

/-- The relations between two rows that do not concern the extension columns. -/
def rowConstraints : List Cell :=
  [clock, decode] ++ Instruction.all.map boolean ++
  [singleInstruction, instructionPointer, memoryPointer, memoryValue, inverseOfValue,
    inverseOfInverse]

/-- The selectors of the row name this instruction, or none. -/
def Selects (cur : Column ProcessorBase ProcessorExt → F) (i : Option Instruction) : Prop :=
  ∀ j, cur (.base (.flag j)) = if i = some j then 1 else 0

variable [LawfulExtension F] (cur next : Column ProcessorBase ProcessorExt → F) (ch : Challenges F)

theorem eval_sum (xs : List Cell) :
    (Expr.sum xs).eval cur next ch = (xs.map fun x => x.eval cur next ch).sum := by
  have fold (acc : Cell) : (xs.foldl (· + ·) acc).eval cur next ch =
      acc.eval cur next ch + (xs.map fun x => x.eval cur next ch).sum := by
    induction xs generalizing acc with
    | nil => simp
    | cons x xs ih =>
      rw [List.foldl_cons, ih, Expr.eval_add, List.map_cons, List.sum_cons, add_assoc]
  rw [Expr.sum, fold, Expr.eval_zero, zero_add]

theorem eval_clock :
    clock.eval cur next ch = next (.base .clk) - cur (.base .clk) - 1 := by
  simp [clock, Expr.base, Expr.base']

theorem eval_cellIsZero :
    cellIsZero.eval cur next ch = 1 - cur (.base .mv) * cur (.base .inv) := by
  simp [cellIsZero, Expr.base]

theorem eval_forward : forward.eval cur next ch =
    cur (.base .mv) * (next (.base .ip) - cur (.base .ip) - 2) +
      (1 - cur (.base .mv) * cur (.base .inv)) * (next (.base .ip) - cur (.base .ni)) := by
  simp [forward, skip, jump, pointerStep, eval_cellIsZero, Expr.base, Expr.base']

theorem eval_back : back.eval cur next ch =
    (1 - cur (.base .mv) * cur (.base .inv)) * (next (.base .ip) - cur (.base .ip) - 2) +
      cur (.base .mv) * (next (.base .ip) - cur (.base .ni)) := by
  simp [back, skip, jump, pointerStep, eval_cellIsZero, Expr.base, Expr.base']

theorem eval_inverseOfValue : inverseOfValue.eval cur next ch =
    cur (.base .mv) * (1 - cur (.base .mv) * cur (.base .inv)) := by
  simp [inverseOfValue, eval_cellIsZero, Expr.base]

theorem eval_inverseOfInverse : inverseOfInverse.eval cur next ch =
    cur (.base .inv) * (1 - cur (.base .mv) * cur (.base .inv)) := by
  simp [inverseOfInverse, eval_cellIsZero, Expr.base]

theorem eval_evaluation (column : ProcessorExt) (i : Instruction) (challenge : Challenge)
    (byte : Cell) : (evaluation column i challenge byte).eval cur next ch =
      next (.ext column) - cur (.ext column) - cur (.base (.flag i)) *
        (cur (.ext column) * ch.get challenge + byte.eval cur next ch - cur (.ext column)) := by
  simp only [evaluation, growth, flag, Expr.base, Expr.ext, Expr.ext', Expr.eval_sub,
    Expr.eval_mul, Expr.eval_add, Expr.eval_cur, Expr.eval_next, Expr.eval_challenge,
    Expr.eval_one]
  ring

section Selected

variable {cur} {i : Option Instruction} (h : Selects cur i)

include h

omit [LawfulExtension F] in
theorem eval_flag (j : Instruction) :
    (flag j).eval cur next ch = if i = some j then 1 else 0 := h j

/-- Selectors of other instructions than those listed add nothing. -/
theorem eval_flagSum {is : List Instruction} (hnodup : is.Nodup) :
    (flagSum is).eval cur next ch = if ∃ j ∈ is, i = some j then 1 else 0 := by
  rw [flagSum, eval_sum, List.map_map]
  have hterm : (is.map ((fun x => x.eval cur next ch) ∘ flag)) =
      is.map fun j => if i = some j then (1 : F) else 0 :=
    List.map_congr_left fun j _ => eval_flag next ch h j
  rw [hterm]
  induction is with
  | nil => simp
  | cons j is ih =>
    rw [List.nodup_cons] at hnodup
    rw [List.map_cons, List.sum_cons, ih hnodup.2 (List.map_congr_left fun j _ => h j)]
    by_cases hj : i = some j
    · have hnot : ¬ ∃ j' ∈ is, i = some j' := by
        rintro ⟨j', hj', hi⟩
        rw [hj] at hi
        exact hnodup.1 (Option.some.inj hi ▸ hj')
      rw [if_pos hj, if_neg hnot, if_pos ⟨j, List.mem_cons_self .., hj⟩, add_zero]
    · simp [hj]

theorem eval_straight : straight.eval cur next ch = match i with
    | some (.op _) => 1
    | _ => 0 := by
  rw [straight, eval_flagSum next ch h (by decide)]
  cases i with
  | none => simp
  | some j =>
    cases j with
    | opening => simp
    | closing => simp
    | op o => cases o <;> simp

theorem eval_flagSum_all :
    (flagSum Instruction.all).eval cur next ch = if i = none then 0 else 1 := by
  rw [eval_flagSum next ch h (by decide)]
  cases i with
  | none => simp
  | some j => rw [if_pos ⟨j, Instruction.mem_all j, rfl⟩, if_neg (by simp)]

theorem eval_idle : idle.eval cur next ch = if i = none then 1 else 0 := by
  rw [idle, Expr.eval_sub, Expr.eval_one, eval_flagSum_all next ch h]
  split <;> simp

theorem eval_boolean (j : Instruction) : (boolean j).eval cur next ch = 0 := by
  rw [boolean, Expr.eval_mul, Expr.eval_sub, Expr.eval_one, eval_flag next ch h]
  split <;> simp

theorem eval_singleInstruction : singleInstruction.eval cur next ch = 0 := by
  rw [singleInstruction, Expr.eval_mul, Expr.eval_sub, Expr.eval_one, eval_flagSum_all next ch h]
  split <;> simp

/-- The word is the code of the selected instruction. -/
theorem eval_decode :
    decode.eval cur next ch = cur (.base .ci) - (i.map fun j => (j.code : F)).getD 0 := by
  have fold (is : List Instruction) (acc : Cell) :
      (is.foldl (fun acc j => acc - .const j.code * flag j) acc).eval cur next ch =
        acc.eval cur next ch - (is.map fun j => if i = some j then (j.code : F) else 0).sum := by
    induction is generalizing acc with
    | nil => simp
    | cons j is ih =>
      rw [List.foldl_cons, ih, Expr.eval_sub, Expr.eval_mul, Expr.eval_const,
        eval_flag next ch h, List.map_cons, List.sum_cons, sub_sub]
      split <;> simp
  rw [decode, fold]
  congr 1
  cases i with
  | none => simp
  | some j =>
    cases j with
    | opening => simp [Instruction.all]
    | closing => simp [Instruction.all]
    | op o => cases o <;> simp [Instruction.all]

/-- Where the next instruction stands. -/
theorem eval_instructionPointer : instructionPointer.eval cur next ch =
    match i with
    | none => next (.base .ip) - cur (.base .ip)
    | some .opening => forward.eval cur next ch
    | some .closing => back.eval cur next ch
    | some (.op _) => next (.base .ip) - cur (.base .ip) - 1 := by
  simp only [instructionPointer, Expr.eval_add, Expr.eval_mul, eval_flag next ch h,
    eval_straight next ch h, eval_idle next ch h, pointerStep, Expr.eval_sub, Expr.eval_one,
    Expr.base, Expr.base', Expr.eval_cur, Expr.eval_next]
  cases i with
  | none => simp
  | some j => cases j <;> simp

omit [LawfulExtension F] in
/-- How far the head moves. -/
theorem eval_memoryPointer : memoryPointer.eval cur next ch =
    next (.base .mp) - cur (.base .mp) +
      (if i = some (.op .left) then 1 else 0) - (if i = some (.op .right) then 1 else 0) := by
  simp only [memoryPointer, Expr.eval_add, Expr.eval_sub, eval_flag next ch h, Expr.base,
    Expr.base', Expr.eval_cur, Expr.eval_next]

/-- What becomes of the cell. -/
theorem eval_memoryValue : memoryValue.eval cur next ch =
    match i with
    | some (.op .left) | some (.op .right) | some (.op .read) => 0
    | some (.op .inc) => next (.base .mv) - cur (.base .mv) - 1
    | some (.op .dec) => next (.base .mv) - cur (.base .mv) + 1
    | _ => next (.base .mv) - cur (.base .mv) := by
  simp only [memoryValue, keep, Expr.eval_add, Expr.eval_mul, eval_flag next ch h,
    eval_flagSum next ch h (by decide : ([.op .left, .op .right, .op .inc, .op .dec,
      .op .read] : List Instruction).Nodup), valueChange, Expr.eval_sub, Expr.eval_one, Expr.base,
    Expr.base', Expr.eval_cur, Expr.eval_next]
  cases i with
  | none => simp
  | some j =>
    cases j with
    | opening => simp
    | closing => simp
    | op o => cases o <;> simp

end Selected

end Processor

/-! The processor constraints on two rows of any field elements, solved. They hold exactly if the
second row is the first one after a step of the machine: the selectors are those of the word in the
row, and pointer, head and cell are as the instruction prescribes. A step of the simulator follows
the same prescription. -/

section ProcessorStep

/-- The word that stands for an instruction; zero for none, as behind a program. -/
def word (i : Option Instruction) : Nat := (i.map Instruction.code).getD 0

variable {F : Type} [ExtensionField F] [LawfulExtension F]

/-- Where the instruction sends the pointer: a bracket jumps to the address behind it or skips that. -/
def nextPointer (i : Option Instruction) (ip ni mv : F) : F :=
  match i with
  | none => ip
  | some .opening => if mv = 0 then ni else ip + 2
  | some .closing => if mv ≠ 0 then ni else ip + 2
  | some (.op _) => ip + 1

def nextHead (i : Option Instruction) (mp : F) : F :=
  match i with
  | some (.op .left) => mp - 1
  | some (.op .right) => mp + 1
  | _ => mp

/-- What it leaves in the cell under the head; none where that is another cell or comes from the
input. -/
def nextCell (i : Option Instruction) (mv : F) : Option F :=
  match i with
  | some (.op .left) | some (.op .right) | some (.op .read) => none
  | some (.op .inc) => some (mv + 1)
  | some (.op .dec) => some (mv - 1)
  | _ => some mv

/-- What an instruction makes of pointer, head and cell. -/
structure Prescribed (i : Option Instruction) (ip ni mp mv ip' mp' mv' : F) : Prop where
  pointer : ip' = nextPointer i ip ni mv
  head : mp' = nextHead i mp
  cell : ∀ v ∈ nextCell i mv, mv' = v

/-- The inverse column of a cell: its inverse, and zero for zero. -/
def InverseOf (v inv : F) : Prop := if v = 0 then inv = 0 else v * inv = 1

/-- The second row is the first one after a step. -/
structure Stepped (cur next : Column ProcessorBase ProcessorExt → F) : Prop where
  clock : next (.base .clk) = cur (.base .clk) + 1
  inverse : InverseOf (cur (.base .mv)) (cur (.base .inv))
  instruction : ∃ i : Option Instruction, cur (.base .ci) = word i ∧ Selects cur i ∧
    Prescribed i (cur (.base .ip)) (cur (.base .ni)) (cur (.base .mp)) (cur (.base .mv))
      (next (.base .ip)) (next (.base .mp)) (next (.base .mv))

section Selectors

variable {cur next : Column ProcessorBase ProcessorExt → F} {ch : Challenges F}

/-- A sum of selectors counts those that are set. -/
theorem eval_flagSum_count (is : List Instruction)
    (h : ∀ i ∈ is, cur (.base (.flag i)) = 0 ∨ cur (.base (.flag i)) = 1) :
    (flagSum is).eval cur next ch = (is.filter fun i => cur (.base (.flag i)) = 1).length := by
  rw [flagSum, eval_sum, List.map_map]
  induction is with
  | nil => simp
  | cons i is ih =>
    obtain ⟨hi, his⟩ := List.forall_mem_cons.mp h
    rw [List.map_cons, List.sum_cons, ih his, List.filter_cons]
    change cur (.base (.flag i)) + _ = _
    cases hi with
    | inl hzero => simp [hzero]
    | inr hone => simp [hone, add_comm]

/-- Selectors that are zero or one and at most one of them one name an instruction, or none. -/
theorem exists_selects (hboolean : ∀ i, (boolean i).eval cur next ch = 0)
    (hsingle : singleInstruction.eval cur next ch = 0) : ∃ i, Selects cur i := by
  have hflag (i : Instruction) : cur (.base (.flag i)) = 0 ∨ cur (.base (.flag i)) = 1 := by
    have h : cur (.base (.flag i)) * (cur (.base (.flag i)) - 1) = 0 := by
      simpa [boolean, flag, Expr.base] using hboolean i
    exact (mul_eq_zero.mp h).imp_right sub_eq_zero.mp
  let set := Instruction.all.filter fun i => cur (.base (.flag i)) = 1
  have hset (i : Instruction) : i ∈ set ↔ cur (.base (.flag i)) = 1 := by
    simp [set, Instruction.mem_all]
  have hlength : set.length < prime :=
    (List.length_filter_le ..).trans_lt (by decide)
  rw [singleInstruction, Expr.eval_mul, Expr.eval_sub, Expr.eval_one,
    eval_flagSum_count _ fun i _ => hflag i] at hsingle
  cases mul_eq_zero.mp hsingle with
  | inl hzero =>
    have hnone : set = [] := by
      apply List.eq_nil_of_length_eq_zero
      rw [← natCast_inj (F := F) hlength (by decide), Nat.cast_zero]
      exact hzero
    exists none
    intro j
    apply (hflag j).resolve_right
    intro hj
    have := (hset j).mpr hj
    rw [hnone] at this
    cases this
  | inr hone =>
    have hlengthOne : set.length = 1 := by
      rw [← natCast_inj (F := F) hlength (by decide), Nat.cast_one]
      exact sub_eq_zero.mp hone
    obtain ⟨i, hi⟩ := List.length_eq_one_iff.mp hlengthOne
    exists some i
    intro j
    have hj := hset j
    rw [hi, List.mem_singleton] at hj
    split
    · rename_i heq
      exact hj.mp (Option.some.inj heq).symm
    · rename_i hne
      apply (hflag j).resolve_right
      intro h
      exact hne (congrArg some (hj.mpr h).symm)

end Selectors

section Solved

variable {cur next : Column ProcessorBase ProcessorExt → F} {ch : Challenges F}

theorem clock_iff : clock.eval cur next ch = 0 ↔ next (.base .clk) = cur (.base .clk) + 1 := by
  rw [eval_clock, sub_sub, sub_eq_zero]

theorem inverse_iff : inverseOfValue.eval cur next ch = 0 ∧ inverseOfInverse.eval cur next ch = 0 ↔
    InverseOf (cur (.base .mv)) (cur (.base .inv)) := by
  rw [eval_inverseOfValue, eval_inverseOfInverse, InverseOf]
  split
  · rename_i hzero
    simp [hzero]
  · rename_i hne
    constructor
    · rintro ⟨h, -⟩
      exact (sub_eq_zero.mp ((mul_eq_zero.mp h).resolve_left hne)).symm
    · intro h
      simp [h]

/-- What the inverse column is for. -/
theorem cellIsZero_of_inverse {v inv : F} (h : InverseOf v inv) :
    1 - v * inv = if v = 0 then 1 else 0 := by
  unfold InverseOf at h
  split at h
  · rename_i hzero
    simp [hzero]
  · rename_i hne
    simp [h, hne]

variable {i : Option Instruction} (h : Selects cur i)

include h

theorem decode_iff : decode.eval cur next ch = 0 ↔ cur (.base .ci) = word i := by
  rw [eval_decode next ch h, sub_eq_zero]
  cases i with
  | none => simp [word]
  | some j => simp [word]

theorem instructionPointer_iff (hinverse : InverseOf (cur (.base .mv)) (cur (.base .inv))) :
    instructionPointer.eval cur next ch = 0 ↔ next (.base .ip) =
      nextPointer i (cur (.base .ip)) (cur (.base .ni)) (cur (.base .mv)) := by
  rw [eval_instructionPointer next ch h]
  cases i with
  | none => exact sub_eq_zero
  | some j =>
    cases j with
    | opening =>
      simp only [eval_forward, cellIsZero_of_inverse hinverse, nextPointer]
      split
      · rename_i hzero
        simp [hzero, sub_eq_zero]
      · rename_i hne
        simp [hne, sub_eq_zero, sub_sub]
    | closing =>
      simp only [eval_back, cellIsZero_of_inverse hinverse, nextPointer]
      split
      · rename_i hzero
        simp [hzero, sub_eq_zero, sub_sub]
      · rename_i hne
        simp [hne, sub_eq_zero]
    | op a => simp [nextPointer, sub_eq_zero, sub_sub]

theorem memoryPointer_iff : memoryPointer.eval cur next ch = 0 ↔
    next (.base .mp) = nextHead i (cur (.base .mp)) := by
  rw [eval_memoryPointer next ch h]
  cases i with
  | none => simp [nextHead, sub_eq_zero]
  | some j =>
    cases j with
    | opening => simp [nextHead, sub_eq_zero]
    | closing => simp [nextHead, sub_eq_zero]
    | op a =>
      cases a with
      | left => simp [nextHead, sub_add, sub_eq_zero]
      | right => simp [nextHead, sub_sub, sub_eq_zero]
      | _ => simp [nextHead, sub_eq_zero]

theorem memoryValue_iff : memoryValue.eval cur next ch = 0 ↔
    ∀ v ∈ nextCell i (cur (.base .mv)), next (.base .mv) = v := by
  rw [eval_memoryValue next ch h]
  cases i with
  | none => simp [nextCell, sub_eq_zero]
  | some j =>
    cases j with
    | opening => simp [nextCell, sub_eq_zero]
    | closing => simp [nextCell, sub_eq_zero]
    | op a =>
      cases a with
      | inc => simp [nextCell, sub_sub, sub_eq_zero]
      | dec => simp [nextCell, sub_add, sub_eq_zero]
      | _ => simp [nextCell, sub_eq_zero]

end Solved

/-- The constraints on base columns hold of two rows exactly if the machine steps from one to the
other. -/
theorem rowConstraints_iff (cur next : Column ProcessorBase ProcessorExt → F) (ch : Challenges F) :
    (∀ c ∈ rowConstraints, c.eval cur next ch = 0) ↔ Stepped cur next := by
  simp only [rowConstraints, List.cons_append, List.nil_append, List.forall_mem_cons,
    List.forall_mem_append, List.forall_mem_map, List.not_mem_nil, false_implies, implies_true,
    and_true]
  constructor
  · rintro ⟨hclock, hdecode, hboolean, hsingle, hpointer, hhead, hcell, hvalue, hinverse⟩
    obtain ⟨i, hi⟩ := exists_selects (fun i => hboolean i (Instruction.mem_all i)) hsingle
    have hinverse := inverse_iff.mp ⟨hvalue, hinverse⟩
    have hstep : Prescribed i (cur (.base .ip)) (cur (.base .ni)) (cur (.base .mp)) (cur (.base .mv))
        (next (.base .ip)) (next (.base .mp)) (next (.base .mv)) :=
      ⟨(instructionPointer_iff hi hinverse).mp hpointer, (memoryPointer_iff hi).mp hhead,
        (memoryValue_iff hi).mp hcell⟩
    exact ⟨clock_iff.mp hclock, hinverse, i, (decode_iff hi).mp hdecode, hi, hstep⟩
  · rintro ⟨hclock, hinverse, i, hword, hi, hstep⟩
    have hinverses : inverseOfValue.eval cur next ch = 0 ∧ inverseOfInverse.eval cur next ch = 0 :=
      inverse_iff.mpr hinverse
    exact ⟨clock_iff.mpr hclock, (decode_iff hi).mpr hword, fun j _ => eval_boolean next ch hi j,
      eval_singleInstruction next ch hi, (instructionPointer_iff hi hinverse).mpr hstep.pointer,
      (memoryPointer_iff hi).mpr hstep.head, (memoryValue_iff hi).mpr hstep.cell, hinverses⟩

section Machine

open Simulator

variable {program : Program} {s s' : State}

/-- What happens in a cycle of the machine is what its instruction prescribes in the field. -/
theorem prescribed_of_effect (h : Effect program s s') :
    ∃ i : Option Instruction, s.word program = word i ∧
      Prescribed i (s.ip : F) (program.following s.ip) s.memory.head (ofBase s.memory.cell)
        s'.ip s'.memory.head (ofBase s'.memory.cell) := by
  have hzero : (ofBase s.memory.cell : F) = 0 ↔ s.memory.cell = 0 := map_eq_zero (baseHom F)
  cases h with
  | halted _ hword _ hip hmemory =>
    rw [hip, hmemory]
    exact ⟨none, hword, rfl, rfl, by simp [nextCell]⟩
  | opening _ hword hip hmemory =>
    rw [hip, hmemory]
    exists some .opening, hword
    constructor
    · simp [nextPointer, hzero]
    · rfl
    · simp [nextCell]
  | closing _ hword hip hmemory =>
    rw [hip, hmemory]
    exists some .closing, hword
    constructor
    · simp [nextPointer, hzero]
    · rfl
    · simp [nextCell]
  | op a _ hword hip hmemory =>
    rw [hip]
    generalize s'.memory = m' at hmemory
    exists some (.op a), hword
    constructor
    · simp [nextPointer]
    · cases hmemory with
      | left h => simp [nextHead, Nat.cast_sub (Nat.one_le_iff_ne_zero.mpr h)]
      | _ => simp [nextHead]
    · cases hmemory with
      | inc => simp [nextCell, ofBase_add, ofBase_one]
      | dec => simp [nextCell, ofBase_sub, ofBase_one]
      | write => simp [nextCell, Memory.cell]
      | _ => simp [nextCell]

end Machine

def rowNames : List String :=
  ["clock", "decode", "f_open_boolean", "f_close_boolean", "f_left_boolean", "f_right_boolean",
    "f_inc_boolean", "f_dec_boolean", "f_read_boolean", "f_write_boolean", "single_instruction",
    "instruction_pointer", "memory_pointer", "memory_value", "inverse_of_value",
    "inverse_of_inverse"]

theorem transitions_rowNames :
    (transitions.filter fun t => t.name ∈ rowNames).map (·.expr) = rowConstraints := rfl

/-- The named constraints vanish on two rows of arbitrary elements exactly if the second is the first
after a step, and a step of the simulator is one in this sense. -/
theorem transitions_iff_stepped (F : Type) [ExtensionField F] [LawfulExtension F] :
    (∀ (cur next : Column ProcessorBase ProcessorExt → F) (ch : Challenges F),
      (∀ t ∈ transitions, t.name ∈ rowNames → t.expr.eval cur next ch = 0) ↔ Stepped cur next) ∧
    ∀ (program : Program) (s s' : Simulator.State),
      s.ip < program.size → Simulator.step program s = .ok s' →
        s'.clk = s.clk + 1 ∧ ∃ i : Option Instruction, s.word program = word i ∧
          Prescribed i (s.ip : F) (program.following s.ip) s.memory.head (ofBase s.memory.cell)
            s'.ip s'.memory.head (ofBase s'.memory.cell) := by
  constructor
  · intro cur next ch
    rw [← rowConstraints_iff cur next ch, ← transitions_rowNames]
    simp only [List.forall_mem_map, List.mem_filter, decide_eq_true_eq, and_imp]
  · intro program s s' hinside hstep
    obtain ⟨heffect, hclk, -⟩ := Simulator.cycle_eq_ok ((if_pos hinside).trans hstep)
    exact ⟨hclk, prescribed_of_effect heffect⟩

/-- A bracket over a zero cell jumps to an address outside the base field, and an increment counts
up a blank cell. -/
theorem transitions_iff_stepped_of_jump :
    (∃ (cur next : Column ProcessorBase ProcessorExt → Fp3) (ch : Challenges Fp3),
      cur (.base .ci) = (Instruction.code .opening : Fp3) ∧ cur (.base .ni) = ⟨0, 1, 0⟩ ∧
        next (.base .ip) = ⟨0, 1, 0⟩ ∧ Stepped cur next ∧
        ∀ t ∈ transitions, t.name ∈ rowNames → t.expr.eval cur next ch = 0) ∧
    ∃ (program : Program) (s s' : Simulator.State), s.ip < program.size ∧
      Simulator.step program s = .ok s' ∧ ∃ i : Option Instruction, s.word program = word i ∧
        Prescribed i (s.ip : Fp3) (program.following s.ip) s.memory.head (ofBase s.memory.cell)
          s'.ip s'.memory.head (ofBase s'.memory.cell) := by
  let cur : Column ProcessorBase ProcessorExt → Fp3
    | .base .ci => (Instruction.code .opening : Fp3)
    | .base .ni => ⟨0, 1, 0⟩
    | .base (.flag j) => if some .opening = some j then 1 else 0
    | _ => 0
  let next : Column ProcessorBase ProcessorExt → Fp3
    | .base .clk => 0 + 1
    | .base .ip => ⟨0, 1, 0⟩
    | _ => 0
  have hstepped : Stepped cur next := by
    refine ⟨rfl, ?_, some .opening, rfl, fun j => rfl, ?_, rfl, ?_⟩
    · simp [InverseOf, cur]
    · simp [nextPointer, cur, next]
    · simp [nextCell, cur, next]
  constructor
  · let ch : Challenges Fp3 := ⟨0, 0, 0, 0, 0, 0, 0, 0, 0, 0, 0⟩
    exact ⟨cur, next, ch, rfl, rfl, rfl, hstepped,
      ((transitions_iff_stepped Fp3).1 cur next ch).mpr hstepped⟩
  · let s : Simulator.State := Simulator.start ByteArray.empty
    obtain ⟨s', hstep⟩ : ∃ s', Simulator.step #[43] s = .ok s' := ⟨_, rfl⟩
    exact ⟨#[43], s, s', by decide, hstep,
      ((transitions_iff_stepped Fp3).2 #[43] s s' (by decide) hstep).2⟩

end ProcessorStep

end TapeStark.Air.Processor
