import Mathlib
import TapeStark.Proofs.Air.InstructionRun
import TapeStark.Proofs.Air.MemoryRun
import TapeStark.Proofs.Air.Public

/-! The padded tables of a run of a compiled program satisfy every constraint, whatever the
challenges are. -/

namespace TapeStark

open ExtensionField Trace

variable {F : Type} [ExtensionField F] [LawfulExtension F]

section Stream

theorem length_padStream (rows : List StreamRow) :
    (padStream rows).length = nextPowerOfTwo (max rows.length 1 : Nat) := by
  have := le_nextPowerOfTwo (max rows.length 1 : Nat)
  rw [padStream, List.length_append, List.length_replicate]
  omega

/-- The evaluation column of a stream table folds the values. -/
theorem getD_stream (x : F) {rows : List StreamRow} {i : Nat} (hi : i < rows.length) :
    (Witness.stream x rows .eval).getD i 0 = horner ((Air.Stream.values rows).take (i + 1)) x := by
  have value (i : Nat) (hi : i < rows.length) :
      horner ((Air.Stream.values rows).take (i + 1)) x =
        horner ((Air.Stream.values rows).take i) x * x + ofBase rows[i].value := by
    rw [List.take_succ_eq_append_getElem (by simpa [Air.Stream.values] using hi), horner_append]
    simp [Air.Stream.values]
  cases rows with
  | nil => exact absurd hi (Nat.not_lt_zero i)
  | cons first rest =>
    have start : ofBase first.value = horner ((Air.Stream.values (first :: rest)).take 1) x := by
      rw [value 0 (by simp), List.take_zero, horner, List.foldl_nil, zero_mul, zero_add]
      rfl
    rw [Witness.stream, start]
    exact getD_scanRows _ (A := fun k => horner ((Air.Stream.values (first :: rest)).take (k + 1)) x)
      0 (fun k hk => value (k + 1) hk) i hi

/-- A padded stream table satisfies its constraints for the evaluation of its bytes. -/
theorem stream_holds (ch : Challenges F) (challenge : Challenge) (bytes : ByteArray)
    (cell : Nat → Column StreamBase StreamExt → F)
    (hbase : ∀ i (_ : i < (padStream (byteRows bytes)).length),
      cell i (.base .value) = ofBase (padStream (byteRows bytes))[i].value)
    (hext : ∀ i < (padStream (byteRows bytes)).length, cell i (.ext .eval) =
      (Witness.stream (ch.get challenge) (padStream (byteRows bytes)) .eval).getD i 0) :
    (∀ c ∈ Air.Stream.transitions challenge,
      c.Holds (padStream (byteRows bytes)).length cell ch) ∧
      ∀ p ∈ Air.Stream.boundary ++
        Air.Stream.terminal (evaluateBytes bytes (ch.get challenge)) bytes.size,
        p.Holds (padStream (byteRows bytes)).length cell := by
  have hlength := length_padStream (byteRows bytes)
  have hle := le_nextPowerOfTwo (max (byteRows bytes).length 1 : Nat)
  have hbytes := length_byteRows bytes
  refine (Air.Stream.holds_iff _ cell challenge ch (by omega) (by omega) _ hbase).mpr
    ⟨fun i hi => ?_, fun _ => ?_⟩
  · rw [hext i hi]
    exact getD_stream _ hi
  · rw [evaluateBytes_eq, ← values_byteRows, padStream, Air.Stream.values, List.map_append,
      List.take_append_of_le_length (by simp [hbytes]), List.take_of_length_le (by simp [hbytes])]
    rfl

end Stream

namespace Run

variable {program : Program} {input : ByteArray} (r : Run program input) {t : Trace}

/-- The padded tables have the heights that the claim implies. -/
theorem Padded.heights_eq (h : r.Padded t) : t.heights = Heights.ofClaim r.claim r.height := by
  have hinstruction : t.instruction.length = nextPowerOfTwo r.filled := by
    have hfilled := r.length_filled
    have hle := le_nextPowerOfTwo r.filled
    rw [h.instruction, List.length_append, hfilled, List.length_map, List.length_range, emptied]
    omega
  refine PerTable.ext_get fun T => ?_
  rw [Trace.heights, PerTable.get_ofFn]
  cases T with
  | processor =>
    exact congrArg Nat.cast (r.length_processor h)
  | memory => exact congrArg Nat.cast (r.length_memory h)
  | instruction =>
    change (t.instruction.length : Int) = nextPowerOfTwo (program.size + 1 + r.height)
    rw [hinstruction, filled]
    push_cast
    rfl
  | input =>
    change (t.input.length : Int) = nextPowerOfTwo (max r.claim.input.size 1)
    rw [h.input, length_padStream, length_byteRows]
    push_cast
    rfl
  | output =>
    change (t.output.length : Int) = nextPowerOfTwo (max r.claim.output.size 1)
    rw [h.output, length_padStream, length_byteRows]
    push_cast
    rfl

theorem Padded.processor_ne_nil (h : r.Padded t) : t.processor ≠ [] := by
  have := r.lt_height
  simp [h.processor]
  omega

variable {starts : Nat → Prop} (hlayout : Program.Layout program [] starts) (h : r.Padded t)
  (hpad : r.PadFits) (ch : Challenges F)

def terminals : Terminals F where
  processorInstruction := r.processorExt ch (r.height - 1) .ipa
  processorMemory := r.processorExt ch (r.height - 1) .mpa
  inputEvaluation := evaluateBytes r.claim.input ch.gamma
  outputEvaluation := evaluateBytes r.claim.output ch.delta
  programEvaluation := foldProgram ch program r.reach

include hlayout h hpad

/-- Every constraint of every table holds. -/
theorem Padded.satisfies (T : Table) :
    (∀ c ∈ T.transitions, (T.columns ch (t.rows T)).SatisfiesTransition ch c) ∧
      ∀ p ∈ T.points ch (r.terminals ch) r.claim.input.size r.claim.output.size (t.heights.get T),
        (T.columns ch (t.rows T)).SatisfiesPoint p := by
  rw [Trace.heights, PerTable.get_ofFn]
  cases T with
  | processor =>
    refine ⟨r.processor_transitions ch h, List.forall_mem_append.mpr
      ⟨r.processor_boundary ch h, ?_⟩⟩
    change ∀ p ∈ Air.Processor.terminal _ (t.processor.length : Int), _
    rw [r.length_processor h]
    exact r.processor_terminal ch h _ rfl rfl rfl rfl
  | memory =>
    refine ⟨r.memory_transitions ch h hpad.clock, List.forall_mem_append.mpr
      ⟨r.memory_boundary ch h hpad.clock, ?_⟩⟩
    change ∀ p ∈ Air.Memory.terminal _ (t.memory.length : Int), _
    rw [r.length_memory h]
    exact r.memory_terminal ch h _ rfl
  | instruction =>
    exact ⟨r.instruction_transitions ch h hlayout hpad, List.forall_mem_append.mpr
      ⟨r.instruction_boundary ch h hlayout hpad,
        r.instruction_terminal ch h hlayout hpad _ rfl rfl⟩⟩
  | input =>
    have hrows : t.rows .input = padStream (byteRows r.claim.input) := h.input
    have hheight : (Table.columns ch .input (padStream (byteRows r.claim.input))).height =
        (padStream (byteRows r.claim.input)).length := TableColumns.height_of_base rfl
    rw [hrows]
    simp only [TableColumns.SatisfiesTransition, TableColumns.SatisfiesPoint, hheight]
    exact stream_holds ch .gamma r.claim.input (Table.columns ch .input _).cell
      (fun i hi => congrFun (Table.cell_columns ch (t := .input) _ hi) (.base .value))
      fun i hi => congrFun (Table.cell_columns ch (t := .input) _ hi) (.ext .eval)
  | output =>
    have hrows : t.rows .output = padStream (byteRows r.claim.output) := h.output
    have hheight : (Table.columns ch .output (padStream (byteRows r.claim.output))).height =
        (padStream (byteRows r.claim.output)).length := TableColumns.height_of_base rfl
    rw [hrows]
    simp only [TableColumns.SatisfiesTransition, TableColumns.SatisfiesPoint, hheight]
    exact stream_holds ch .delta r.claim.output (Table.columns ch .output _).cell
      (fun i hi => congrFun (Table.cell_columns ch (t := .output) _ hi) (.base .value))
      fun i hi => congrFun (Table.cell_columns ch (t := .output) _ hi) (.ext .eval)

omit hlayout hpad [LawfulExtension F] in
/-- The columns of the processor end in the last padded cycle. -/
theorem Padded.last_processor (c : ProcessorExt) :
    (Table.columns ch .processor t.processor).extension.last c =
      r.processorExt ch (r.height - 1) c := by
  have hlength : (Witness.processor ch ((List.range r.height).map r.row) c).length = r.height :=
    (Table.length_extension ch .processor _ c).trans (by rw [List.length_map, List.length_range])
  rw [Matrix.last, Table.columns,
    Matrix.column_ofColumns (F := F) _ (Table.mem_ext (t := .processor) c), h.processor]
  exact getLastD_eq_getD hlength 0

omit hlayout h hpad [ExtensionField F] [LawfulExtension F] in
/-- The program and the padding that the heights of the claim leave. -/
theorem size_add_padding : (program.size : Int) + 1 +
    (Heights.ofClaim r.claim r.height).padding program.size = r.reach := by
  have := r.reach_add_height
  change (program.size : Int) + 1 +
    ((nextPowerOfTwo (program.size + 1 + r.height) : Int) - program.size - 1 - r.height) = _
  rw [filled] at this
  push_cast at this
  omega

omit hlayout in
/-- The terminals that the claim and the ends of the processor's columns determine. -/
theorem Padded.compute_terminals (hfits : r.Fits) :
    Terminals.compute ch r.claim (t.heights.padding program.size)
      ((Table.columns ch .processor t.processor).extension.last .ipa)
      ((Table.columns ch .processor t.processor).extension.last .mpa) = .ok (r.terminals ch) := by
  have hcount : (r.claim.program.size : Int) + 1 + t.heights.padding program.size = r.reach := by
    rw [h.heights_eq]
    exact r.size_add_padding
  refine (compute_eq hfits.program ch hcount hpad.address ..).trans ?_
  rw [h.last_processor r ch, h.last_processor r ch]
  rfl

omit hlayout h hpad [ExtensionField F] [LawfulExtension F] in
/-- Heights of at most `2 ^ 32` leave the padding inside the field. -/
theorem padFits_of_heights
    (hle : ∀ T, (Heights.ofClaim r.claim r.height).get T ≤ (2 ^ 32 : Nat)) : r.PadFits := by
  have hbound : 2 ^ 32 ≤ prime := by decide
  have hclock : r.height ≤ 2 ^ 32 := Int.ofNat_le.mp (hle .processor)
  have haddress : nextPowerOfTwo (program.size + 1 + r.height) ≤ 2 ^ 32 :=
    Int.ofNat_le.mp (hle .instruction)
  have hfilled := le_nextPowerOfTwo r.filled
  refine ⟨hclock.trans hbound, ?_⟩
  rw [emptied, filled] at *
  push_cast at *
  omega

omit hlayout h hpad [ExtensionField F] [LawfulExtension F] in
/-- The padding of at most `2 ^ 63` rows stays inside the field. -/
theorem padFits_of_length (hprogram : program.size ≤ 2 ^ 62) (hlength : r.length + 1 ≤ 2 ^ 63) :
    r.PadFits := by
  have hbound : 2 ^ 64 - 2 ^ 62 ≤ prime := by decide
  have hclock : r.height ≤ 2 ^ 63 := nextPowerOfTwo_le (Int.ofNat_le.mpr hlength)
  have hfilled := le_nextPowerOfTwo r.filled
  refine ⟨hclock.trans (le_trans (by decide) hbound), ?_⟩
  rw [emptied]
  rcases Nat.lt_or_ge (2 ^ 63) r.filled with hlt | hle
  · have htop : nextPowerOfTwo r.filled ≤ 2 ^ 64 := by
      refine nextPowerOfTwo_le (Int.ofNat_le.mpr ?_)
      rw [filled]
      omega
    rw [filled] at *
    omega
  · have htop : nextPowerOfTwo r.filled ≤ 2 ^ 63 := nextPowerOfTwo_le (Int.ofNat_le.mpr hle)
    rw [filled] at *
    omega

end Run

/-- The tables of every halted run of a compiled program pad, and their columns satisfy every
constraint for the terminals of the claim. -/
theorem satisfies_of_simulate (d : Degree) {source : String} {program : Program}
    (hcompile : Program.compile source = .ok program) {input : ByteArray} {limit : Int} {t : Trace}
    {claim : Claim} (hsim : simulate program input limit = .ok (t, claim))
    (hle : ∀ T, (Heights.ofClaim claim (nextPowerOfTwo t.processor.length)).get T ≤ (2 ^ 32 : Nat))
    (ch : Challenges d.Carrier) :
    ∃ padded a terminals,
      t.pad program.size = .ok padded ∧
      padded.heights = Heights.ofClaim claim (nextPowerOfTwo t.processor.length) ∧
      Assignment.ofTrace ch padded = .ok a ∧
      Terminals.compute ch claim (padded.heights.padding program.size) a.instructionEnd
        a.memoryEnd = .ok terminals ∧
      ∀ T : Table,
        (∀ k ∈ T.transitions, (a.get T).SatisfiesTransition ch k) ∧
        ∀ p ∈ T.points ch terminals claim.input.size claim.output.size (padded.heights.get T),
          (a.get T).SatisfiesPoint p := by
  obtain ⟨r, hfits, rfl, rfl, -⟩ := Run.exists_of_simulate hsim
  obtain ⟨starts, hlayout⟩ := Program.exists_layout hcompile
  have hlength : (r.trace.processor.length : Int) = (r.length + 1 : Nat) := by simp [Run.trace]
  rw [hlength] at hle ⊢
  have hpad := r.padFits_of_heights hle
  obtain ⟨-, padded, hpadded, h⟩ | ⟨hno, -⟩ := r.pad_cases hfits
  · refine ⟨padded, _, r.terminals ch, hpadded, h.heights_eq,
      Assignment.ofTrace_eq ch h.processor_ne_nil, h.compute_terminals r hpad ch hfits, fun T => ?_⟩
    rw [PerTable.get_ofFn]
    exact h.satisfies r hlayout hpad ch T
  · exact absurd hpad hno

/-- The run of the program `.` and its heights. -/
private theorem exists_writeOnce : ∃ t claim,
    simulate #[46] ByteArray.empty 1 = .ok (t, claim) ∧
      ∀ T, (Heights.ofClaim claim (nextPowerOfTwo t.processor.length)).get T ≤ (2 ^ 32 : Nat) := by
  have h : ((simulate #[46] ByteArray.empty 1).map fun x =>
      (Heights.ofClaim x.2 (nextPowerOfTwo x.1.processor.length)).toList) =
        .ok [2, 2, 4, 1, 1] := by cbv
  obtain ⟨⟨t, claim⟩, hsim, heights⟩ := map_eq_ok.mp h
  have small : ∀ n ∈ [(2 : Int), 2, 4, 1, 1], n ≤ (2 ^ 32 : Nat) := by decide
  rw [← heights] at small
  exact ⟨t, claim, hsim, fun T => small _ (List.mem_map_of_mem T.mem_all)⟩

theorem satisfies_of_written : ∃ t claim,
    simulate #[46] ByteArray.empty 1 = .ok (t, claim) ∧
      ∀ (d : Degree) (ch : Challenges d.Carrier), ∃ padded a terminals,
        t.pad 1 = .ok padded ∧
        padded.heights = Heights.ofClaim claim (nextPowerOfTwo t.processor.length) ∧
        Assignment.ofTrace ch padded = .ok a ∧
        Terminals.compute ch claim (padded.heights.padding 1) a.instructionEnd a.memoryEnd =
          .ok terminals ∧
        ∀ T : Table,
          (∀ k ∈ T.transitions, (a.get T).SatisfiesTransition ch k) ∧
          ∀ p ∈ T.points ch terminals claim.input.size claim.output.size (padded.heights.get T),
            (a.get T).SatisfiesPoint p := by
  obtain ⟨t, claim, hsim, hle⟩ := exists_writeOnce
  have hcompile : Program.compile "." = .ok #[46] := by decide +kernel
  exact ⟨t, claim, hsim, fun d ch => satisfies_of_simulate d hcompile hsim hle ch⟩

end TapeStark
