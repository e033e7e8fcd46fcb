import Mathlib
import TapeStark.Proofs.Air.Evaluation
import TapeStark.Proofs.Air.ProcessorRun

/-! The constraints that tie the public bytes to a run. They hold at every challenge exactly when
the claimed bytes agree with those of the run up to zeros at the front: the fold of a stream does
not see its leading zeros, and the run's own tables say nothing about the length. -/

namespace TapeStark

open ExtensionField Trace

/-- The bytes without the zeros at their front. -/
def stripped (bytes : ByteArray) : List UInt8 := bytes.data.toList.dropWhile (· = 0)

private theorem ofNat_toNat_injective {b b' : UInt8} (h : Fp.ofNat b.toNat = Fp.ofNat b'.toNat) :
    b = b' := by
  have h' := congrArg Fp.val h
  have lt (b : UInt8) : b.toNat < prime := b.toNat_lt.trans (by decide)
  rw [Fp.val_ofNat_of_lt (lt b), Fp.val_ofNat_of_lt (lt b')] at h'
  exact UInt8.toNat_inj.mp h'

theorem significant_byteCells_iff (bytes bytes' : ByteArray) :
    significant (byteCells bytes) = significant (byteCells bytes') ↔
      stripped bytes = stripped bytes' := by
  have cells (b : ByteArray) :
      significant (byteCells b) = (stripped b).map fun b => Fp.ofNat b.toNat := by
    rw [significant, byteCells, List.dropWhile_map, stripped]
    congr 2
    funext b
    by_cases h : b = 0
    · simp [h]; rfl
    · have : Fp.ofNat b.toNat ≠ 0 := fun e => h (ofNat_toNat_injective e)
      simp [h, this]
  rw [cells, cells]
  exact (List.map_injective_iff.mpr fun _ _ => ofNat_toNat_injective).eq_iff

variable {F : Type} [ExtensionField F]

def inputTable (rows : List StreamRow) (eval : List F) : TableColumns .input F :=
  ⟨Table.baseMatrix .input rows, Matrix.ofColumns ColumnSet.all fun _ => eval.toArray⟩

def outputTable (rows : List StreamRow) (eval : List F) : TableColumns .output F :=
  ⟨Table.baseMatrix .output rows, Matrix.ofColumns ColumnSet.all fun _ => eval.toArray⟩

/-- The constraints that tie public bytes to a run: the ends of the processor's evaluations, and
all constraints of the stream tables. -/
structure PublicHolds (ch : Challenges F) (claim : Claim) (terminals : Terminals F)
    (processor : TableColumns .processor F) (input : TableColumns .input F)
    (output : TableColumns .output F) : Prop where
  ends : ∀ p ∈ Air.Processor.terminal terminals processor.height,
    p.name = "ipo_end" ∨ p.name = "opo_end" → processor.SatisfiesPoint p
  inputRows : ∀ c ∈ Table.transitions .input, input.SatisfiesTransition ch c
  inputPoints : ∀ p ∈ Table.points ch terminals claim.input.size claim.output.size input.height
    .input, input.SatisfiesPoint p
  outputRows : ∀ c ∈ Table.transitions .output, output.SatisfiesTransition ch c
  outputPoints : ∀ p ∈ Table.points ch terminals claim.input.size claim.output.size output.height
    .output, output.SatisfiesPoint p

section Conditions

variable [LawfulExtension F] (ch : Challenges F) (claim : Claim) (terminals : Terminals F)

private theorem ends_iff (m : TableColumns .processor F) {k : Nat} (hk : m.height = k + 1) :
    (∀ p ∈ Air.Processor.terminal terminals m.height,
      p.name = "ipo_end" ∨ p.name = "opo_end" → m.SatisfiesPoint p) ↔
      m.cell k (.ext .ipo) = terminals.inputEvaluation ∧
        m.cell k (.ext .opo) = terminals.outputEvaluation := by
  have row : (m.height : Int) - 1 = k := by rw [hk]; simp
  have lt : k < m.height := by omega
  simp only [Air.Processor.terminal, List.forall_mem_cons, List.not_mem_nil, false_implies,
    implies_true, and_true, TableColumns.SatisfiesPoint]
  simp only [String.reduceEq, or_self, false_implies, true_or, or_true, true_implies, true_and]
  rw [PointConstraint.holds_iff (k := k) row lt, PointConstraint.holds_iff (k := k) row lt]
  simp only [PointConstraint.eval, List.foldl_cons, List.foldl_nil, one_mul, neg_add_eq_zero]
  exact and_congr eq_comm eq_comm

private theorem stream_iff (challenge : Challenge) (value : F) {rows : List StreamRow}
    {eval : List F} {n height : Nat} {cell : Nat → Column StreamBase StreamExt → F}
    (hheight : height = rows.length)
    (hbase : ∀ i (_ : i < rows.length), cell i (.base .value) = ofBase rows[i].value)
    (hext : ∀ i, cell i (.ext .eval) = eval.getD i 0) (hpos : 0 < rows.length)
    (hn : n ≤ rows.length) :
    ((∀ c ∈ Air.Stream.transitions challenge, c.Holds height cell ch) ∧
      (∀ p ∈ Air.Stream.boundary ++ Air.Stream.terminal value n, p.Holds height cell)) ↔
      (∀ i < rows.length,
        eval.getD i 0 = horner ((Air.Stream.values rows).take (i + 1)) (ch.get challenge)) ∧
      (n ≠ 0 → horner ((Air.Stream.values rows).take n) (ch.get challenge) = value) := by
  rw [hheight, Air.Stream.holds_iff rows cell challenge ch hn hpos value hbase]
  simp only [hext]

omit [LawfulExtension F] in
private theorem column_ext {t : Table} (base : Matrix t.Base Fp) (eval : List F) (c : t.Ext)
    (i : Nat) : (⟨base, Matrix.ofColumns ColumnSet.all fun _ => eval.toArray⟩ :
      TableColumns t F).cell i (.ext c) = eval.getD i 0 := by
  show ((Matrix.ofColumns _ _).column c).getD i 0 = _
  rw [Matrix.column_ofColumns _ (Table.mem_ext (t := t) c)]
  simp

private theorem input_iff {rows : List StreamRow} (eval : List F) (hpos : 0 < rows.length)
    (hn : claim.input.size ≤ rows.length) :
    ((∀ c ∈ Table.transitions .input, (inputTable rows eval).SatisfiesTransition ch c) ∧
      (∀ p ∈ Table.points ch terminals claim.input.size claim.output.size
        (inputTable rows eval).height .input, (inputTable rows eval).SatisfiesPoint p)) ↔
      (∀ i < rows.length,
        eval.getD i 0 = horner ((Air.Stream.values rows).take (i + 1)) ch.gamma) ∧
      (claim.input.size ≠ 0 → horner ((Air.Stream.values rows).take claim.input.size) ch.gamma =
        terminals.inputEvaluation) :=
  stream_iff ch .gamma terminals.inputEvaluation (TableColumns.height_of_base rfl)
    (fun i hi => congrFun (TableColumns.cell_of_base (m := inputTable rows eval) rfl i hi)
      (.base StreamBase.value))
    (fun i => column_ext (t := .input) _ eval .eval i) hpos hn

private theorem output_iff {rows : List StreamRow} (eval : List F) (hpos : 0 < rows.length)
    (hn : claim.output.size ≤ rows.length) :
    ((∀ c ∈ Table.transitions .output, (outputTable rows eval).SatisfiesTransition ch c) ∧
      (∀ p ∈ Table.points ch terminals claim.input.size claim.output.size
        (outputTable rows eval).height .output, (outputTable rows eval).SatisfiesPoint p)) ↔
      (∀ i < rows.length,
        eval.getD i 0 = horner ((Air.Stream.values rows).take (i + 1)) ch.delta) ∧
      (claim.output.size ≠ 0 → horner ((Air.Stream.values rows).take claim.output.size) ch.delta =
        terminals.outputEvaluation) :=
  stream_iff ch .delta terminals.outputEvaluation (TableColumns.height_of_base rfl)
    (fun i hi => congrFun (TableColumns.cell_of_base (m := outputTable rows eval) rfl i hi)
      (.base StreamBase.value))
    (fun i => column_ext (t := .output) _ eval .eval i) hpos hn

omit [LawfulExtension F] in
/-- A column that folds the values exists, so only the public values matter. -/
private theorem exists_eval_iff (rows : List StreamRow) (x : F) (P : Prop) :
    (∃ eval : List F,
      (∀ i < rows.length, eval.getD i 0 = horner ((Air.Stream.values rows).take (i + 1)) x) ∧ P) ↔
      P := by
  refine ⟨fun ⟨_, _, h⟩ => h, fun h => ⟨(List.range rows.length).map fun i =>
    horner ((Air.Stream.values rows).take (i + 1)) x, fun i hi => ?_, h⟩⟩
  simp [hi]

omit [LawfulExtension F] in
private theorem values_injective {rows rows' : List StreamRow}
    (h : Air.Stream.values rows = Air.Stream.values rows') : rows = rows' := by
  refine List.map_injective_iff.mpr (fun a b hab => ?_) h
  cases a
  cases b
  cases hab
  rfl

theorem values_byteRows (bytes : ByteArray) :
    Air.Stream.values (byteRows bytes) = byteCells bytes := by
  rw [Air.Stream.values, byteRows, List.map_map]
  rfl

/-- The first values of a stream table fold like the bytes at every challenge exactly when they
are the bytes. -/
private theorem take_eq_byteRows_iff {rows : List StreamRow} {bytes : ByteArray}
    (hn : bytes.size ≤ rows.length) (hp : bytes.size ≤ prime) :
    (∀ x : F, bytes.size ≠ 0 →
      horner ((Air.Stream.values rows).take bytes.size) x = horner (byteCells bytes) x) ↔
      rows.take bytes.size = byteRows bytes := by
  have hlen : ((Air.Stream.values rows).take bytes.size).length = bytes.size := by
    simpa [Air.Stream.values] using hn
  have hbytes := length_byteCells bytes
  constructor
  · intro h
    refine values_injective ?_
    rw [values_byteRows, Air.Stream.values, List.map_take]
    refine eq_of_significant (hlen.trans hbytes.symm) ?_
    by_cases h0 : bytes.size = 0
    · have : byteCells bytes = [] := List.length_eq_zero_iff.mp (hbytes.trans h0)
      rw [this, h0, List.take_zero]
    · exact (horner_eq_iff (hlen.trans_le hp) (hbytes.trans_le hp)).mp fun x => h x h0
  · intro h x _
    rw [← values_byteRows, ← h, Air.Stream.values, Air.Stream.values, List.map_take]

end Conditions

section Tie

variable {F : Type} [ExtensionField F] [LawfulExtension F] {program : Program} {input : ByteArray}
  (r : Run program input) (ch : Challenges F) {padded : Trace} (claim : Claim)

omit [LawfulExtension F] in
/-- The processor's columns end in the folds of what the run read and wrote. -/
private theorem processor_end (hpadded : r.Padded padded) :
    let m := Table.columns ch .processor padded.processor
    m.height = r.height - 1 + 1 ∧
      m.cell (r.height - 1) (.ext .ipo) = horner (byteCells r.claim.input) ch.gamma ∧
      m.cell (r.height - 1) (.ext .opo) = horner (byteCells r.claim.output) ch.delta := by
  have hlt := r.lt_height
  have hcell := r.cell_processor ch hpadded (k := r.height - 1) (by omega)
  obtain ⟨hinput, houtput⟩ := r.processorExt_last ch
  rw [evaluateBytes_eq] at hinput houtput
  refine ⟨?_, (congrFun hcell _).trans hinput, (congrFun hcell _).trans houtput⟩
  rw [TableColumns.height_of_base rfl, r.length_processor hpadded]
  omega

/-- The constraints at one choice of challenges. -/
private theorem publicHolds_at (hfits : r.Fits) (hpadfits : r.PadFits) (hpadded : r.Padded padded)
    (hclaim : claim.program = program) {inputRows outputRows : List StreamRow} {heights : Heights}
    (hheights : heights = Heights.ofClaim claim padded.processor.length)
    (hip : 0 < inputRows.length) (hop : 0 < outputRows.length)
    (hir : claim.input.size ≤ inputRows.length) (hor : claim.output.size ≤ outputRows.length) :
    (∃ a terminals inputEval outputEval,
      Assignment.ofTrace ch padded = .ok a ∧
      Terminals.compute ch claim (heights.padding program.size) a.instructionEnd a.memoryEnd =
        .ok terminals ∧
      PublicHolds ch claim terminals a.processor (inputTable inputRows inputEval)
        (outputTable outputRows outputEval)) ↔
      (horner (byteCells claim.input) ch.gamma = horner (byteCells r.claim.input) ch.gamma ∧
        (claim.input.size ≠ 0 →
          horner ((Air.Stream.values inputRows).take claim.input.size) ch.gamma =
            horner (byteCells claim.input) ch.gamma)) ∧
      (horner (byteCells claim.output) ch.delta = horner (byteCells r.claim.output) ch.delta ∧
        (claim.output.size ≠ 0 →
          horner ((Air.Stream.values outputRows).take claim.output.size) ch.delta =
            horner (byteCells claim.output) ch.delta)) := by
  subst hclaim
  have hlength : padded.processor.length = r.height := by simp [hpadded.processor]
  have nonempty : padded.processor ≠ [] := by
    rw [← List.length_pos_iff, hlength]
    exact Nat.zero_lt_of_lt r.lt_height
  have hcount : (claim.program.size : Int) + 1 + heights.padding claim.program.size =
      (claim.program.size + 1 + r.emptied : Nat) := by
    have := le_nextPowerOfTwo r.filled
    rw [hheights, hlength, Heights.padding, Heights.ofClaim, Heights.ofLengths, Run.emptied,
      Run.filled] at *
    push_cast at *
    omega
  obtain ⟨hheight, hipo, hopo⟩ := processor_end r ch hpadded
  have hends (t : Terminals F) := ends_iff t (Table.columns ch .processor padded.processor) hheight
  obtain ⟨a, ha, hprocessor⟩ : ∃ a, Assignment.ofTrace ch padded = .ok a ∧
      a.processor = Table.columns ch .processor padded.processor :=
    ⟨_, Assignment.ofTrace_eq ch nonempty, rfl⟩
  obtain ⟨t, ht, hti, hto⟩ : ∃ t, Terminals.compute ch claim
      (heights.padding claim.program.size) a.instructionEnd a.memoryEnd = .ok t ∧
      t.inputEvaluation = horner (byteCells claim.input) ch.gamma ∧
      t.outputEvaluation = horner (byteCells claim.output) ch.delta :=
    ⟨_, compute_eq hfits.program ch hcount hpadfits.address .., evaluateBytes_eq .., evaluateBytes_eq ..⟩
  have hends := ends_iff t (Table.columns ch .processor padded.processor) hheight
  have hin (eval : List F) := input_iff ch claim t eval hip hir
  have hout (eval : List F) := output_iff ch claim t eval hop hor
  rw [hipo, hopo, hti, hto, ← hprocessor] at hends
  rw [hti] at hin
  rw [hto] at hout
  constructor
  · rintro ⟨a', t', inputEval, outputEval, ha', ht', h⟩
    obtain rfl := Except.ok.inj (ha.symm.trans ha')
    obtain rfl := Except.ok.inj (ht.symm.trans ht')
    obtain ⟨hi, ho⟩ := hends.mp h.ends
    exact ⟨⟨hi.symm, ((hin inputEval).mp ⟨h.inputRows, h.inputPoints⟩).2⟩,
      ho.symm, ((hout outputEval).mp ⟨h.outputRows, h.outputPoints⟩).2⟩
  · rintro ⟨⟨hi, hinput⟩, ho, houtput⟩
    obtain ⟨inputEval, hie⟩ := (exists_eval_iff inputRows ch.gamma _).mpr hinput
    obtain ⟨outputEval, hoe⟩ := (exists_eval_iff outputRows ch.delta _).mpr houtput
    obtain ⟨hit, hip⟩ := (hin inputEval).mpr hie
    obtain ⟨hot, hop⟩ := (hout outputEval).mpr hoe
    exact ⟨a, t, inputEval, outputEval, ha, ht, hends.mpr ⟨hi.symm, ho.symm⟩, hit, hip, hot, hop⟩

end Tie

/-- The constraints at every challenge, for the tables of a run. -/
private theorem publicHolds_forall {program : Program} {input : ByteArray} {r : Run program input}
    {padded : Trace} (hfits : r.Fits) (hpadfits : r.PadFits) (hpadded : r.Padded padded)
    {input' output' : ByteArray} (hi : input'.size < 2 ^ 32) (ho : output'.size < 2 ^ 32)
    {inputRows outputRows : List StreamRow} {heights : Heights}
    (hheights : heights = Heights.ofClaim ⟨program, input', output'⟩ padded.processor.length)
    (hir : inputRows.length = heights.input) (hor : outputRows.length = heights.output)
    (F : Type) [ExtensionField F] [LawfulExtension F] :
    (∀ ch : Challenges F, ∃ a terminals inputEval outputEval,
      Assignment.ofTrace ch padded = .ok a ∧
      Terminals.compute ch ⟨program, input', output'⟩ (heights.padding program.size)
        a.instructionEnd a.memoryEnd = .ok terminals ∧
      PublicHolds ch ⟨program, input', output'⟩ terminals a.processor
        (inputTable inputRows inputEval) (outputTable outputRows outputEval)) ↔
      (stripped input' = stripped r.claim.input ∧ stripped output' = stripped r.claim.output) ∧
        inputRows.take input'.size = byteRows input' ∧
        outputRows.take output'.size = byteRows output' := by
  have hir' : inputRows.length = nextPowerOfTwo (max input'.size 1) := by
    rw [hheights] at hir
    exact Int.ofNat.inj hir
  have hor' : outputRows.length = nextPowerOfTwo (max output'.size 1) := by
    rw [hheights] at hor
    exact Int.ofNat.inj hor
  have himax := le_nextPowerOfTwo (max input'.size 1)
  have homax := le_nextPowerOfTwo (max output'.size 1)
  have hiroom : input'.size ≤ inputRows.length := by omega
  have horoom : output'.size ≤ outputRows.length := by omega
  have hat (ch : Challenges F) := publicHolds_at r ch ⟨program, input', output'⟩ hfits hpadfits
    hpadded rfl hheights (by omega) (by omega) hiroom horoom
  have hbound : 2 ^ 32 ≤ prime := by decide
  have hrun : r.length < prime := by
    have := (hfits.steps r.length (Nat.le_refl _)).clk.2
    rw [Simulator.State.seen, Simulator.State.observe, r.clk] at this
    exact_mod_cast this
  have hread : (byteCells r.claim.input).length ≤ prime := by
    rw [← r.bytesRead_of_le (Nat.le_refl _)]
    exact (r.collects_read.length_le _).trans hrun.le
  have hwritten : (byteCells r.claim.output).length ≤ prime := by
    rw [← r.bytesWritten_of_le (Nat.le_refl _)]
    exact (r.collects_write.length_le _).trans hrun.le
  have hin : (∀ x : F, horner (byteCells input') x = horner (byteCells r.claim.input) x) ↔
      stripped input' = stripped r.claim.input := by
    rw [horner_eq_iff (by rw [length_byteCells]; omega) hread, significant_byteCells_iff]
  have hout : (∀ x : F, horner (byteCells output') x = horner (byteCells r.claim.output) x) ↔
      stripped output' = stripped r.claim.output := by
    rw [horner_eq_iff (by rw [length_byteCells]; omega) hwritten, significant_byteCells_iff]
  rw [← hin, ← hout, ← take_eq_byteRows_iff (F := F) hiroom (by omega),
    ← take_eq_byteRows_iff (F := F) horoom (by omega)]
  simp only [hat]
  constructor
  · intro h
    have at_ (x : F) := h ⟨0, 0, 0, 0, 0, 0, 0, 0, x, x, 0⟩
    exact ⟨⟨fun x => (at_ x).1.1, fun x => (at_ x).2.1⟩, fun x => (at_ x).1.2, fun x => (at_ x).2.2⟩
  · rintro ⟨⟨hi, ho⟩, hinput, houtput⟩ ch
    exact ⟨⟨hi ch.gamma, hinput ch.gamma⟩, ho ch.delta, houtput ch.delta⟩

/-- The claimed bytes that the constraints let pass for a run: those that agree with the run's own
up to zeros at the front, with the stream tables listing the claimed ones. -/
theorem publicHolds_iff (F : Type) [ExtensionField F] [LawfulExtension F] {program : Program}
    {input : ByteArray} {limit : Int} {trace padded : Trace} {claim : Claim}
    (hsim : simulate program input limit = .ok (trace, claim))
    (hpad : trace.pad program.size = .ok padded) {input' output' : ByteArray}
    (hi : input'.size < 2 ^ 32) (ho : output'.size < 2 ^ 32) {inputRows outputRows : List StreamRow}
    {heights : Heights}
    (hheights : heights = Heights.ofClaim ⟨program, input', output'⟩ padded.processor.length)
    (hir : inputRows.length = heights.input) (hor : outputRows.length = heights.output) :
    (∀ ch : Challenges F, ∃ a terminals inputEval outputEval,
      Assignment.ofTrace ch padded = .ok a ∧
      Terminals.compute ch ⟨program, input', output'⟩ (heights.padding program.size)
        a.instructionEnd a.memoryEnd = .ok terminals ∧
      PublicHolds ch ⟨program, input', output'⟩ terminals a.processor
        (inputTable inputRows inputEval) (outputTable outputRows outputEval)) ↔
      (stripped input' = stripped claim.input ∧ stripped output' = stripped claim.output) ∧
        inputRows.take input'.size = byteRows input' ∧
        outputRows.take output'.size = byteRows output' := by
  obtain ⟨r, hfits, rfl, rfl, -⟩ := Run.exists_of_simulate hsim
  obtain ⟨hpadfits, padded', hpad', hpadded⟩ | ⟨-, herror⟩ := r.pad_cases hfits
  · obtain rfl : padded = padded' := Except.ok.inj (hpad.symm.trans hpad')
    exact publicHolds_forall hfits hpadfits hpadded hi ho hheights hir hor F
  · rw [hpad] at herror
    cases herror

private def tables (program : Program) (input : ByteArray) (limit : Int) :
    Except Error (Trace × Claim × Trace) := do
  let (trace, claim) ← simulate program input limit
  let padded ← trace.pad program.size
  return (trace, claim, padded)

private theorem exists_tables (program : Program) (input : ByteArray) (limit : Int)
    (read written : List UInt8) (height : Nat)
    (h : ((tables program input limit).toOption.map fun (_, claim, padded) =>
      (claim.input.data.toList, claim.output.data.toList, padded.processor.length)) =
        some (read, written, height)) : ∃ trace claim padded,
    simulate program input limit = .ok (trace, claim) ∧ trace.pad program.size = .ok padded ∧
      claim.input.data.toList = read ∧ claim.output.data.toList = written ∧
      padded.processor.length = height := by
  cases hx : tables program input limit with
  | error e => rw [hx] at h; cases h
  | ok x =>
    obtain ⟨⟨trace, claim⟩, hsim, hx'⟩ := bind_eq_ok.mp hx
    obtain ⟨padded, hpad, hx'⟩ := bind_eq_ok.mp hx'
    obtain rfl := Except.ok.inj hx'
    rw [hx] at h
    simp only [Except.toOption, Option.map_some, Option.some.injEq, Prod.mk.injEq] at h
    exact ⟨trace, claim, padded, hsim, hpad, h⟩

/-- Two bytes are read, and the first comes out counted up. Other bytes do not pass. -/
theorem publicHolds_of_two_bytes :
    let program : Program := #[44, 43, 46, 44, 46]
    let input := [65, 7].toByteArray
    let holds (padded : Trace) (output : List UInt8) := ∀ ch : Challenges Fp,
      ∃ a terminals inputEval outputEval, Assignment.ofTrace ch padded = .ok a ∧
        Terminals.compute ch ⟨program, input, output.toByteArray⟩ 2 a.instructionEnd
          a.memoryEnd = .ok terminals ∧
        PublicHolds ch ⟨program, input, output.toByteArray⟩ terminals a.processor
          (inputTable (byteRows input) inputEval)
          (outputTable (byteRows output.toByteArray) outputEval)
    ∃ trace claim padded, simulate program input 5 = .ok (trace, claim) ∧
      trace.pad program.size = .ok padded ∧ holds padded [66, 7] ∧ ¬ holds padded [66, 8] := by
  intro program input holds
  obtain ⟨trace, claim, padded, hsim, hpad, hin, hout, hlen⟩ :=
    exists_tables program input 5 [65, 7] [66, 7] 8 (by cbv)
  have hheights (output : ByteArray) (h : output.size = 2) : (⟨8, 8, 16, 2, 2⟩ : Heights) =
      Heights.ofClaim ⟨program, input, output⟩ padded.processor.length := by
    have lengths : (⟨8, 8, 16, 2, 2⟩ : Heights) = Heights.ofLengths 8 5 2 2 := by decide
    rw [lengths, hlen, Heights.ofClaim, h]
    rfl
  refine ⟨trace, claim, padded, hsim, hpad, ?_, ?_⟩
  · refine (publicHolds_iff Fp hsim hpad (by decide) (by decide) (hheights _ rfl) (by decide)
      (by decide)).mpr ⟨⟨?_, ?_⟩, by decide, by decide⟩
    · rw [stripped, stripped, hin]
      decide
    · rw [stripped, stripped, hout]
      decide
  · intro h
    have hstripped := ((publicHolds_iff Fp hsim hpad (by decide) (by decide) (hheights _ rfl)
      (by decide) (by decide)).mp h).1.2
    rw [stripped, stripped, hout] at hstripped
    exact absurd hstripped (by decide)

/-- Written zeros can be left out of the claim. -/
theorem exists_publicHolds_of_other_output : ∃ program input limit trace claim padded,
    Program.compile "." = .ok program ∧
    simulate program input limit = .ok (trace, claim) ∧ trace.pad program.size = .ok padded ∧
      ∃ input' output' heights inputRows outputRows,
        heights = Heights.ofClaim ⟨program, input', output'⟩ padded.processor.length ∧
        (inputRows.length : Int) = heights.input ∧ (outputRows.length : Int) = heights.output ∧
        (∀ ch : Challenges Fp, ∃ a terminals inputEval outputEval,
          Assignment.ofTrace ch padded = .ok a ∧
          Terminals.compute ch ⟨program, input', output'⟩ (heights.padding program.size)
            a.instructionEnd a.memoryEnd = .ok terminals ∧
          PublicHolds ch ⟨program, input', output'⟩ terminals a.processor
            (inputTable inputRows inputEval) (outputTable outputRows outputEval)) ∧
        ¬ (input' = claim.input ∧ output' = claim.output) := by
  obtain ⟨trace, claim, padded, hsim, hpad, hin, hout, hlen⟩ :=
    exists_tables #[46] ByteArray.empty 1 [] [0] 2 (by cbv)
  refine ⟨#[46], ByteArray.empty, 1, trace, claim, padded, by decide +kernel, hsim, hpad,
    ByteArray.empty, ByteArray.empty, ⟨2, 2, 4, 1, 1⟩, [⟨0⟩], [⟨0⟩], ?_, by decide, by decide,
    ?_, ?_⟩
  · rw [hlen]
    decide
  · obtain ⟨r, hfits, rfl, rfl, -⟩ := Run.exists_of_simulate hsim
    obtain ⟨hpadfits, padded', hpad', hpadded⟩ | ⟨-, herror⟩ := r.pad_cases hfits
    · obtain rfl : padded = padded' := Except.ok.inj (hpad.symm.trans hpad')
      refine (publicHolds_forall hfits hpadfits hpadded (by decide) (by decide)
        (by rw [hlen]; decide) (by decide) (by decide) Fp).mpr ⟨⟨?_, ?_⟩, by decide, by decide⟩
      · rw [stripped, stripped, hin]
        decide
      · rw [stripped, stripped, hout]
        decide
    · rw [hpad] at herror
      cases herror
  · rintro ⟨-, h⟩
    rw [← h] at hout
    cases hout

end TapeStark
