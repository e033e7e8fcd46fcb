import Mathlib
import TapeStark.Proofs.Air.Complete
import TapeStark.Proofs.Air.Reordering
import TapeStark.Proofs.Trace.Simulated

/-! What the instruction table says about the program that is executed. -/

namespace TapeStark

open ExtensionField Trace

/-! The instruction table against the program. Where an address is repeated the whole row is, so the
rows are those that open an address and their copies. The product counts the copies, which makes
them the processor's rows in some order; the evaluation lists the rows that open an address, which
makes them the program's rows. Hence the processor executes rows of the program only. -/

section Executed

section Keys

variable {ρ κ : Type} [DecidableEq κ] (key : ρ → κ)

/-- Rows that are repeated with their key stand among those at which a key is new. -/
theorem mem_cons_firsts_of_mem_repeats {r x : ρ} {rest : List ρ}
    (hsame : (r :: rest).IsChain fun r r' => key r' = key r → r' = r)
    (hx : x ∈ repeats key r rest) : x ∈ r :: firsts key r rest := by
  induction rest generalizing r with
  | nil => exact absurd hx List.not_mem_nil
  | cons r' rest ih =>
    obtain ⟨hr, hrest⟩ := List.isChain_cons_cons.mp hsame
    rw [repeats] at hx
    rw [firsts]
    split at hx
    · rename_i hkey
      rw [if_pos hkey, ← hr hkey]
      rcases List.mem_cons.mp hx with rfl | hx
      · exact List.mem_cons_self ..
      · exact ih hrest hx
    · rename_i hkey
      rw [if_neg hkey]
      exact List.mem_cons_of_mem _ (ih hrest hx)

end Keys

variable {F : Type} [ExtensionField F]

theorem foldRows_eq_horner (ch : Challenges F) {cell : InstructionRow → Fp}
    (hcell : ∀ row, ch.compress row = ofBase (cell row)) (rows : List InstructionRow) :
    foldRows ch rows = horner (rows.map cell) ch.eta := by
  simp only [foldRows, horner, List.foldl_map, hcell]

variable [LawfulExtension F]

/-- Equally many rows are determined by their folds at all challenges. -/
theorem foldRows_injective {rows rows' : List InstructionRow} (hlength : rows.length = rows'.length)
    (hle : rows.length ≤ prime)
    (h : ∀ ch : Challenges F, foldRows ch rows = foldRows ch rows') : rows = rows' := by
  -- Challenges that see one cell of every row give the column of that cell.
  have column (cell : InstructionRow → Fp) (weights : F → Challenges F)
      (heta : ∀ x, (weights x).eta = x)
      (hcell : ∀ x row, (weights x).compress row = ofBase (cell row)) :
      rows.map cell = rows'.map cell := by
    refine eq_of_significant (by simpa using hlength)
      ((horner_eq_iff (F := F) ?_ ?_).mp fun x => ?_)
    · rwa [List.length_map]
    · rwa [List.length_map, ← hlength]
    · have := h (weights x)
      rwa [foldRows_eq_horner _ (hcell x), foldRows_eq_horner _ (hcell x), heta] at this
  have hip := column (·.ip) (fun x => ⟨1, 0, 0, 0, 0, 0, 0, 0, 0, 0, x⟩) (fun _ => rfl)
    fun x row => by simp [Challenges.compress]
  have hci := column (·.ci) (fun x => ⟨0, 1, 0, 0, 0, 0, 0, 0, 0, 0, x⟩) (fun _ => rfl)
    fun x row => by simp [Challenges.compress]
  have hni := column (·.ni) (fun x => ⟨0, 0, 1, 0, 0, 0, 0, 0, 0, 0, x⟩) (fun _ => rfl)
    fun x row => by simp [Challenges.compress]
  refine List.ext_getElem hlength fun i hi hi' => ?_
  have cell {f : InstructionRow → Fp} (hf : rows.map f = rows'.map f) : f rows[i] = f rows'[i] := by
    have := congrArg (·[i]?) hf
    simpa [hi, hi'] using this
  have h1 := cell hip
  have h2 := cell hci
  have h3 := cell hni
  generalize rows[i] = row at h1 h2 h3 ⊢
  generalize rows'[i] = row' at h1 h2 h3 ⊢
  cases row
  cases row'
  cases h1
  cases h2
  cases h3
  rfl

namespace Air.Instruction

variable {ch : Challenges F}

section Columns

variable {m : TableColumns .instruction F} {first : InstructionRow} {rest : List InstructionRow}
  (hbase : m.base = Table.baseMatrix .instruction (first :: rest))
  (htransitions : ∀ c ∈ transitions, m.SatisfiesTransition ch c)

include hbase htransitions

/-- Every row repeats the one before it or stands at the next address. -/
theorem isChain_of_satisfies :
    (first :: rest).IsChain fun r r' => r' = r ∨ r'.ip = r.ip + 1 := by
  refine List.isChain_iff_getElem.mpr fun i hi => ?_
  refine (rowConstraints_iff ch (fun c => m.cell i (.ext c))
    fun c => m.cell (i + 1) (.ext c)).mp fun x hx => ?_
  obtain ⟨c, hc, rfl⟩ := List.mem_map.mp
    (show x ∈ (Table.baseTransitions .instruction).map (·.expr) from hx)
  have := htransitions c (List.mem_of_mem_filter hc) i (by rwa [TableColumns.height_of_base hbase])
  rwa [TableColumns.cell_of_base hbase i (by omega), TableColumns.cell_of_base hbase (i + 1) hi]
    at this

/-- The terminals are the product over the copies and the fold of the rows that open an address. -/
theorem terminals_of_satisfies {terminals : Terminals F}
    (hpoints : ∀ p ∈ boundary ch ++ terminal terminals m.height, m.SatisfiesPoint p) :
    terminals.processorInstruction =
        ((repeats InstructionRow.ip first rest).map ch.instructionFactor).prod ∧
      terminals.programEvaluation = foldRows ch (first :: firsts InstructionRow.ip first rest) := by
  have hheight : m.height = rest.length + 1 := TableColumns.height_of_base hbase
  have hlast : (m.height : Int) - 1 = rest.length := by
    rw [hheight]
    simp
  have hregular : Table.Regular .instruction (first :: rest) := by
    refine (isChain_of_satisfies hbase htransitions).imp fun r r' hstep => ?_
    rcases hstep with hsame | hnext
    · exact .inl (by rw [hsame, sub_self])
    · exact .inr (by rw [hnext, add_sub_cancel_left])
  obtain ⟨hboundary, hterminal⟩ := List.forall_mem_append.mp hpoints
  -- The extension columns are the computed ones, whose ends are known.
  have hpos : 0 < (first :: rest).length := Nat.succ_pos _
  have hcolumns := (Table.satisfiesExtension_iff hpos hregular hbase).mp
    ⟨fun c hc => htransitions c (List.mem_of_mem_filter hc),
      fun p hp => hboundary p (List.mem_of_mem_filter hp)⟩
  obtain ⟨hppa, hpea⟩ := extension_ends ch first rest
  simp only [terminal, List.forall_mem_cons, List.not_mem_nil, false_implies, implies_true,
    and_true, TableColumns.SatisfiesPoint] at hterminal
  obtain ⟨hppaEnd, hpeaEnd⟩ := hterminal
  rw [PointConstraint.holds_iff hlast (by omega)] at hppaEnd hpeaEnd
  simp only [PointConstraint.eval, List.foldl_cons, List.foldl_nil, one_mul] at hppaEnd hpeaEnd
  rw [← hppa, ← hpea, ← hcolumns .ppa _ (Nat.lt_succ_self _),
    ← hcolumns .pea _ (Nat.lt_succ_self _)]
  exact ⟨neg_add_eq_zero.mp hppaEnd, neg_add_eq_zero.mp hpeaEnd⟩

end Columns

end Air.Instruction

open Air.Instruction

/-- The end of the processor's column, over the rows that there are. -/
theorem last_ipa (ch : Challenges F) {processor : List ProcessorRow} (hne : processor ≠ []) :
    (Table.columns ch .processor processor).extension.last .ipa =
      ((processor.map (·.instruction)).map ch.instructionFactor).prod := by
  rw [Matrix.last, Table.columns, Matrix.column_ofColumns (F := F) _
    (Table.mem_ext (t := .processor) .ipa), List.getLastD_eq_getLast?, Table.extension,
    Witness.processor, getLast?_product _ hne, Option.getD_some, List.map_map]
  rfl

/-- The padded instruction table has room for the program, the padding and the processor's rows. -/
theorem exists_padding (claim : Claim) (processor : Nat) : ∃ count : Nat,
    claim.program.size < count ∧
      claim.program.size + 1 + (Heights.ofClaim claim processor).padding claim.program.size =
        count ∧
      (Heights.ofClaim claim processor).instruction = (count + processor : Nat) := by
  have hle := le_nextPowerOfTwo (claim.program.size + 1 + processor)
  refine ⟨nextPowerOfTwo (claim.program.size + 1 + processor) - processor, ?_, ?_, ?_⟩
  · omega
  · simp only [Heights.padding, Heights.ofClaim, Heights.ofLengths]
    omega
  · simp only [Heights.ofClaim, Heights.ofLengths]
    omega

/-- Tables of any rows: if the instruction table satisfies its constraints at every choice of the
challenges, against the program and the end of the processor's own product, then every row of the
processor executes a row of the program. -/
theorem executes_row_of_program (F : Type) [ExtensionField F] [LawfulExtension F] {source : String}
    {claim : Claim} (hcompile : Program.compile source = .ok claim.program)
    {processor : List ProcessorRow} {instruction : List InstructionRow} {heights : Heights}
    (hheights : heights = Heights.ofClaim claim processor.length)
    (hlength : instruction.length = heights.instruction) (hle : heights.instruction ≤ 2 ^ 30)
    (h : ∀ ch : Challenges F, ∃ pm terminals, ∃ m : TableColumns .instruction F,
      m.base = Table.baseMatrix .instruction instruction ∧
      Terminals.compute ch claim (heights.padding claim.program.size)
        ((Table.columns ch .processor processor).extension.last .ipa) pm = .ok terminals ∧
      (∀ c ∈ Table.transitions .instruction, m.SatisfiesTransition ch c) ∧
      ∀ p ∈ Table.points ch terminals claim.input.size claim.output.size heights.instruction
        .instruction, m.SatisfiesPoint p) :
    ∀ row ∈ processor, ∃ k : Nat,
      k < claim.program.size + 1 + heights.padding claim.program.size ∧
        row.instruction = wordRow claim.program k := by
  intro row hrow
  obtain ⟨count, hsize, hcount, hinstruction⟩ := exists_padding claim processor.length
  rw [← hheights] at hcount hinstruction
  rw [hcount]
  have hsum : instruction.length = count + processor.length := by omega
  have hbound : 2 ^ 30 < prime := by decide
  have hprogram := Program.cellProgram_of_compile hcompile (by omega)
  cases instruction with
  | nil =>
    have := List.length_pos_of_mem hrow
    rw [List.length_nil] at hsum
    omega
  | cons first rest =>
    have ends (ch : Challenges F) :
        ((repeats InstructionRow.ip first rest).map ch.instructionFactor).prod =
            ((processor.map (·.instruction)).map ch.instructionFactor).prod ∧
          foldRows ch (first :: firsts InstructionRow.ip first rest) =
            foldRows ch ((List.range count).map (wordRow claim.program)) := by
      obtain ⟨pm, terminals, m, hbase, hterminals, htransitions, hpoints⟩ := h ch
      rw [compute_eq hprogram ch hcount (by omega)] at hterminals
      obtain rfl := Except.ok.inj hterminals
      have hheight : (m.height : Int) = heights.instruction := by
        rw [← hlength, TableColumns.height_of_base hbase]
      obtain ⟨hproduct, hfold⟩ := terminals_of_satisfies hbase htransitions (hheight ▸ hpoints)
      rw [← hproduct, ← hfold, ← last_ipa ch (List.ne_nil_of_mem hrow), foldProgram_eq]
      exact ⟨rfl, rfl⟩
    -- The copies are as many as the processor's rows, which leaves as many rows that open an
    -- address as the program and its padding have.
    have hsplit := (repeats_append_firsts_perm InstructionRow.ip first rest).length_eq
    rw [List.length_append] at hsplit
    rw [List.length_cons] at hsum
    have hperm : (repeats InstructionRow.ip first rest).Perm (processor.map (·.instruction)) := by
      refine (prod_instructionFactor_iff (F := F) (by omega) ?_).mp fun ch => (ends ch).1
      rw [List.length_map]
      omega
    have hcopies := hperm.length_eq
    rw [List.length_map] at hcopies
    have hleaders : first :: firsts InstructionRow.ip first rest =
        (List.range count).map (wordRow claim.program) := by
      refine foldRows_injective (F := F) ?_ ?_ fun ch => (ends ch).2
      · rw [List.length_cons, List.length_map, List.length_range]
        omega
      · rw [List.length_cons]
        omega
    obtain ⟨_, _, m, hbase, -, htransitions, -⟩ := h (.powers F 0 0)
    have hsame : (first :: rest).IsChain fun r r' => r'.ip = r.ip → r' = r := by
      refine (isChain_of_satisfies hbase htransitions).imp fun r r' hstep hip => ?_
      refine hstep.resolve_right fun hnext => ?_
      simp [hip] at hnext
    have hmem := mem_cons_firsts_of_mem_repeats InstructionRow.ip hsame
      (hperm.mem_iff.mpr (List.mem_map_of_mem hrow))
    rw [hleaders] at hmem
    obtain ⟨k, hk, hrow⟩ := List.mem_map.mp hmem
    exact ⟨k, by exact_mod_cast List.mem_range.mp hk, hrow.symm⟩

/-- The run of the program `+.` and its heights. -/
private theorem exists_incWrite : ∃ t claim,
    simulate #[43, 46] ByteArray.empty 2 = .ok (t, claim) ∧
      (Heights.ofClaim claim (nextPowerOfTwo t.processor.length)).toList = [4, 4, 8, 1, 1] := by
  have h : ((simulate #[43, 46] ByteArray.empty 2).map fun x =>
      (Heights.ofClaim x.2 (nextPowerOfTwo x.1.processor.length)).toList) =
        .ok [4, 4, 8, 1, 1] := by cbv
  obtain ⟨⟨t, claim⟩, hsim, hheights⟩ := map_eq_ok.mp h
  exact ⟨t, claim, hsim, hheights⟩

theorem executes_row_of_written : ∃ t claim padded,
    simulate #[43, 46] ByteArray.empty 2 = .ok (t, claim) ∧ t.pad 2 = .ok padded ∧
      ∀ row ∈ padded.processor, ∃ k : Nat,
        k < 2 + 1 + (Heights.ofClaim claim padded.processor.length).padding 2 ∧
          row.instruction = wordRow #[43, 46] k := by
  obtain ⟨t, claim, hsim, hheights⟩ := exists_incWrite
  have hcompile : Program.compile "+." = .ok #[43, 46] := by decide +kernel
  obtain ⟨starts, hlayout⟩ := Program.exists_layout hcompile
  obtain ⟨r, hfits, rfl, rfl, -⟩ := Run.exists_of_simulate hsim
  have hheight : (nextPowerOfTwo r.trace.processor.length : Int) = r.height := by
    simp [Run.trace, Run.height]
  rw [hheight] at hheights
  have hle (T : Table) : (Heights.ofClaim r.claim r.height).get T ≤ 8 := by
    have small : ∀ n ∈ [(4 : Int), 4, 8, 1, 1], n ≤ 8 := by decide
    rw [← hheights] at small
    exact small _ (List.mem_map_of_mem T.mem_all)
  have hpad := r.padFits_of_heights fun T => (hle T).trans (by decide)
  obtain ⟨-, padded, hpadded, h⟩ | ⟨hno, -⟩ := r.pad_cases hfits
  · have hprocessor : padded.processor.length = r.height := by simp [h.processor]
    have hderived : padded.heights = Heights.ofClaim r.claim padded.processor.length := by
      rw [h.heights_eq, hprocessor]
    have satisfied (ch : Challenges Fp) := h.satisfies r hlayout hpad ch .instruction
    have computed (ch : Challenges Fp) := h.compute_terminals r hpad ch hfits
    rw [hderived] at satisfied computed
    have hclaim : Program.compile "+." = .ok r.claim.program := hcompile
    have hlength : padded.instruction.length =
        (Heights.ofClaim r.claim padded.processor.length).instruction := by
      rw [← hderived]
      rfl
    have hlow : (Heights.ofClaim r.claim padded.processor.length).instruction ≤ 2 ^ 30 := by
      rw [hprocessor]
      exact (hle .instruction).trans (by decide)
    exact ⟨r.trace, r.claim, padded, hsim, hpadded,
      executes_row_of_program Fp hclaim rfl hlength hlow fun ch =>
        ⟨(Table.columns ch .processor padded.processor).extension.last .mpa, r.terminals ch,
          Table.columns ch .instruction padded.instruction, rfl, computed ch, satisfied ch⟩⟩
  · exact absurd hpad hno

end Executed

/-! The evaluation of a program tells which program it is. Equal folds at all challenges make the
padded rows equal, so the programs agree up to zeros behind them; and a compiled program has no zero
among its words. -/

namespace Program

/-- No word is zero, but at the places that still miss their address. -/
def Filled (words : Program) (opens : List Nat) : Prop :=
  ∀ k < words.size, k ∉ opens → words.getD k 0 ≠ 0

namespace Filled

variable {words : Program} {opens : List Nat}

theorem push (h : Filled words opens) {w : Int} (hw : w ≠ 0) : Filled (words.push w) opens := by
  intro k hk hno
  rw [Array.size_push] at hk
  rcases Nat.lt_or_eq_of_le (Nat.le_of_lt_succ hk) with hlt | rfl
  · rw [getD_push_lt hlt]
    exact h k hlt hno
  · rwa [getD_push_size]

theorem push_place (h : Filled words opens) (w : Int) :
    Filled (words.push w) (words.size :: opens) := by
  intro k hk hno
  rw [Array.size_push] at hk
  rw [List.mem_cons, not_or] at hno
  have hlt : k < words.size := by omega
  rw [getD_push_lt hlt]
  exact h k hlt hno.2

theorem fill {p : Nat} (h : Filled words (p :: opens)) (hp : p < words.size) {w : Int}
    (hw : w ≠ 0) : Filled (words.setIfInBounds p w) opens := by
  intro k hk hno
  rw [Array.size_setIfInBounds] at hk
  rw [getD_set words p k w hp]
  by_cases hkp : k = p
  · rwa [if_pos hkp]
  · rw [if_neg hkp]
    refine h k hk ?_
    rw [List.mem_cons, not_or]
    exact ⟨hkp, hno⟩

end Filled

theorem filled_of_compile {source : String} {program : Program}
    (h : compile source = .ok program) : Filled program [] := by
  refine invariant_of_compile (P := Filled) ?_ ?_ ?_ ?_ h
  · intro words opens o hwords
    exact hwords.push (Instruction.code_ne_zero _)
  · intro words opens hwords
    have := (hwords.push (Instruction.code_ne_zero .opening)).push_place 0
    rwa [Array.size_push] at this
  · intro words p opens hp hwords
    have hpushed := (hwords.push (Instruction.code_ne_zero .closing)).push
      (w := (p : Int) + 1) (by omega)
    refine hpushed.fill ?_ (by omega)
    simp only [Array.size_push]
    omega
  · intro k hk
    simp at hk

theorem getD_ne_zero_of_compile {source : String} {program : Program}
    (h : compile source = .ok program) {k : Nat} (hk : k < program.size) :
    program.getD k 0 ≠ 0 :=
  filled_of_compile h k hk List.not_mem_nil

/-- Programs without zeros that agree up to zeros behind them are equal. -/
theorem eq_of_getD_eq {program program' : Program}
    (hne : ∀ k < program.size, program.getD k 0 ≠ 0)
    (hne' : ∀ k < program'.size, program'.getD k 0 ≠ 0)
    (h : ∀ k < max program.size program'.size, program.getD k 0 = program'.getD k 0) :
    program = program' := by
  have behind (words : Program) : words.getD words.size 0 = 0 := by
    rw [Array.getD_eq_getD_getElem?, Array.getElem?_eq_none (Nat.le_refl _), Option.getD_none]
  have hsize : program.size = program'.size := by
    rcases Nat.lt_trichotomy program.size program'.size with hlt | heq | hgt
    · exact absurd ((h _ (by omega)).symm.trans (behind program)) (hne' _ hlt)
    · exact heq
    · exact absurd ((h _ (by omega)).trans (behind program')) (hne _ hgt)
  refine Array.ext hsize fun k hk hk' => ?_
  have := h k (by omega)
  rwa [Array.getD_eq_getD_getElem?, Array.getElem?_eq_getElem hk, Array.getD_eq_getD_getElem?,
    Array.getElem?_eq_getElem hk'] at this

end Program

/-- The words of two programs with equal rows agree. -/
theorem getD_eq_of_wordRow_eq {program program' : Program} (h : CellProgram program)
    (h' : CellProgram program') {k : Nat} (hrow : wordRow program k = wordRow program' k) :
    program.getD k 0 = program'.getD k 0 := by
  obtain ⟨h0, hp⟩ := h.word k
  obtain ⟨h0', hp'⟩ := h'.word k
  have hval : (Fp.ofInt (program.getD k 0)).val = (Fp.ofInt (program'.getD k 0)).val :=
    congrArg (fun row => row.ci.val) hrow
  rw [Fp.val_ofInt_of_lt h0 hp, Fp.val_ofInt_of_lt h0' hp'] at hval
  omega

/-- Compiled programs, padded to the same number of rows, have an evaluation at all challenges, and
these agree exactly if the programs are equal. -/
theorem evaluateProgram_eq_iff {source source' : String} {program program' : Program}
    (hcompile : Program.compile source = .ok program)
    (hcompile' : Program.compile source' = .ok program') {padding padding' : Nat}
    (hlength : program.size + padding = program'.size + padding')
    (hlt : program.size + padding < 2 ^ 32) :
    (∀ ch : Challenges Fp, ∃ v, evaluateProgram program padding ch = .ok v) ∧
      ((∀ ch : Challenges Fp,
        evaluateProgram program padding ch = evaluateProgram program' padding' ch) ↔
          program = program') := by
  have hbound : 2 ^ 32 < prime := by decide
  have hcells := Program.cellProgram_of_compile hcompile (by omega)
  have hcells' := Program.cellProgram_of_compile hcompile' (by omega)
  have heval (ch : Challenges Fp) : evaluateProgram program padding ch =
      .ok (foldProgram ch program (program.size + padding + 1)) :=
    evaluateProgram_eq hcells ch (by push_cast; ring) (by omega)
  have heval' (ch : Challenges Fp) : evaluateProgram program' padding' ch =
      .ok (foldProgram ch program' (program.size + padding + 1)) :=
    evaluateProgram_eq hcells' ch (by rw [hlength]; push_cast; ring) (by omega)
  refine ⟨fun ch => ⟨_, heval ch⟩, fun h => ?_, ?_⟩
  · have hrows : (List.range (program.size + padding + 1)).map (wordRow program) =
        (List.range (program.size + padding + 1)).map (wordRow program') := by
      refine foldRows_injective (F := Fp) (by simp) ?_ fun ch => ?_
      · rw [List.length_map, List.length_range]
        omega
      · rw [← foldProgram_eq, ← foldProgram_eq]
        exact Except.ok.inj ((heval ch).symm.trans ((h ch).trans (heval' ch)))
    refine Program.eq_of_getD_eq (fun k => Program.getD_ne_zero_of_compile hcompile)
      (fun k => Program.getD_ne_zero_of_compile hcompile') fun k hk => ?_
    exact getD_eq_of_wordRow_eq hcells hcells'
      (List.map_inj_left.mp hrows k (List.mem_range.mpr (by omega)))
  · rintro rfl ch
    rw [heval ch, heval' ch]

/-- Two programs of which one has a word where the other is padded. -/
theorem evaluateProgram_ne_of_longer : ¬ ∀ ch : Challenges Fp,
    evaluateProgram #[43, 46] 1 ch = evaluateProgram #[43, 46, 43] 0 ch := by
  have hcompile : Program.compile "+." = .ok #[43, 46] := by decide +kernel
  have hcompile' : Program.compile "+.+" = .ok #[43, 46, 43] := by decide +kernel
  have hlength : (#[43, 46] : Program).size + 1 = (#[43, 46, 43] : Program).size + 0 := rfl
  intro h
  exact absurd ((evaluateProgram_eq_iff hcompile hcompile' hlength (by decide)).2.mp h) (by decide)

end TapeStark
