import Mathlib
import TapeStark.Proofs.Air.Columns
import TapeStark.Proofs.Air.Evaluation
import TapeStark.Proofs.Air.Processor

/-! The constraints on the extension columns against their computation. Every column has a first
entry and goes on from row to row by a rule of its own; over rows with proper selectors and address
steps, the constraints in which an extension cell occurs say exactly that. So they allow one
assignment, the one that is computed. -/

namespace TapeStark

open ExtensionField

/-- The column is filled in from the challenges. -/
def Column.isExt {β ε : Type} : Column β ε → Bool
  | .base _ => false
  | .ext _ => true

def Expr.hasExt {β ε : Type} : Expr (Column β ε) → Bool
  | .cur c | .next c => c.isExt
  | .challenge _ | .const _ => false
  | .add x y | .sub x y | .mul x y => x.hasExt || y.hasExt

theorem ProcessorExt.forall_iff {p : ProcessorExt → Prop} :
    (∀ c, p c) ↔ p .ipa ∧ p .mpa ∧ p .ipo ∧ p .opo := by
  constructor
  · intro h
    exact ⟨h .ipa, h .mpa, h .ipo, h .opo⟩
  · rintro ⟨hipa, hmpa, hipo, hopo⟩ c
    cases c with
    | ipa => exact hipa
    | mpa => exact hmpa
    | ipo => exact hipo
    | opo => exact hopo

theorem MemoryExt.forall_iff {p : MemoryExt → Prop} : (∀ c, p c) ↔ p .ppa :=
  ⟨fun h => h .ppa, fun h c => by cases c; exact h⟩

theorem InstructionExt.forall_iff {p : InstructionExt → Prop} :
    (∀ c, p c) ↔ p .ppa ∧ p .pea := by
  constructor
  · intro h
    exact ⟨h .ppa, h .pea⟩
  · rintro ⟨hppa, hpea⟩ c
    cases c with
    | ppa => exact hppa
    | pea => exact hpea

theorem StreamExt.forall_iff {p : StreamExt → Prop} : (∀ c, p c) ↔ p .eval :=
  ⟨fun h => h .eval, fun h c => by cases c; exact h⟩

variable {F : Type} [ExtensionField F]

namespace Table

/-- The relations between consecutive rows in which an extension cell occurs. -/
def extensionTransitions (t : Table) : List (Transition t.Column) :=
  t.transitions.filter (·.expr.hasExt)

/-- The relations on the first row in which an extension cell occurs. -/
def extensionStarts (ch : Challenges F) (t : Table) : List (PointConstraint t.Column F) :=
  (t.boundary ch).filter fun p => p.terms.any (·.1.isExt)

def baseTransitions (t : Table) : List (Transition t.Column) :=
  t.transitions.filter (!·.expr.hasExt)

def baseStarts (ch : Challenges F) (t : Table) : List (PointConstraint t.Column F) :=
  (t.boundary ch).filter fun p => !p.terms.any (·.1.isExt)

/-- The rows of a table beside extension columns of any entries. -/
def withExtension (t : Table) (rows : List t.Row) (e : t.Ext → Array F) : TableColumns t F :=
  ⟨t.baseMatrix rows, .ofColumns ColumnSet.all e⟩

def firstExt (ch : Challenges F) : (t : Table) → t.Ext → t.Row → F
  | processor, .ipa, r => ch.instructionFactor r.instruction
  | processor, .mpa, r => ch.memoryFactor r.memory
  | processor, .ipo, _ => 0
  | processor, .opo, _ => 0
  | memory, .ppa, r => ch.memoryFactor r
  | instruction, .ppa, _ => 1
  | instruction, .pea, r => ch.compress r
  | input, .eval, r => ofBase r.value
  | output, .eval, r => ofBase r.value

/-- The entry of an extension column at a row, from the one before it and the row before. -/
def nextExt (ch : Challenges F) : (t : Table) → t.Ext → F → t.Row → t.Row → F
  | processor, .ipa, acc, _, r' => acc * ch.instructionFactor r'.instruction
  | processor, .mpa, acc, _, r' => acc * ch.memoryFactor r'.memory
  | processor, .ipo, acc, r, r' =>
    if r.flag (.op .read) = 0 then acc else acc * ch.gamma + ofBase r'.mv
  | processor, .opo, acc, r, _ =>
    if r.flag (.op .write) = 0 then acc else acc * ch.delta + ofBase r.mv
  | memory, .ppa, acc, _, r' => acc * ch.memoryFactor r'
  | instruction, .ppa, acc, r, r' =>
    if r'.ip = r.ip then acc * ch.instructionFactor r' else acc
  | instruction, .pea, acc, r, r' =>
    if r'.ip = r.ip then acc else acc * ch.eta + ch.compress r'
  | input, .eval, acc, _, r' => acc * ch.gamma + ofBase r'.value
  | output, .eval, acc, _, r' => acc * ch.delta + ofBase r'.value

/-- The columns as they are computed follow these rules. -/
theorem extension_eq (ch : Challenges F) {t : Table} {rows : List t.Row} (h : 0 < rows.length)
    (c : t.Ext) :
    t.extension ch rows c = scanRows (nextExt ch t c) (firstExt ch t c rows[0]) rows := by
  cases rows with
  | nil => simp at h
  | cons r rest => cases t <;> cases c <;> rfl

/-- Extension columns are as long as the table. -/
theorem length_extension (ch : Challenges F) (t : Table) (rows : List t.Row) (c : t.Ext) :
    (t.extension ch rows c).length = rows.length := by
  rcases Nat.eq_zero_or_pos rows.length with h | h
  · obtain rfl := List.length_eq_zero_iff.mp h
    cases t <;> cases c <;> rfl
  · rw [extension_eq ch h, length_scanRows]

/-- Two consecutive rows that determine the extension cells at the second: a selector is zero or
one, and an address is repeated or counted up. -/
def RegularStep : (t : Table) → t.Row → t.Row → Prop
  | processor, r, _ => ∀ i, r.flag i = 0 ∨ r.flag i = 1
  | instruction, r, r' => r'.ip - r.ip = 0 ∨ r'.ip - r.ip = 1
  | memory, _, _ => True
  | input, _, _ => True
  | output, _, _ => True

/-- The selectors of all rows are zero or one, and all address steps are. -/
def Regular : (t : Table) → List t.Row → Prop
  | processor, rows => ∀ r ∈ rows, ∀ i, r.flag i = 0 ∨ r.flag i = 1
  | instruction, rows => rows.IsChain fun r r' => r'.ip - r.ip = 0 ∨ r'.ip - r.ip = 1
  | memory, _ => True
  | input, _ => True
  | output, _ => True

theorem Regular.step {t : Table} {rows : List t.Row} (h : t.Regular rows) {i : Nat}
    (hi : i + 1 < rows.length) : t.RegularStep rows[i] rows[i + 1] := by
  cases t with
  | processor => exact h _ (List.getElem_mem _)
  | instruction => exact List.isChain_iff_getElem.mp h i hi
  | memory => trivial
  | input => trivial
  | output => trivial

end Table

variable [LawfulExtension F] {ch : Challenges F}

/-- A constraint that adds `x - a` where a selector is off and `x - b` where it is on. -/
theorem selected_iff {s : Fp} (hs : s = 0 ∨ s = 1) {x a b : F} :
    x - a - ofBase s * (b - a) = 0 ↔ x = if s = 0 then a else b := by
  rcases hs with rfl | rfl
  · rw [ofBase_zero, if_pos rfl, zero_mul, sub_zero, sub_eq_zero]
  · rw [ofBase_one, if_neg one_ne_zero, one_mul, sub_sub, add_sub_cancel, sub_eq_zero]

omit [LawfulExtension F] in
/-- Constraints by their expressions. -/
theorem forall_eval_iff {κ : Type} {constraints : List (Transition κ)} (exprs : List (Expr κ))
    (h : constraints.map (·.expr) = exprs) {cur next : κ → F} :
    (∀ c ∈ constraints, c.expr.eval cur next ch = 0) ↔ ∀ x ∈ exprs, x.eval cur next ch = 0 := by
  rw [← h, List.forall_mem_map]

/-- A constraint that is the difference of a cell and its entry. -/
theorem start_iff {d x y : F} (h : d = x - y) : d = 0 ↔ x = y := by
  rw [h, sub_eq_zero]

namespace Air

theorem Processor.extensionTransitions_iff {r r' : ProcessorRow}
    (h : Table.RegularStep .processor r r') (e e' : ProcessorExt → F)
    {cur next : Column ProcessorBase ProcessorExt → F}
    (hcur : cur = Table.Row.cells (t := .processor) r e)
    (hnext : next = Table.Row.cells (t := .processor) r' e') :
    (∀ c ∈ Table.extensionTransitions .processor, c.expr.eval cur next ch = 0) ↔
      ∀ c, e' c = Table.nextExt ch .processor c (e c) r r' := by
  have hrow : rowFactor.eval cur next ch = ch.instructionFactor r'.instruction := by
    subst hnext
    exact eval_instructionFactor r'.instruction rfl rfl rfl
  have hcell : cellFactor.eval cur next ch = ch.memoryFactor r'.memory := by
    subst hnext
    exact eval_memoryFactor r'.memory rfl rfl rfl
  have hipa : instructionPermutation.eval cur next ch =
      e' .ipa - e .ipa * ch.instructionFactor r'.instruction := by
    rw [instructionPermutation, Expr.eval_sub, Expr.eval_mul, hrow, hcur, hnext]
    rfl
  have hmpa : memoryPermutation.eval cur next ch =
      e' .mpa - e .mpa * ch.memoryFactor r'.memory := by
    rw [memoryPermutation, Expr.eval_sub, Expr.eval_mul, hcell, hcur, hnext]
    rfl
  have taken (column : ProcessorExt) (i : Instruction) (challenge : Challenge) (byte : Cell)
      (b : Fp) (hbyte : byte.eval cur next ch = ofBase b) :
      (evaluation column i challenge byte).eval cur next ch = 0 ↔
        e' column = if r.flag i = 0 then e column
          else e column * ch.get challenge + ofBase b := by
    rw [eval_evaluation, hbyte, hcur, hnext]
    exact selected_iff (h i)
  have hread := taken .ipo (.op .read) .gamma (Expr.base' .mv) r'.mv (by rw [hnext]; rfl)
  have hwrite := taken .opo (.op .write) .delta (Expr.base .mv) r.mv (by rw [hcur]; rfl)
  rw [forall_eval_iff [instructionPermutation, memoryPermutation, inputEvaluation, outputEvaluation]
    rfl]
  simp only [List.forall_mem_cons, List.not_mem_nil, false_implies, implies_true, and_true, hipa,
    hmpa, inputEvaluation, outputEvaluation, hread, hwrite, sub_eq_zero]
  rw [ProcessorExt.forall_iff]
  rfl

theorem Processor.extensionStarts_iff (r : ProcessorRow) (e : ProcessorExt → F)
    {cur : Column ProcessorBase ProcessorExt → F}
    (hcur : cur = Table.Row.cells (t := .processor) r e) :
    (∀ p ∈ Table.extensionStarts ch .processor, p.eval cur = 0) ↔
      ∀ c, e c = Table.firstExt ch .processor c r := by
  change (∀ p ∈ (boundary ch).drop 4, p.eval cur = 0) ↔ _
  simp only [boundary, List.drop_succ_cons, List.drop_zero, List.forall_mem_cons, List.not_mem_nil,
    false_implies, implies_true, and_true, PointConstraint.eval, List.foldl_cons, List.foldl_nil,
    hcur, Table.Row.cells, Table.Row.get]
  rw [ProcessorExt.forall_iff]
  refine and_congr (start_iff ?_)
    (and_congr (start_iff ?_) (and_congr (start_iff ?_) (start_iff ?_)))
  · rw [Table.firstExt, Challenges.instructionFactor, Challenges.compress,
      ProcessorRow.instruction]
    ring
  · rw [Table.firstExt, Challenges.memoryFactor, ProcessorRow.memory]
    ring
  · rw [Table.firstExt]
    ring
  · rw [Table.firstExt]
    ring

theorem Memory.extensionTransitions_iff {r r' : MemoryRow} (e e' : MemoryExt → F)
    {cur next : Column MemoryBase MemoryExt → F}
    (hcur : cur = Table.Row.cells (t := .memory) r e)
    (hnext : next = Table.Row.cells (t := .memory) r' e') :
    (∀ c ∈ Table.extensionTransitions .memory, c.expr.eval cur next ch = 0) ↔
      ∀ c, e' c = Table.nextExt ch .memory c (e c) r r' := by
  have hfactor : factor.eval cur next ch = ch.memoryFactor r' := by
    subst hnext
    exact eval_memoryFactor r' rfl rfl rfl
  have hppa : permutation.eval cur next ch = e' .ppa - e .ppa * ch.memoryFactor r' := by
    rw [permutation, Expr.eval_sub, Expr.eval_mul, hfactor, hcur, hnext]
    rfl
  rw [forall_eval_iff [permutation] rfl, List.forall_mem_singleton, hppa, sub_eq_zero,
    MemoryExt.forall_iff]
  rfl

theorem Memory.extensionStarts_iff (r : MemoryRow) (e : MemoryExt → F)
    {cur : Column MemoryBase MemoryExt → F} (hcur : cur = Table.Row.cells (t := .memory) r e) :
    (∀ p ∈ Table.extensionStarts ch .memory, p.eval cur = 0) ↔
      ∀ c, e c = Table.firstExt ch .memory c r := by
  change (∀ p ∈ (boundary ch).drop 3, p.eval cur = 0) ↔ _
  simp only [boundary, List.drop_succ_cons, List.drop_zero, List.forall_mem_singleton,
    PointConstraint.eval, List.foldl_cons, List.foldl_nil, hcur, Table.Row.cells, Table.Row.get]
  rw [MemoryExt.forall_iff]
  refine start_iff ?_
  rw [Table.firstExt, Challenges.memoryFactor]
  ring

/-- A constraint with a part for each of the two steps of an address. -/
theorem step_iff {s : Fp} (hs : s = 0 ∨ s = 1) {x y : F} :
    (ofBase s * x + (ofBase s - 1) * y = 0 ↔ if s = 0 then y = 0 else x = 0) := by
  rcases hs with rfl | rfl
  · rw [ofBase_zero, if_pos rfl, zero_mul, zero_add, zero_sub, neg_one_mul, neg_eq_zero]
  · rw [ofBase_one, if_neg one_ne_zero, sub_self, zero_mul, add_zero, one_mul]

theorem Instruction.extensionTransitions_iff {r r' : InstructionRow}
    (h : Table.RegularStep .instruction r r') (e e' : InstructionExt → F)
    {cur next : Column InstructionBase InstructionExt → F}
    (hcur : cur = Table.Row.cells (t := .instruction) r e)
    (hnext : next = Table.Row.cells (t := .instruction) r' e') :
    (∀ c ∈ Table.extensionTransitions .instruction, c.expr.eval cur next ch = 0) ↔
      ∀ c, e' c = Table.nextExt ch .instruction c (e c) r r' := by
  have hfactor : factor.eval cur next ch = ch.instructionFactor r' := by
    subst hnext
    exact eval_instructionFactor r' rfl rfl rfl
  have hcompressed : compressed.eval cur next ch = ch.compress r' := by
    subst hnext
    rfl
  have hstep : step.eval cur next ch = ofBase (r'.ip - r.ip) := by
    rw [ofBase_sub, hcur, hnext]
    rfl
  have hppa : permutation.eval cur next ch = ofBase (r'.ip - r.ip) * (e' .ppa - e .ppa) +
      (ofBase (r'.ip - r.ip) - 1) * (e' .ppa - e .ppa * ch.instructionFactor r') := by
    rw [permutation]
    simp only [Expr.eval_add, Expr.eval_sub, Expr.eval_mul, Expr.eval_one, hstep, hfactor]
    rw [hcur, hnext]
    rfl
  have hpea : programEvaluation.eval cur next ch =
      ofBase (r'.ip - r.ip) * (e' .pea - e .pea * ch.eta - ch.compress r') +
        (ofBase (r'.ip - r.ip) - 1) * (e' .pea - e .pea) := by
    rw [programEvaluation, Expr.eval_add, add_comm]
    simp only [Expr.eval_sub, Expr.eval_mul, Expr.eval_one, hstep, hcompressed]
    rw [hcur, hnext]
    rfl
  rw [forall_eval_iff [permutation, programEvaluation] rfl]
  simp only [List.forall_mem_cons, List.not_mem_nil, false_implies, implies_true, and_true, hppa,
    hpea, step_iff h, sub_sub, sub_eq_zero]
  -- Each column keeps its entry in one of the two cases and takes in the row in the other.
  have ppa_iff : (if r'.ip = r.ip then e' .ppa = e .ppa * ch.instructionFactor r'
      else e' .ppa = e .ppa) ↔ e' .ppa = Table.nextExt ch .instruction .ppa (e .ppa) r r' := by
    rw [Table.nextExt]
    split <;> rfl
  have pea_iff : (if r'.ip = r.ip then e' .pea = e .pea
      else e' .pea = e .pea * ch.eta + ch.compress r') ↔
        e' .pea = Table.nextExt ch .instruction .pea (e .pea) r r' := by
    rw [Table.nextExt]
    split <;> rfl
  rw [ppa_iff, pea_iff, InstructionExt.forall_iff]

theorem Instruction.extensionStarts_iff (r : InstructionRow) (e : InstructionExt → F)
    {cur : Column InstructionBase InstructionExt → F}
    (hcur : cur = Table.Row.cells (t := .instruction) r e) :
    (∀ p ∈ Table.extensionStarts ch .instruction, p.eval cur = 0) ↔
      ∀ c, e c = Table.firstExt ch .instruction c r := by
  change (∀ p ∈ (boundary ch).drop 1, p.eval cur = 0) ↔ _
  simp only [boundary, List.drop_succ_cons, List.drop_zero, List.forall_mem_cons, List.not_mem_nil,
    false_implies, implies_true, and_true, PointConstraint.eval, List.foldl_cons, List.foldl_nil,
    hcur, Table.Row.cells, Table.Row.get]
  rw [InstructionExt.forall_iff]
  refine and_congr (start_iff ?_) (start_iff ?_)
  · rw [Table.firstExt]
    ring
  · rw [Table.firstExt, Challenges.compress]
    ring

theorem Stream.extensionTransitions_iff {challenge : Challenge} {acc acc' : F} {r' : StreamRow}
    {cur next : Column StreamBase StreamExt → F} (hcur : cur (.ext .eval) = acc)
    (hnext : next (.ext .eval) = acc') (hvalue : next (.base .value) = ofBase r'.value) :
    (∀ c ∈ (transitions challenge).filter (·.expr.hasExt), c.expr.eval cur next ch = 0) ↔
      acc' = acc * ch.get challenge + ofBase r'.value := by
  rw [forall_eval_iff [evaluation challenge] rfl, List.forall_mem_singleton,
    eval_evaluation, sub_sub, sub_eq_zero, hcur, hnext, hvalue]

theorem Stream.extensionStarts_iff {acc : F} {r : StreamRow}
    {cur : Column StreamBase StreamExt → F} (hcur : cur (.ext .eval) = acc)
    (hvalue : cur (.base .value) = ofBase r.value) :
    (∀ p ∈ (boundary : List (PointConstraint _ F)).filter (·.terms.any (·.1.isExt)),
      p.eval cur = 0) ↔ acc = ofBase r.value := by
  change (∀ p ∈ (boundary : List (PointConstraint _ F)), p.eval cur = 0) ↔ _
  simp only [boundary, List.forall_mem_singleton, PointConstraint.eval, List.foldl_cons,
    List.foldl_nil, hcur, hvalue]
  refine start_iff ?_
  ring

end Air

namespace Table

/-- Between two regular rows, the constraints give the extension cells of the second. -/
theorem extensionTransitions_iff {t : Table} {r r' : t.Row} (h : t.RegularStep r r')
    (e e' : t.Ext → F) :
    (∀ c ∈ t.extensionTransitions, c.expr.eval (r.cells e) (r'.cells e') ch = 0) ↔
      ∀ c, e' c = nextExt ch t c (e c) r r' := by
  cases t with
  | processor => exact Air.Processor.extensionTransitions_iff h e e' rfl rfl
  | memory => exact Air.Memory.extensionTransitions_iff e e' rfl rfl
  | instruction => exact Air.Instruction.extensionTransitions_iff h e e' rfl rfl
  | input =>
    exact (Air.Stream.extensionTransitions_iff rfl rfl rfl).trans
      (StreamExt.forall_iff (p := fun c => e' c = nextExt ch .input c (e c) r r')).symm
  | output =>
    exact (Air.Stream.extensionTransitions_iff rfl rfl rfl).trans
      (StreamExt.forall_iff (p := fun c => e' c = nextExt ch .output c (e c) r r')).symm

/-- On the first row, the constraints give its extension cells. -/
theorem extensionStarts_iff {t : Table} (r : t.Row) (e : t.Ext → F) :
    (∀ p ∈ t.extensionStarts ch, p.eval (r.cells e) = 0) ↔ ∀ c, e c = firstExt ch t c r := by
  cases t with
  | processor => exact Air.Processor.extensionStarts_iff r e rfl
  | memory => exact Air.Memory.extensionStarts_iff r e rfl
  | instruction => exact Air.Instruction.extensionStarts_iff r e rfl
  | input =>
    exact (Air.Stream.extensionStarts_iff rfl rfl).trans
      (StreamExt.forall_iff (p := fun c => e c = firstExt ch .input c r)).symm
  | output =>
    exact (Air.Stream.extensionStarts_iff rfl rfl).trans
      (StreamExt.forall_iff (p := fun c => e c = firstExt ch .output c r)).symm

omit [LawfulExtension F] in
theorem row_of_mem_boundary {t : Table} : ∀ p ∈ t.boundary ch, p.row = 0 := by
  cases t with
  | processor => simp [boundary, Air.Processor.boundary]
  | memory => simp [boundary, Air.Memory.boundary]
  | instruction => simp [boundary, Air.Instruction.boundary]
  | input => simp [boundary, Air.Stream.boundary]
  | output => simp [boundary, Air.Stream.boundary]

/-- Over regular rows, the constraints on the extension columns hold exactly if the columns are the
ones computed from the rows and the challenges. -/
theorem satisfiesExtension_iff {t : Table} {rows : List t.Row} (hpos : 0 < rows.length)
    (hregular : t.Regular rows) {m : TableColumns t F} (hbase : m.base = t.baseMatrix rows) :
    ((∀ c ∈ t.extensionTransitions, m.SatisfiesTransition ch c) ∧
        ∀ p ∈ t.extensionStarts ch, m.SatisfiesPoint p) ↔
      ∀ c, ∀ i < rows.length, m.cell i (.ext c) = (t.extension ch rows c).getD i 0 := by
  have hheight : m.height = rows.length := TableColumns.height_of_base hbase
  -- The constraints at one place say what the entries there are.
  have transitions_iff : (∀ c ∈ t.extensionTransitions, m.SatisfiesTransition ch c) ↔
      ∀ c i (_ : i + 1 < rows.length),
        m.cell (i + 1) (.ext c) = nextExt ch t c (m.cell i (.ext c)) rows[i] rows[i + 1] := by
    have between (i : Nat) (hi : i + 1 < rows.length) :
        (∀ c ∈ t.extensionTransitions, c.expr.eval (m.cell i) (m.cell (i + 1)) ch = 0) ↔
          ∀ c, m.cell (i + 1) (.ext c) =
            nextExt ch t c (m.cell i (.ext c)) rows[i] rows[i + 1] := by
      rw [TableColumns.cell_of_base hbase i (by omega), TableColumns.cell_of_base hbase (i + 1) hi]
      exact extensionTransitions_iff (hregular.step hi) _ _
    constructor
    · intro h c i hi
      exact (between i hi).mp (fun c hc => h c hc i (by rwa [hheight])) c
    · intro h c hc i hi
      rw [hheight] at hi
      exact (between i hi).mpr (fun c => h c i hi) c hc
  have starts_iff : (∀ p ∈ t.extensionStarts ch, m.SatisfiesPoint p) ↔
      ∀ c, m.cell 0 (.ext c) = firstExt ch t c rows[0] := by
    refine Iff.trans (forall₂_congr fun p hp => ?_)
      (extensionStarts_iff rows[0] fun c => m.cell 0 (.ext c))
    rw [TableColumns.SatisfiesPoint, PointConstraint.holds_iff (k := 0)
      (row_of_mem_boundary p (List.mem_of_mem_filter hp)) (by rwa [hheight]),
      TableColumns.cell_of_base hbase 0 hpos]
    rfl
  rw [transitions_iff, starts_iff, ← forall_and]
  refine forall_congr' fun c => ?_
  rw [extension_eq ch hpos, forall_eq_getD_scanRows_iff _ _ 0 hpos, and_comm]

section Computed

variable (ch) {t : Table} {rows : List t.Row} (hpos : 0 < rows.length) (hregular : t.Regular rows)

include hpos hregular

theorem columns_satisfyExtension :
    (∀ c ∈ t.extensionTransitions, (t.columns ch rows).SatisfiesTransition ch c) ∧
      ∀ p ∈ t.extensionStarts ch, (t.columns ch rows).SatisfiesPoint p :=
  (satisfiesExtension_iff hpos hregular rfl).mpr fun c i _ => column_extension ch rows c i

/-- The computed columns leave only the constraints on the base columns to be met. -/
theorem columns_satisfyTransitions
    (h : ∀ c ∈ t.baseTransitions, (t.columns ch rows).SatisfiesTransition ch c) :
    ∀ c ∈ t.transitions, (t.columns ch rows).SatisfiesTransition ch c := by
  intro c hc
  cases hext : c.expr.hasExt with
  | true =>
    exact (columns_satisfyExtension ch hpos hregular).1 c (List.mem_filter.mpr ⟨hc, hext⟩)
  | false => exact h c (List.mem_filter.mpr ⟨hc, by rw [hext]; rfl⟩)

theorem columns_satisfyBoundary
    (h : ∀ p ∈ t.baseStarts ch, (t.columns ch rows).SatisfiesPoint p) :
    ∀ p ∈ t.boundary ch, (t.columns ch rows).SatisfiesPoint p := by
  intro p hp
  cases hext : p.terms.any (·.1.isExt) with
  | true =>
    exact (columns_satisfyExtension ch hpos hregular).2 p (List.mem_filter.mpr ⟨hp, hext⟩)
  | false => exact h p (List.mem_filter.mpr ⟨hp, by rw [hext]; rfl⟩)

end Computed

omit [LawfulExtension F] in
/-- The computed extension columns are these exactly if each entry is. -/
theorem extensionMatrix_eq_iff (ch : Challenges F) {t : Table} {rows : List t.Row}
    (h : 0 < rows.length) {e : t.Ext → Array F} (hsize : ∀ c, (e c).size = rows.length) :
    t.extensionMatrix ch rows = .ok (.ofColumns ColumnSet.all e) ↔
      ∀ c, ∀ i < rows.length, (t.withExtension rows e).cell i (.ext c) =
        (t.extension ch rows c).getD i 0 := by
  have hcell (c : t.Ext) (i : Nat) : (t.withExtension rows e).cell i (.ext c) = (e c).getD i 0 :=
    congrArg (·.getD i 0) (Matrix.column_ofColumns e (mem_ext c))
  rw [extensionMatrix, if_neg (by omega), Except.ok.injEq]
  constructor
  · intro heq c i _
    have hcolumn := Matrix.column_ofColumns e (mem_ext c)
    rw [← heq] at hcolumn
    rw [hcell, ← hcolumn]
    exact column_extension ch rows c i
  · intro hall
    have hcolumn (c : t.Ext) : (t.extension ch rows c).toArray = e c := by
      have hlength := length_extension ch t rows c
      refine Array.ext (by rw [List.size_toArray, hlength, hsize]) fun i hi hi' => ?_
      have hentry := hall c i (by rwa [← hsize c])
      rw [hcell, Array.getD_eq_getD_getElem?, Array.getElem?_eq_getElem hi', Option.getD_some,
        List.getD_eq_getElem _ _ (by rwa [List.size_toArray] at hi)] at hentry
      rw [List.getElem_toArray, hentry]
    simp only [hcolumn]
    rfl

/-- Extension columns of any entries over regular rows satisfy the constraints on them, and start as
these ask, exactly if they are the ones computed from the rows and the challenges. -/
theorem extension_satisfies_iff (F : Type) [ExtensionField F] [LawfulExtension F]
    (ch : Challenges F) (t : Table) {rows : List t.Row} (hrows : rows ≠ [])
    (hregular : t.Regular rows) {e : t.Ext → Array F} (hsize : ∀ c, (e c).size = rows.length) :
    ((∀ c ∈ t.extensionTransitions, (t.withExtension rows e).SatisfiesTransition ch c) ∧
        ∀ p ∈ t.extensionStarts ch, (t.withExtension rows e).SatisfiesPoint p) ↔
      t.extensionMatrix ch rows = .ok (.ofColumns ColumnSet.all e) := by
  have hpos : 0 < rows.length := List.length_pos_iff.mpr hrows
  rw [extensionMatrix_eq_iff ch hpos hsize]
  exact satisfiesExtension_iff hpos hregular rfl

example : Table.all.map (fun t => t.extensionTransitions.map (·.name)) =
    [["instruction_permutation", "memory_permutation", "input_evaluation", "output_evaluation"],
      ["permutation"], ["permutation", "program_evaluation"], ["evaluation"], ["evaluation"]] := rfl

/-- The processor reads a byte and writes it. -/
private def echoRows : List ProcessorRow :=
  [⟨0, 0, .ofNat 44, .ofNat 46, 0, 0, 0, fun i => if i = .op .read then 1 else 0⟩,
    ⟨1, 1, .ofNat 46, 0, 0, .ofNat 5, 0, fun i => if i = .op .write then 1 else 0⟩,
    ⟨.ofNat 2, .ofNat 2, 0, 0, 0, .ofNat 5, 0, fun _ => 0⟩]

private def echoChallenges : Challenges Fp :=
  ⟨1, .ofNat 2, .ofNat 3, .ofNat 4, .ofNat 5, .ofNat 6, .ofNat 1000, .ofNat 2000, .ofNat 7,
    .ofNat 11, .ofNat 13⟩

/-- The extension columns with this byte read. -/
private def echoColumns (byte : Fp) : ProcessorExt → Array Fp
  | .ipa => #[.ofNat 774, .ofNat 702018, .ofNat 700613964]
  | .mpa => #[.ofNat 2000, .ofNat 3932000, .ofNat 7714584000]
  | .ipo => #[0, byte, byte]
  | .opo => #[0, 0, .ofNat 5]

private theorem echo_regular : Regular .processor echoRows := by
  have selector (i j : Instruction) :
      (if i = j then (1 : Fp) else 0) = 0 ∨ (if i = j then (1 : Fp) else 0) = 1 := by
    split
    · exact .inr rfl
    · exact .inl rfl
  intro r hr i
  simp only [echoRows, List.mem_cons, List.not_mem_nil, or_false] at hr
  rcases hr with rfl | rfl | rfl
  · exact selector i _
  · exact selector i _
  · exact .inl rfl

/-- The constraints hold for the byte that the rows have, and not for another. -/
theorem extension_satisfies_of_echo :
    ((∀ c ∈ extensionTransitions .processor, (withExtension .processor echoRows
        (echoColumns (.ofNat 5))).SatisfiesTransition echoChallenges c) ∧
      ∀ p ∈ extensionStarts echoChallenges .processor, (withExtension .processor echoRows
        (echoColumns (.ofNat 5))).SatisfiesPoint p) ∧
    ¬ ((∀ c ∈ extensionTransitions .processor, (withExtension .processor echoRows
        (echoColumns (.ofNat 6))).SatisfiesTransition echoChallenges c) ∧
      ∀ p ∈ extensionStarts echoChallenges .processor, (withExtension .processor echoRows
        (echoColumns (.ofNat 6))).SatisfiesPoint p) := by
  have size (byte : Fp) (c : ProcessorExt) : (echoColumns byte c).size = echoRows.length := by
    cases c <;> rfl
  have hrows : echoRows ≠ [] := List.cons_ne_nil _ _
  have hcolumns (byte : Fp) := extensionMatrix_eq_iff (t := .processor) echoChallenges
    (List.length_pos_iff.mpr hrows) (size byte)
  have hiff (byte : Fp) := (extension_satisfies_iff Fp echoChallenges .processor hrows echo_regular
    (size byte)).trans (hcolumns byte)
  constructor
  · refine (hiff _).mpr fun c => ?_
    cases c <;> decide
  · intro h
    exact absurd ((hiff _).mp h .ipo) (by decide)

end Table

end TapeStark
