import TapeStark.Air.Expr

/-! The constraints of the five tables. -/

namespace TapeStark

/-! The instruction table: the program's rows and the processor's copies, sorted by address. The
permutation takes in the copies, where the address repeats; the evaluation takes in the first row at
each address. -/

namespace Air.Instruction

open TapeStark.Expr

abbrev Cell := Expr (Column InstructionBase InstructionExt)

def step : Cell := base' .ip - base .ip

def pointerStep : Cell := step * (step - 1)

def instructionConsistency : Cell := (step - 1) * (base' .ci - base .ci)

def nextConsistency : Cell := (step - 1) * (base' .ni - base .ni)

def factor : Cell := instructionFactor (base' .ip) (base' .ci) (base' .ni)

def permutation : Cell :=
  step * (ext' .ppa - ext .ppa) + (step - 1) * (ext' .ppa - ext .ppa * factor)

/-- The row behind, compressed. -/
def compressed : Cell :=
  .challenge .a * base' .ip + .challenge .b * base' .ci + .challenge .c * base' .ni

def programEvaluation : Cell :=
  (step - 1) * (ext' .pea - ext .pea)
    + step * (ext' .pea - ext .pea * .challenge .eta - compressed)

def transitions : List (Transition (Column InstructionBase InstructionExt)) :=
  [⟨"pointer_step", 2, pointerStep, []⟩,
   ⟨"instruction_consistency", 2, instructionConsistency, []⟩,
   ⟨"next_instruction_consistency", 2, nextConsistency, []⟩,
   ⟨"permutation", 3, permutation,
    [step, ext .ppa, ext' .ppa, base' .ip, base' .ci, base' .ni, factor]⟩,
   ⟨"program_evaluation", 2, programEvaluation,
    [step, ext .pea, ext' .pea, base' .ip, base' .ci, base' .ni, compressed]⟩]

variable {F : Type} [Zero F] [One F] [Neg F]

def boundary (ch : Challenges F) :
    List (PointConstraint (Column InstructionBase InstructionExt) F) :=
  [⟨"ip_start", 0, [(.base .ip, 1)], 0⟩,
   ⟨"ppa_start", 0, [(.ext .ppa, 1)], 1⟩,
   ⟨"pea_start", 0,
    [(.ext .pea, 1), (.base .ip, -ch.a), (.base .ci, -ch.b), (.base .ni, -ch.c)], 0⟩]

def terminal (t : Terminals F) (height : Int) :
    List (PointConstraint (Column InstructionBase InstructionExt) F) :=
  [⟨"ppa_end", height - 1, [(.ext .ppa, 1)], t.processorInstruction⟩,
   ⟨"pea_end", height - 1, [(.ext .pea, 1)], t.programEvaluation⟩]

end Air.Instruction

/-! The memory table: the processor's rows sorted by cell, then by time. Within a cell the value
changes only from one cycle to the next, and a new cell starts at zero. -/

namespace Air.Memory

open TapeStark.Expr

abbrev Cell := Expr (Column MemoryBase MemoryExt)

def step : Cell := base' .mp - base .mp

def pointerStep : Cell := step * (step - 1)

def freshCell : Cell := step * base' .mv

def valueChange : Cell := base' .mv - base .mv

/-- Zero from one cycle to the next. -/
def clockGap : Cell := base' .clk - base .clk - 1

def valueConsistency : Cell := (step - 1) * valueChange * clockGap

def factor : Cell := memoryFactor (base' .clk) (base' .mp) (base' .mv)

def permutation : Cell := ext' .ppa - ext .ppa * factor

def transitions : List (Transition (Column MemoryBase MemoryExt)) :=
  [⟨"pointer_step", 2, pointerStep, []⟩,
   ⟨"fresh_cell", 2, freshCell, []⟩,
   ⟨"value_consistency", 3, valueConsistency, [step - 1, valueChange, clockGap]⟩,
   ⟨"permutation", 2, permutation, [base' .clk, base' .mp, base' .mv, factor]⟩]

variable {F : Type} [Zero F] [One F]

def boundary (ch : Challenges F) : List (PointConstraint (Column MemoryBase MemoryExt) F) :=
  [⟨"clk_start", 0, [(.base .clk, 1)], 0⟩,
   ⟨"mp_start", 0, [(.base .mp, 1)], 0⟩,
   ⟨"mv_start", 0, [(.base .mv, 1)], 0⟩,
   ⟨"ppa_start", 0,
    [(.ext .ppa, 1), (.base .clk, ch.d), (.base .mp, ch.e), (.base .mv, ch.f)], ch.beta⟩]

def terminal (t : Terminals F) (height : Int) :
    List (PointConstraint (Column MemoryBase MemoryExt) F) :=
  [⟨"ppa_end", height - 1, [(.ext .ppa, 1)], t.processorMemory⟩]

end Air.Memory

/-! The processor table: a row for each clock cycle, with one selector for each instruction. The
constraints say what each instruction does to the pointers and the cell. -/

namespace Air.Processor

open TapeStark.Expr

abbrev Cell := Expr (Column ProcessorBase ProcessorExt)

def flag (i : Instruction) : Cell := base (.flag i)

def flagSum (is : List Instruction) : Cell := Expr.sum (is.map flag)

def clock : Cell := base' .clk - base .clk - 1

/-- The word is the code of the selected instruction, or zero. -/
def decode : Cell :=
  Instruction.all.foldl (fun acc i => acc - .const i.code * flag i) (base .ci)

def boolean (i : Instruction) : Cell := flag i * (flag i - 1)

def singleInstruction : Cell :=
  flagSum Instruction.all * (flagSum Instruction.all - 1)

/-- One where the cell is zero, given the cell's inverse. -/
def cellIsZero : Cell := 1 - base .mv * base .inv

def pointerStep : Cell := base' .ip - base .ip

/-- Zero where the next address is the one in the word behind. -/
def jump : Cell := base' .ip - base .ni

/-- Zero where the next address is the one behind that word. -/
def skip : Cell := pointerStep - 2

def forward : Cell := base .mv * skip + cellIsZero * jump

def back : Cell := cellIsZero * skip + base .mv * jump

/-- One for the instructions that are no brackets. -/
def straight : Cell :=
  flagSum [.op .left, .op .right, .op .inc, .op .dec, .op .read, .op .write]

/-- One where no instruction is selected. -/
def idle : Cell := 1 - flagSum Instruction.all

def instructionPointer : Cell :=
  flag .opening * forward + flag .closing * back + straight * (pointerStep - 1)
    + idle * pointerStep

def memoryPointer : Cell :=
  base' .mp - base .mp + flag (.op .left) - flag (.op .right)

def valueChange : Cell := base' .mv - base .mv

/-- One for the instructions that keep the cell. -/
def keep : Cell := 1 - flagSum [.op .left, .op .right, .op .inc, .op .dec, .op .read]

/-- A move or a read leaves the next cell free; every other instruction but `+` and `-` keeps it. -/
def memoryValue : Cell :=
  keep * valueChange + flag (.op .inc) * (valueChange - 1) + flag (.op .dec) * (valueChange + 1)

def inverseOfValue : Cell := base .mv * cellIsZero

def inverseOfInverse : Cell := base .inv * cellIsZero

def rowFactor : Cell := instructionFactor (base' .ip) (base' .ci) (base' .ni)

def instructionPermutation : Cell := ext' .ipa - ext .ipa * rowFactor

def cellFactor : Cell := memoryFactor (base' .clk) (base' .mp) (base' .mv)

def memoryPermutation : Cell := ext' .mpa - ext .mpa * cellFactor

/-- What a challenge adds to an evaluation that it multiplies. -/
def growth (challenge : Challenge) : Cell := .challenge challenge - 1

/-- An evaluation takes in a byte where the instruction is selected. -/
def evaluation (column : ProcessorExt) (i : Instruction) (challenge : Challenge) (byte : Cell) :
    Cell :=
  ext' column - ext column - flag i * (ext column * growth challenge + byte)

/-- A read takes in the cell of the next row. -/
def inputEvaluation : Cell := evaluation .ipo (.op .read) .gamma (base' .mv)

/-- A write takes in the cell of its own row. -/
def outputEvaluation : Cell := evaluation .opo (.op .write) .delta (base .mv)

def transitions : List (Transition (Column ProcessorBase ProcessorExt)) :=
  [⟨"clock", 1, clock, []⟩, ⟨"decode", 1, decode, []⟩] ++
  Instruction.all.map (fun i => ⟨i.flagName ++ "_boolean", 2, boolean i, []⟩) ++
  [⟨"single_instruction", 2, singleInstruction, []⟩,
   ⟨"instruction_pointer", 4, instructionPointer,
    [base .ip, base' .ip, base .ni, base .mv, base .inv, cellIsZero, forward, back, straight,
      idle]⟩,
   ⟨"memory_pointer", 1, memoryPointer, []⟩,
   ⟨"memory_value", 2, memoryValue, [valueChange, flag (.op .inc), flag (.op .dec), keep]⟩,
   ⟨"inverse_of_value", 3, inverseOfValue, []⟩,
   ⟨"inverse_of_inverse", 3, inverseOfInverse, []⟩,
   ⟨"instruction_permutation", 2, instructionPermutation,
    [base' .ip, base' .ci, base' .ni, rowFactor]⟩,
   ⟨"memory_permutation", 2, memoryPermutation, [base' .clk, base' .mp, base' .mv, cellFactor]⟩,
   ⟨"input_evaluation", 2, inputEvaluation, [ext .ipo, growth .gamma]⟩,
   ⟨"output_evaluation", 2, outputEvaluation, [ext .opo, growth .delta]⟩]

variable {F : Type} [Zero F] [One F]

def boundary (ch : Challenges F) : List (PointConstraint (Column ProcessorBase ProcessorExt) F) :=
  [⟨"clk_start", 0, [(.base .clk, 1)], 0⟩,
   ⟨"ip_start", 0, [(.base .ip, 1)], 0⟩,
   ⟨"mp_start", 0, [(.base .mp, 1)], 0⟩,
   ⟨"mv_start", 0, [(.base .mv, 1)], 0⟩,
   ⟨"ipa_start", 0,
    [(.ext .ipa, 1), (.base .ip, ch.a), (.base .ci, ch.b), (.base .ni, ch.c)], ch.alpha⟩,
   ⟨"mpa_start", 0,
    [(.ext .mpa, 1), (.base .clk, ch.d), (.base .mp, ch.e), (.base .mv, ch.f)], ch.beta⟩,
   ⟨"ipo_start", 0, [(.ext .ipo, 1)], 0⟩,
   ⟨"opo_start", 0, [(.ext .opo, 1)], 0⟩]

def terminal (t : Terminals F) (height : Int) :
    List (PointConstraint (Column ProcessorBase ProcessorExt) F) :=
  [⟨"halted", height - 1, [(.base .ci, 1)], 0⟩,
   ⟨"ipa_end", height - 1, [(.ext .ipa, 1)], t.processorInstruction⟩,
   ⟨"mpa_end", height - 1, [(.ext .mpa, 1)], t.processorMemory⟩,
   ⟨"ipo_end", height - 1, [(.ext .ipo, 1)], t.inputEvaluation⟩,
   ⟨"opo_end", height - 1, [(.ext .opo, 1)], t.outputEvaluation⟩]

end Air.Processor

/-! The input and output tables: the bytes in order, then zeros, folded with a challenge. The
evaluation at the last byte is the public one. -/

namespace Air.Stream

open TapeStark.Expr

abbrev Cell := Expr (Column StreamBase StreamExt)

def evaluation (challenge : Challenge) : Cell :=
  ext' .eval - ext .eval * .challenge challenge - base' .value

def transitions (challenge : Challenge) : List (Transition (Column StreamBase StreamExt)) :=
  [⟨"evaluation", 1, evaluation challenge, []⟩]

variable {F : Type} [Zero F] [One F]

def boundary [Neg F] : List (PointConstraint (Column StreamBase StreamExt) F) :=
  [⟨"eval_start", 0, [(.ext .eval, 1), (.base .value, -1)], 0⟩]

/-- An empty stream has no last byte. -/
def terminal (evaluation : F) (length : Int) :
    List (PointConstraint (Column StreamBase StreamExt) F) :=
  if length = 0 then [] else [⟨"eval_end", length - 1, [(.ext .eval, 1)], evaluation⟩]

end Air.Stream

/-! The constraints of every table, and the degrees of their quotients. -/

namespace Table

def transitions : (t : Table) → List (Transition t.Column)
  | processor => Air.Processor.transitions
  | memory => Air.Memory.transitions
  | instruction => Air.Instruction.transitions
  | input => Air.Stream.transitions .gamma
  | output => Air.Stream.transitions .delta

variable {F : Type} [Zero F] [One F] [Neg F]

/-- Relations on the first row. -/
def boundary (ch : Challenges F) : (t : Table) → List (PointConstraint t.Column F)
  | processor => Air.Processor.boundary ch
  | memory => Air.Memory.boundary ch
  | instruction => Air.Instruction.boundary ch
  | input => Air.Stream.boundary
  | output => Air.Stream.boundary

/-- Relations that tie the last values to the terminals; `inputLength` and `outputLength` count
the public bytes. -/
def terminal (terminals : Terminals F) (inputLength outputLength height : Int) :
    (t : Table) → List (PointConstraint t.Column F)
  | processor => Air.Processor.terminal terminals height
  | memory => Air.Memory.terminal terminals height
  | instruction => Air.Instruction.terminal terminals height
  | input => Air.Stream.terminal terminals.inputEvaluation inputLength
  | output => Air.Stream.terminal terminals.outputEvaluation outputLength

/-- Boundary constraints first. -/
def points (ch : Challenges F) (terminals : Terminals F) (inputLength outputLength height : Int)
    (t : Table) : List (PointConstraint t.Column F) :=
  boundary ch t ++ terminal terminals inputLength outputLength height t

def maxDegree (t : Table) : Nat := (t.transitions.map (·.degree)).foldl max 0

/-- The degree of the quotient of a transition constraint by the rows it holds on. -/
def quotientDegree (t : Table) (height : Int) : Int := ((t.maxDegree : Int) - 1) * (height - 1)

end Table

/-- The least power of two above the degree of every quotient. -/
def Heights.degreeBound (h : Heights) : Nat :=
  let degrees := Table.all.map fun t =>
    if h.get t > 1 then max (t.quotientDegree (h.get t)) (h.get t - 1) else h.get t - 1
  nextPowerOfTwo (degrees.foldl max 0 + 1)

end TapeStark
