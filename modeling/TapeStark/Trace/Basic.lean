import TapeStark.Domain
import TapeStark.Field.Extension
import TapeStark.Grid
import TapeStark.Machine.Interpreter
import TapeStark.Machine.Program
import TapeStark.Trace.Row

/-! The tables of a run. -/

namespace TapeStark

/-! Execution tables of a run, and their padding to power-of-two heights. -/

/-- The rows of the five tables. -/
structure Trace where
  processor : List ProcessorRow
  memory : List MemoryRow
  instruction : List InstructionRow
  input : List StreamRow
  output : List StreamRow

namespace Trace

def rows (t : Trace) : (table : Table) → List table.Row
  | .processor => t.processor
  | .memory => t.memory
  | .instruction => t.instruction
  | .input => t.input
  | .output => t.output

def heights (t : Trace) : Heights := PerTable.ofFn fun table => ((t.rows table).length : Int)

/-- Every integer of a row has to be a representative of a field element. -/
def cell (n : Int) : Except Error Fp :=
  match Fp.ofInt? n with
  | some a => .ok a
  | none => .error .outOfField

/-- Rows of a table from rows of integers. -/
def readRows (t : Table) (rows : List (List Int)) : Except Error (List t.Row) := do
  Grid.checkRows (ColumnSet.all : List t.Base).length rows
  let cells ← rows.mapM fun r => r.mapM cell
  cells.mapM fun r => Table.Row.ofList r

def processorRow (s : Simulator.Step) : Except Error ProcessorRow := do
  let clk ← cell s.clk
  let ip ← cell s.ip
  let ci ← cell s.ci
  let ni ← cell s.ni
  let mp ← cell s.mp
  return {
    clk, ip, ci, ni, mp, mv := s.mv, inv := s.mv⁻¹
    flag := fun i => if s.ci = i.code then 1 else 0 }

/-- A row for every word of the program and one for the address behind it. -/
def programRows (program : Program) : Except Error (List InstructionRow) :=
  (List.range (program.size + 1)).mapM fun (k : Nat) => do
    let ip ← cell k
    let ci ← cell (program.getD k 0)
    let ni ← cell (program.getD (k + 1) 0)
    return ⟨ip, ci, ni⟩

/-- By cell, then by time. -/
def memoryLe (a b : MemoryRow) : Bool :=
  a.mp.val < b.mp.val || (a.mp.val = b.mp.val && a.clk.val ≤ b.clk.val)

/-- By address. -/
def instructionLe (a b : InstructionRow) : Bool := a.ip.val ≤ b.ip.val

def byteRows (bytes : ByteArray) : List StreamRow :=
  bytes.data.toList.map fun b => ⟨.ofNat b.toNat⟩

/-- The tables of a halted run. The instruction table holds the program's rows and a copy of each
processor row, with the program's first at every address. -/
def ofRun (program : Program) (s : Simulator.State) : Except Error Trace := do
  let processor ← s.history.mapM processorRow
  let words ← programRows program
  return {
    processor
    memory := (processor.map (·.memory)).mergeSort memoryLe
    instruction := (words ++ processor.map (·.instruction)).mergeSort instructionLe
    input := byteRows (s.memory.input.extract 0 s.memory.consumed)
    output := byteRows s.memory.output }

/-- What a halted run shows: the input that it read and its output. -/
def claimOf (program : Program) (s : Simulator.State) : Claim :=
  ⟨program, s.memory.input.extract 0 s.memory.consumed, s.memory.output⟩

/-- Runs a program; gives its tables and its claim. -/
def simulate (program : Program) (input : ByteArray) (limit : Int) :
    Except Error (Trace × Claim) := do
  let s ← Simulator.execute program input limit
  let trace ← ofRun program s
  return (trace, claimOf program s)

/-- Splits behind the last row at this cell; none if there is no such row. -/
def splitAfterCell (mp : Fp) (rows : List MemoryRow) : Option (List MemoryRow × List MemoryRow) :=
  let behind := rows.reverse.takeWhile (·.mp ≠ mp)
  if behind.length = rows.length then none
  else some (rows.take (rows.length - behind.length), rows.drop (rows.length - behind.length))

/-- The halted row again, with the clock counting on. -/
def haltedRows (halted : ProcessorRow) (count : Nat) : Except Error (List ProcessorRow) :=
  (List.range count).mapM fun (j : Nat) => do
    let clk ← cell (halted.clk.val + (j + 1) : Nat)
    return { halted with clk }

/-- Rows of empty words at the addresses from `start` on. -/
def emptyRows (start count : Nat) : Except Error (List InstructionRow) :=
  (List.range count).mapM fun (j : Nat) => do
    let ip ← cell (start + j : Nat)
    return ⟨ip, 0, 0⟩

def padStream (rows : List StreamRow) : List StreamRow :=
  rows ++ List.replicate (nextPowerOfTwo (max rows.length 1 : Nat) - rows.length) ⟨0⟩

/-- Pads every table. The processor repeats its halted row, the memory table takes those rows in
behind the last row at the final cell, and the instruction table takes them in at its end, before
rows of empty words at the addresses behind the program. -/
def pad (t : Trace) (programLength : Nat) : Except Error Trace := do
  let some halted := t.processor.getLast? | throw .indexOutOfRange
  let some (before, after) := splitAfterCell halted.mp t.memory | throw .noMemoryRow
  let extra ← haltedRows halted (nextPowerOfTwo t.processor.length - t.processor.length)
  let instruction := t.instruction ++ extra.map (·.instruction)
  let empty ← emptyRows (programLength + 1)
    (nextPowerOfTwo instruction.length - instruction.length)
  return {
    processor := t.processor ++ extra
    memory := before ++ extra.map (·.memory) ++ after
    instruction := instruction ++ empty
    input := padStream t.input
    output := padStream t.output }

end Trace

/-! Changes of single cells, which turn the tables of a run into tables of none. -/

/-- Adds an amount to the cell of a column, by name, in a row that may count from the end. -/
structure Change where
  table : Table
  column : String
  row : Int
  amount : Element

namespace Change

def columnNamed {κ : Type} [ColumnSet κ] (name : String) : Option κ :=
  ColumnSet.all.find? fun c => ColumnSet.name c = name

def onRows (c : Change) (t : Table) (rows : List t.Row) : Except Error (List t.Row) := do
  if c.table ≠ t then return rows
  match (columnNamed c.column : Option t.Base) with
  | some column => do
    let amount ← c.amount.promote .one
    modifyAt rows c.row fun r => .ok (r.modify column (· + amount))
  | none => throw .unknownColumn

end Change

/-- Changes a base cell. -/
def Trace.change (trace : Trace) (c : Change) : Except Error Trace := do
  return {
    processor := ← c.onRows .processor trace.processor
    memory := ← c.onRows .memory trace.memory
    instruction := ← c.onRows .instruction trace.instruction
    input := ← c.onRows .input trace.input
    output := ← c.onRows .output trace.output }

def Trace.changeAll (trace : Trace) (changes : List Change) : Except Error Trace :=
  changes.foldlM change trace

end TapeStark
