import TapeStark.Air.Table
import TapeStark.Grid
import TapeStark.Trace.Basic

/-! The extension columns, and the padded tables together with them. -/

namespace TapeStark

/-! The extension columns: running products and evaluations over the padded rows, which the prover
fills in once the challenges are drawn. -/

section Witness

variable {F : Type} [ExtensionField F]

/-- A value for each row: `first` at the first, then each from the one before it, the row before
and its own row. -/
def scanRows {ρ : Type} (next : F → ρ → ρ → F) : F → List ρ → List F
  | _, [] => []
  | acc, [_] => [acc]
  | acc, r :: r' :: rest => acc :: scanRows next (next acc r r') (r' :: rest)

namespace Challenges

open ExtensionField

variable (ch : Challenges F)

/-- The row of the instruction table, compressed. -/
def compress (r : InstructionRow) : F :=
  ch.a * ofBase r.ip + ch.b * ofBase r.ci + ch.c * ofBase r.ni

def instructionFactor (r : InstructionRow) : F := ch.alpha - ch.compress r

def memoryFactor (r : MemoryRow) : F :=
  ch.beta - ch.d * ofBase r.clk - ch.e * ofBase r.mp - ch.f * ofBase r.mv

end Challenges

namespace Witness

open ExtensionField

variable (ch : Challenges F)

/-- The product of the factors up to each row. -/
def product {ρ : Type} (factor : ρ → F) (rows : List ρ) : List F :=
  match rows with
  | [] => []
  | first :: _ => scanRows (fun acc _ r => acc * factor r) (factor first) rows

/-- The fold of the cells that the rows before each row take in, where they select the
instruction. -/
def evaluation (i : Instruction) (challenge : F) (cell : ProcessorRow → ProcessorRow → Fp)
    (rows : List ProcessorRow) : List F :=
  scanRows (fun acc r r' => if r.flag i = 0 then acc else acc * challenge + ofBase (cell r r')) 0
    rows

def processor (rows : List ProcessorRow) : ProcessorExt → List F
  | .ipa => product (fun r => ch.instructionFactor r.instruction) rows
  | .mpa => product (fun r => ch.memoryFactor r.memory) rows
  | .ipo => evaluation (.op .read) ch.gamma (fun _ r' => r'.mv) rows
  | .opo => evaluation (.op .write) ch.delta (fun r _ => r.mv) rows

def memory (rows : List MemoryRow) : MemoryExt → List F
  | .ppa => product ch.memoryFactor rows

def instruction (rows : List InstructionRow) : InstructionExt → List F
  | .ppa =>
    scanRows (fun acc r r' =>
      if r'.ip = r.ip then acc * ch.instructionFactor r' else acc) 1 rows
  | .pea =>
    match rows with
    | [] => []
    | first :: _ =>
      scanRows (fun acc r r' => if r'.ip = r.ip then acc else acc * ch.eta + ch.compress r')
        (ch.compress first) rows

def stream (challenge : F) (rows : List StreamRow) : StreamExt → List F
  | .eval =>
    match rows with
    | [] => []
    | first :: _ =>
      scanRows (fun acc _ r' => acc * challenge + ofBase r'.value) (ofBase first.value) rows

end Witness

/-- The extension columns of a table over its rows. -/
def Table.extension (ch : Challenges F) : (t : Table) → List t.Row → t.Ext → List F
  | processor, rows => Witness.processor ch rows
  | memory, rows => Witness.memory ch rows
  | instruction, rows => Witness.instruction ch rows
  | input, rows => Witness.stream ch.gamma rows
  | output, rows => Witness.stream ch.delta rows

/-- The extension columns as a matrix. A processor table has a first row. -/
def Table.extensionMatrix (ch : Challenges F) (t : Table) (rows : List t.Row) :
    Except Error (Matrix t.Ext F) :=
  if t = .processor ∧ rows.length = 0 then .error .indexOutOfRange
  else .ok ⟨ColumnSet.all, ColumnSet.all.map fun c => (t.extension ch rows c).toArray⟩

/-- The base columns as a matrix. -/
def Table.baseMatrix (t : Table) (rows : List t.Row) : Matrix t.Base Fp :=
  ⟨ColumnSet.all, ColumnSet.all.map fun c => (rows.map fun r => r.get c).toArray⟩

namespace Trace

def baseMatrices (trace : Trace) : PerTable fun t => Matrix t.Base Fp :=
  PerTable.ofFn fun t => t.baseMatrix (trace.rows t)

def extensionMatrices (trace : Trace) (ch : Challenges F) :
    Except Error (PerTable fun t => Matrix t.Ext F) :=
  PerTable.ofFnM fun t => t.extensionMatrix ch (trace.rows t)

end Trace

end Witness

/-! Padded tables together with their extension columns, and which constraints they break. -/

section Assignment

variable {F : Type} [ExtensionField F]

/-- The columns of one table. -/
structure TableColumns (t : Table) (F : Type) where
  base : Matrix t.Base Fp
  extension : Matrix t.Ext F

namespace TableColumns

variable {t : Table} (m : TableColumns t F)

def height : Nat := m.base.height

/-- The cells of row `i`, by column. -/
def cell (i : Nat) : t.Column → F
  | .base c => ExtensionField.ofBase ((m.base.column c).getD i 0)
  | .ext c => (m.extension.column c).getD i 0

/-- The transition constraints that fail between row `i` and the next. -/
def failuresAt (ch : Challenges F) (i : Nat) : List String :=
  let cur := m.cell i
  let next := m.cell (i + 1)
  t.transitions.filterMap fun c =>
    if c.expr.eval cur next ch = 0 then none else some s!"{t.name}.{c.name}@{i}"

/-- The constraints that fail, transitions row by row and then points. -/
def failures (ch : Challenges F) (points : List (PointConstraint t.Column F)) :
    Except Error (List String) := do
  let failed ← points.filterMapM fun p =>
    match position? m.height p.row with
    | some i => .ok (if p.eval (m.cell i) = (0 : F) then none else some s!"{t.name}.{p.name}")
    | none => .error .indexOutOfRange
  return (List.range (m.height - 1)).flatMap (m.failuresAt ch) ++ failed

end TableColumns

/-- The columns of all tables. -/
abbrev Assignment (F : Type) := PerTable fun t => TableColumns t F

namespace Assignment

/-- Adds the extension columns to padded tables. -/
def ofTrace (ch : Challenges F) (padded : Trace) : Except Error (Assignment F) := do
  let extension ← padded.extensionMatrices ch
  let base := padded.baseMatrices
  return PerTable.ofFn fun t => ⟨base.get t, extension.get t⟩

def heights (a : Assignment F) : Heights := PerTable.ofFn fun t => ((a.get t).height : Int)

/-- The ends of the two running products of the processor. -/
def instructionEnd (a : Assignment F) : F := a.processor.extension.last .ipa

def memoryEnd (a : Assignment F) : F := a.processor.extension.last .mpa

/-- Changes a cell in a base or an extension column. -/
def change {d : Degree} (a : Assignment d.Carrier) (c : Change) :
    Except Error (Assignment d.Carrier) :=
  PerTable.ofFnM fun t => do
    let m := a.get t
    if c.table ≠ t then return m
    match (Change.columnNamed c.column : Option t.Column) with
    | some (.base column) => do
      let amount ← c.amount.promote .one
      return { m with base := ← m.base.modify column c.row (· + amount) }
    | some (.ext column) => do
      let amount ← c.amount.promote d
      return { m with extension := ← m.extension.modify column c.row (· + amount) }
    | none => throw .unknownColumn

/-- The constraints that fail, table by table. -/
def failures (a : Assignment F) (ch : Challenges F) (terminals : Terminals F)
    (inputLength outputLength : Nat) : Except Error (List String) := do
  let failed ← Table.all.mapM fun t =>
    let m := a.get t
    m.failures ch (t.points ch terminals inputLength outputLength m.height)
  return failed.flatten

end Assignment

end Assignment

end TapeStark
