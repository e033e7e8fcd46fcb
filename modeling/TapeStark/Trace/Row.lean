import TapeStark.Error
import TapeStark.Field.Base
import TapeStark.Machine.Program
import TapeStark.Table

/-! The columns of every table, and its rows. -/

namespace TapeStark

/-! The columns of every table. Base columns are filled by the run alone; extension columns depend
on challenges drawn after the base columns are committed. -/

/-- Finitely many columns in a fixed order, with names. -/
class ColumnSet (κ : Type) where
  all : List κ
  name : κ → String

def ColumnSet.names (κ : Type) [ColumnSet κ] : List String := (all : List κ).map name

inductive ProcessorBase
  | clk | ip | ci | ni | mp | mv | inv
  | flag (i : Instruction)
  deriving DecidableEq

/-- Running products for the instruction and memory permutations, and evaluations of the bytes
read and written. -/
inductive ProcessorExt
  | ipa | mpa | ipo | opo
  deriving DecidableEq

inductive MemoryBase
  | clk | mp | mv
  deriving DecidableEq

inductive MemoryExt
  | ppa
  deriving DecidableEq

inductive InstructionBase
  | ip | ci | ni
  deriving DecidableEq

/-- The running product of the copied rows and the evaluation of the program. -/
inductive InstructionExt
  | ppa | pea
  deriving DecidableEq

inductive StreamBase
  | value
  deriving DecidableEq

inductive StreamExt
  | eval
  deriving DecidableEq

def Instruction.flagName : Instruction → String
  | .opening => "f_open"
  | .closing => "f_close"
  | .op .left => "f_left"
  | .op .right => "f_right"
  | .op .inc => "f_inc"
  | .op .dec => "f_dec"
  | .op .read => "f_read"
  | .op .write => "f_write"

instance : ColumnSet ProcessorBase where
  all := [.clk, .ip, .ci, .ni, .mp, .mv, .inv] ++ Instruction.all.map .flag
  name
    | .clk => "clk"
    | .ip => "ip"
    | .ci => "ci"
    | .ni => "ni"
    | .mp => "mp"
    | .mv => "mv"
    | .inv => "inv"
    | .flag i => Instruction.flagName i

instance : ColumnSet ProcessorExt where
  all := [.ipa, .mpa, .ipo, .opo]
  name
    | .ipa => "ipa"
    | .mpa => "mpa"
    | .ipo => "ipo"
    | .opo => "opo"

instance : ColumnSet MemoryBase where
  all := [.clk, .mp, .mv]
  name
    | .clk => "clk"
    | .mp => "mp"
    | .mv => "mv"

instance : ColumnSet MemoryExt where
  all := [.ppa]
  name _ := "ppa"

instance : ColumnSet InstructionBase where
  all := [.ip, .ci, .ni]
  name
    | .ip => "ip"
    | .ci => "ci"
    | .ni => "ni"

instance : ColumnSet InstructionExt where
  all := [.ppa, .pea]
  name
    | .ppa => "ppa"
    | .pea => "pea"

instance : ColumnSet StreamBase where
  all := [.value]
  name _ := "value"

instance : ColumnSet StreamExt where
  all := [.eval]
  name _ := "eval"

namespace Table

abbrev Base : Table → Type
  | processor => ProcessorBase
  | memory => MemoryBase
  | instruction => InstructionBase
  | input => StreamBase
  | output => StreamBase

abbrev Ext : Table → Type
  | processor => ProcessorExt
  | memory => MemoryExt
  | instruction => InstructionExt
  | input => StreamExt
  | output => StreamExt

instance instDecidableEqBase : (t : Table) → DecidableEq t.Base
  | processor => inferInstanceAs (DecidableEq ProcessorBase)
  | memory => inferInstanceAs (DecidableEq MemoryBase)
  | instruction => inferInstanceAs (DecidableEq InstructionBase)
  | input => inferInstanceAs (DecidableEq StreamBase)
  | output => inferInstanceAs (DecidableEq StreamBase)

instance instDecidableEqExt : (t : Table) → DecidableEq t.Ext
  | processor => inferInstanceAs (DecidableEq ProcessorExt)
  | memory => inferInstanceAs (DecidableEq MemoryExt)
  | instruction => inferInstanceAs (DecidableEq InstructionExt)
  | input => inferInstanceAs (DecidableEq StreamExt)
  | output => inferInstanceAs (DecidableEq StreamExt)

instance instColumnSetBase : (t : Table) → ColumnSet t.Base
  | processor => inferInstanceAs (ColumnSet ProcessorBase)
  | memory => inferInstanceAs (ColumnSet MemoryBase)
  | instruction => inferInstanceAs (ColumnSet InstructionBase)
  | input => inferInstanceAs (ColumnSet StreamBase)
  | output => inferInstanceAs (ColumnSet StreamBase)

instance instColumnSetExt : (t : Table) → ColumnSet t.Ext
  | processor => inferInstanceAs (ColumnSet ProcessorExt)
  | memory => inferInstanceAs (ColumnSet MemoryExt)
  | instruction => inferInstanceAs (ColumnSet InstructionExt)
  | input => inferInstanceAs (ColumnSet StreamExt)
  | output => inferInstanceAs (ColumnSet StreamExt)

theorem mem_base {t : Table} (c : t.Base) : c ∈ (ColumnSet.all : List t.Base) := by
  cases t with
  | processor =>
    cases c with
    | flag i =>
      exact List.mem_append_right _ (List.mem_map_of_mem (Instruction.mem_all i))
    | _ => exact List.mem_append_left _ (by decide)
  | memory => cases c <;> decide
  | instruction => cases c <;> decide
  | input => cases c; decide
  | output => cases c; decide

theorem mem_ext {t : Table} (c : t.Ext) : c ∈ (ColumnSet.all : List t.Ext) := by
  cases t <;> cases c <;> decide

end Table

/-- A column of a table, base columns first. -/
inductive Column (β ε : Type)
  | base (c : β)
  | ext (c : ε)
  deriving DecidableEq

instance {β ε : Type} [ColumnSet β] [ColumnSet ε] : ColumnSet (Column β ε) where
  all := (ColumnSet.all : List β).map .base ++ (ColumnSet.all : List ε).map .ext
  name
    | .base c => ColumnSet.name c
    | .ext c => ColumnSet.name c

abbrev Table.Column (t : Table) : Type := TapeStark.Column t.Base t.Ext

theorem Table.mem_column {t : Table} (k : t.Column) : k ∈ (ColumnSet.all : List t.Column) := by
  cases k with
  | base c => exact List.mem_append_left _ (List.mem_map_of_mem (mem_base c))
  | ext c => exact List.mem_append_right _ (List.mem_map_of_mem (mem_ext c))

/-! Rows of base cells, one type for each table, and their cells by column. -/

structure ProcessorRow where
  clk : Fp
  ip : Fp
  ci : Fp
  ni : Fp
  mp : Fp
  mv : Fp
  /-- The inverse of `mv`, zero for zero. -/
  inv : Fp
  /-- One selector for each instruction. -/
  flag : Instruction → Fp

structure MemoryRow where
  clk : Fp
  mp : Fp
  mv : Fp
  deriving DecidableEq

structure InstructionRow where
  ip : Fp
  ci : Fp
  ni : Fp
  deriving DecidableEq

structure StreamRow where
  value : Fp
  deriving DecidableEq

namespace ProcessorRow

def memory (r : ProcessorRow) : MemoryRow := ⟨r.clk, r.mp, r.mv⟩

def instruction (r : ProcessorRow) : InstructionRow := ⟨r.ip, r.ci, r.ni⟩

end ProcessorRow

namespace Table

abbrev Row : Table → Type
  | processor => ProcessorRow
  | memory => MemoryRow
  | instruction => InstructionRow
  | input => StreamRow
  | output => StreamRow

def Row.get : {t : Table} → t.Row → t.Base → Fp
  | processor, r, .clk => r.clk
  | processor, r, .ip => r.ip
  | processor, r, .ci => r.ci
  | processor, r, .ni => r.ni
  | processor, r, .mp => r.mp
  | processor, r, .mv => r.mv
  | processor, r, .inv => r.inv
  | processor, r, .flag i => r.flag i
  | memory, r, .clk => r.clk
  | memory, r, .mp => r.mp
  | memory, r, .mv => r.mv
  | instruction, r, .ip => r.ip
  | instruction, r, .ci => r.ci
  | instruction, r, .ni => r.ni
  | input, r, .value => r.value
  | output, r, .value => r.value

def Row.ofFn : {t : Table} → (t.Base → Fp) → t.Row
  | processor, f => ⟨f .clk, f .ip, f .ci, f .ni, f .mp, f .mv, f .inv, fun i => f (.flag i)⟩
  | memory, f => ⟨f .clk, f .mp, f .mv⟩
  | instruction, f => ⟨f .ip, f .ci, f .ni⟩
  | input, f => ⟨f .value⟩
  | output, f => ⟨f .value⟩

/-- The cells in column order. -/
def Row.toList {t : Table} (r : t.Row) : List Fp := (ColumnSet.all : List t.Base).map r.get

/-- The row with these cells; there has to be one for every column. -/
def Row.ofList {t : Table} (cells : List Fp) : Except Error t.Row :=
  let columns : List t.Base := ColumnSet.all
  if cells.length = columns.length then
    .ok (Row.ofFn fun c => cells.getD (columns.idxOf c) 0)
  else .error .raggedRows

/-- The row with one cell changed. -/
def Row.modify {t : Table} (r : t.Row) (c : t.Base) (f : Fp → Fp) : t.Row :=
  Row.ofFn fun c' => if c' = c then f (r.get c) else r.get c'

end Table

end TapeStark
