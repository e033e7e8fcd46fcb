import TapeStark.Error
import TapeStark.Field.Base
import TapeStark.Machine.Program

/-!
The tape machine, which runs in two ways: the simulator executes compiled words, and the reference
interpreter executes the loop tree.
-/

namespace TapeStark

/-! The tape with its head, the input and the output, and what one instruction does to them. -/

/-- Cells from 0 on; those never written hold zero. -/
structure Tape where
  cells : Array Fp

namespace Tape

def blank : Tape := ⟨#[]⟩

def get (t : Tape) (i : Nat) : Fp := t.cells.getD i 0

def set (t : Tape) (i : Nat) (v : Fp) : Tape :=
  if i < t.cells.size then ⟨t.cells.setIfInBounds i v⟩
  else ⟨(t.cells ++ Array.replicate (i - t.cells.size) 0).push v⟩

theorem get_set (t : Tape) (i j : Nat) (v : Fp) :
    (t.set i v).get j = if j = i then v else t.get j := by
  by_cases h : i < t.cells.size
  · by_cases hj : j = i <;> simp [set, get, h, hj, Ne.symm]
  · simp only [set, get, h, ite_false, Array.getD_eq_getD_getElem?, Array.getElem?_push,
      Array.getElem?_append, Array.getElem?_replicate, Array.size_append, Array.size_replicate]
    grind

end Tape

structure Memory where
  tape : Tape
  head : Nat
  input : ByteArray
  /-- The input bytes read so far. -/
  consumed : Nat
  output : ByteArray

namespace Memory

def init (input : ByteArray) : Memory := ⟨.blank, 0, input, 0, ByteArray.empty⟩

/-- The cell under the head. -/
def cell (m : Memory) : Fp := m.tape.get m.head

def setCell (m : Memory) (v : Fp) : Memory := { m with tape := m.tape.set m.head v }

def apply (m : Memory) : Op → Except Error Memory
  | .left =>
    if m.head = 0 then .error (.machine .belowTape) else .ok { m with head := m.head - 1 }
  | .right => .ok { m with head := m.head + 1 }
  | .inc => .ok (m.setCell (m.cell + 1))
  | .dec => .ok (m.setCell (m.cell - 1))
  | .read =>
    match m.input[m.consumed]? with
    | none => .error (.machine .pastInput)
    | some b => .ok { m.setCell (.ofNat b.toNat) with consumed := m.consumed + 1 }
  | .write =>
    if m.cell.val > 255 then .error (.machine (.outputRange m.cell.val))
    else .ok { m with output := m.output.push (UInt8.ofNat m.cell.val) }

end Memory

/-! The simulator: runs compiled words and records the machine before every instruction. -/

namespace Simulator

/-- The machine before an instruction: clock, instruction pointer, the word there and the word
behind it, head and cell. -/
structure Step where
  clk : Nat
  ip : Int
  ci : Int
  ni : Int
  mp : Nat
  mv : Fp

structure State where
  ip : Int
  clk : Nat
  memory : Memory
  /-- The instructions executed so far, in order. -/
  steps : Array Step

/-- The step that is about to be taken with these two words. -/
def State.observe (s : State) (ci ni : Int) : Step :=
  ⟨s.clk, s.ip, ci, ni, s.memory.head, s.memory.cell⟩

/-- The largest code of a character. -/
def maxCharacter : Int := 0x10FFFF

/-- Executes the word `ci`, followed by `ni`: the next instruction pointer and memory. -/
def act (ip ci ni : Int) (m : Memory) : Except Error (Int × Memory) :=
  match Instruction.ofWord? ci with
  | some .opening => .ok (if m.cell = 0 then ni else ip + 2, m)
  | some .closing => .ok (if m.cell = 0 then ip + 2 else ni, m)
  | some (.op a) => (m.apply a).map fun m => (ip + 1, m)
  | none =>
    if 0 ≤ ci ∧ ci ≤ maxCharacter then .error (.machine (.invalidWord ci ip))
    else .error (.machine .noCharacter)

def step (program : Program) (s : State) : Except Error State :=
  match program.word? s.ip with
  | none => .error (.machine .addressRange)
  | some ci =>
    let ni := program.following s.ip
    match act s.ip ci ni s.memory with
    | .ok (ip, memory) => .ok ⟨ip, s.clk + 1, memory, s.steps.push (s.observe ci ni)⟩
    | .error e => .error e

/-- Runs until the instruction pointer leaves the program, for at most `fuel` steps. -/
def run (program : Program) (limit : Int) : Nat → State → Except Error State
  | 0, s => if s.ip < program.size then .error (.machine (.stepLimit limit)) else .ok s
  | n + 1, s =>
    if s.ip < program.size then
      match step program s with
      | .ok s => run program limit n s
      | .error e => .error e
    else .ok s

def start (input : ByteArray) : State := ⟨0, 0, .init input, #[]⟩

/-- The step limit where none is asked for. -/
def defaultLimit : Int := 1048576

/-- Runs a program within a step limit; gives the halted state. -/
def execute (program : Program) (input : ByteArray) (limit : Int) : Except Error State :=
  run program limit limit.toNat (start input)

/-- The executed steps and the halted row behind them. -/
def State.history (s : State) : List Step := (s.steps.push (s.observe 0 0)).toList

end Simulator

/-! The reference interpreter: runs the loop tree and counts instructions. A bracket counts each
time its loop is tested: once on arrival and once after every turn. -/

namespace Interpreter

structure State where
  memory : Memory
  steps : Nat

/-- Runs a block for at most `limit` counted instructions. A turn of a loop is the body followed
by the loop itself. -/
def run (limit : Nat) (block : Block Op) (s : State) : Except Error State :=
  match limit, block with
  | _, .done => .ok s
  | 0, _ => .error (.machine (.stepLimit s.steps))
  | n + 1, .op a next =>
    match s.memory.apply a with
    | .ok memory => run n next ⟨memory, s.steps + 1⟩
    | .error e => .error e
  | n + 1, .loop body next =>
    if s.memory.cell = 0 then run n next ⟨s.memory, s.steps + 1⟩
    else run n (body.append (.loop body next)) ⟨s.memory, s.steps + 1⟩

/-- Runs a source text; gives the final state. -/
def execute (limit : Nat) (source : String) (input : ByteArray) : Except Error State := do
  let block ← Block.parse (Instruction.lex source)
  run limit block ⟨.init input, 0⟩

end Interpreter

end TapeStark
