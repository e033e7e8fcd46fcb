import TapeStark.Error
import TapeStark.Grid

/-!
Programs of the tape machine: as instructions, as the words that the compiler makes of a source, and
as trees of loops.
-/

namespace TapeStark

/-! The instructions of the tape machine and their characters. -/

/-- The instructions that act on the tape. -/
inductive Op
  | left | right | inc | dec | read | write
  deriving DecidableEq, Repr

/-- A bracket, or something between brackets. -/
inductive Symbol (α : Type)
  | opening
  | closing
  | op (a : α)
  deriving DecidableEq, Repr

abbrev Instruction := Symbol Op

namespace Instruction

/-- All instructions, in the order of the selector columns. -/
def all : List Instruction :=
  [.opening, .closing, .op .left, .op .right, .op .inc, .op .dec, .op .read, .op .write]

theorem mem_all (i : Instruction) : i ∈ all := by
  cases i with
  | opening => decide
  | closing => decide
  | op a => cases a <;> decide

def char : Instruction → Char
  | .opening => '['
  | .closing => ']'
  | .op .left => '<'
  | .op .right => '>'
  | .op .inc => '+'
  | .op .dec => '-'
  | .op .read => ','
  | .op .write => '.'

/-- The word that stands for the instruction in a program. -/
def code (i : Instruction) : Nat := i.char.toNat

def ofChar? (c : Char) : Option Instruction := all.find? (·.char = c)

def ofWord? (w : Int) : Option Instruction := all.find? (·.code = w)

/-- The instructions of a source text; every other character is a comment. -/
def lex (source : String) : List Instruction := source.toList.filterMap ofChar?

end Instruction

/-! The compiler: instructions become their codes, and a jump address follows each bracket. An
opening bracket jumps behind the pair, a closing one back to the loop's body. -/

/-- The words of a program; a machine takes any words, also ones that no compiler writes. -/
abbrev Program := Array Int

namespace Program

/-- Compiles behind `words`; `opens` holds the places of the addresses still to be filled in, the
innermost loop first. -/
def compileFrom : List Instruction → (words : Program) → (opens : List Nat) →
    Except Error Program
  | [], words, [] => .ok words
  | [], _, _ :: _ => .error (.machine .unmatchedOpening)
  | .op a :: rest, words, opens => compileFrom rest (words.push (Instruction.code (.op a))) opens
  | .opening :: rest, words, opens =>
    compileFrom rest ((words.push (Instruction.code .opening)).push 0)
      ((words.size + 1) :: opens)
  | .closing :: _, _, [] => .error (.machine .unmatchedClosing)
  | .closing :: rest, words, place :: opens =>
    let words := (words.push (Instruction.code .closing)).push (place + 1)
    compileFrom rest (words.setIfInBounds place words.size) opens

def compile (source : String) : Except Error Program :=
  compileFrom (Instruction.lex source) #[] []

/-- The word at an address; an address below zero counts from the end. -/
def word? (program : Program) (address : Int) : Option Int :=
  (position? program.size address).bind (program[·]?)

/-- The word behind an address, zero at the end of the program. -/
def following (program : Program) (address : Int) : Int :=
  if address + 1 < program.size then (program.word? (address + 1)).getD 0 else 0

end Program

/-! The public statement of a proof. -/

/-- That the program halts, having read exactly the input and written the output. -/
structure Claim where
  program : Program
  input : ByteArray
  output : ByteArray

/-! Programs as trees of loops, and the parser that builds them. -/

/-- Leaves and loops in a row. -/
inductive Block (α : Type)
  | done
  | op (a : α) (next : Block α)
  | loop (body next : Block α)
  deriving DecidableEq, Repr

namespace Block

variable {α : Type}

def append : Block α → Block α → Block α
  | done, b => b
  | op a next, b => op a (next.append b)
  | loop body next, b => loop body (next.append b)

/-- Writes the tree out flat. -/
def flatten : Block α → List (Symbol α)
  | done => []
  | op a next => .op a :: next.flatten
  | loop body next => .opening :: (body.flatten ++ .closing :: next.flatten)

/-- Parses with `here` as what stands before in this loop, and `outer` as what stands before in
the loops around it. -/
def parseFrom : List (Symbol α) → (here : Block α → Block α) → (outer : List (Block α → Block α)) →
    Except Error (Block α)
  | [], here, [] => .ok (here done)
  | [], _, _ :: _ => .error (.machine .unmatchedOpening)
  | .op a :: rest, here, outer => parseFrom rest (fun b => here (op a b)) outer
  | .opening :: rest, here, outer => parseFrom rest id (here :: outer)
  | .closing :: _, _, [] => .error (.machine .unmatchedClosing)
  | .closing :: rest, here, before :: outer =>
    parseFrom rest (fun b => before (loop (here done) b)) outer

def parse (symbols : List (Symbol α)) : Except Error (Block α) := parseFrom symbols id []

end Block

end TapeStark
