import TapeStark.Domain
import TapeStark.Field.Extension
import TapeStark.Machine.Program
import TapeStark.Trace.Row

/-! Constraints as expressions in the cells, and the public values that some of them compare with. -/

namespace TapeStark

/-! Constraints as expressions over two consecutive rows, and affine relations on a single row. The
prover evaluates them at codeword positions, the verifier at opened values. -/

/-- The challenges that fold the tables: `a, b, c` compress instruction rows and `d, e, f` memory
rows, `alpha` and `beta` are the points of the permutation arguments, and `gamma`, `delta` and
`eta` fold the input, the output and the program. -/
inductive Challenge
  | a | b | c | d | e | f | alpha | beta | gamma | delta | eta
  deriving DecidableEq

structure Challenges (F : Type) where
  a : F
  b : F
  c : F
  d : F
  e : F
  f : F
  alpha : F
  beta : F
  gamma : F
  delta : F
  eta : F

namespace Challenges

variable {F : Type}

def get (ch : Challenges F) : Challenge → F
  | .a => ch.a
  | .b => ch.b
  | .c => ch.c
  | .d => ch.d
  | .e => ch.e
  | .f => ch.f
  | .alpha => ch.alpha
  | .beta => ch.beta
  | .gamma => ch.gamma
  | .delta => ch.delta
  | .eta => ch.eta

/-- In the order in which they are drawn. -/
def ofVector (v : Vector F 11) : Challenges F :=
  ⟨v[0], v[1], v[2], v[3], v[4], v[5], v[6], v[7], v[8], v[9], v[10]⟩

def ofArray? (values : Array F) : Except Error (Challenges F) :=
  if h : values.size = 11 then .ok (ofVector ⟨values, h⟩) else .error .entryCount

def map {G : Type} (f : F → G) (ch : Challenges F) : Challenges G where
  a := f ch.a
  b := f ch.b
  c := f ch.c
  d := f ch.d
  e := f ch.e
  f := f ch.f
  alpha := f ch.alpha
  beta := f ch.beta
  gamma := f ch.gamma
  delta := f ch.delta
  eta := f ch.eta

end Challenges

/-- A polynomial in the cells of a row and of the row behind it. -/
inductive Expr (κ : Type)
  | cur (c : κ)
  | next (c : κ)
  | challenge (x : Challenge)
  | const (n : Nat)
  | add (x y : Expr κ)
  | sub (x y : Expr κ)
  | mul (x y : Expr κ)

namespace Expr

variable {κ F : Type} [ExtensionField F]

instance : Add (Expr κ) := ⟨add⟩
instance : Sub (Expr κ) := ⟨sub⟩
instance : Mul (Expr κ) := ⟨mul⟩
instance (n : Nat) : OfNat (Expr κ) n := ⟨const n⟩

def eval (cur next : κ → F) (ch : Challenges F) : Expr κ → F
  | .cur c => cur c
  | .next c => next c
  | .challenge x => ch.get x
  | .const n => ExtensionField.natCast n
  | .add x y => x.eval cur next ch + y.eval cur next ch
  | .sub x y => x.eval cur next ch - y.eval cur next ch
  | .mul x y => x.eval cur next ch * y.eval cur next ch

/-- The value at position `i` of columns that are given at positions below `size`; the row behind
stands `stride` positions on, past the end from the start again. -/
def evalAt (value : Nat → κ → F) (ch : Challenges F) (size stride i : Nat) (e : Expr κ) : F :=
  e.eval (value i) (value ((i + stride) % size)) ch

/-- The total degree in the cells. -/
def degree : Expr κ → Nat
  | .cur _ | .next _ => 1
  | .challenge _ | .const _ => 0
  | .add x y | .sub x y => max x.degree y.degree
  | .mul x y => x.degree + y.degree

def sum (xs : List (Expr κ)) : Expr κ := xs.foldl (· + ·) 0

/-- A base column of this row. -/
def base {β ε : Type} (c : β) : Expr (Column β ε) := .cur (.base c)

/-- A base column of the row behind. -/
def base' {β ε : Type} (c : β) : Expr (Column β ε) := .next (.base c)

/-- An extension column of this row. -/
def ext {β ε : Type} (c : ε) : Expr (Column β ε) := .cur (.ext c)

/-- An extension column of the row behind. -/
def ext' {β ε : Type} (c : ε) : Expr (Column β ε) := .next (.ext c)

/-- One factor of the instruction permutation. -/
def instructionFactor (ip ci ni : Expr κ) : Expr κ :=
  .challenge .alpha - .challenge .a * ip - .challenge .b * ci - .challenge .c * ni

/-- One factor of the memory permutation. -/
def memoryFactor (clk mp mv : Expr κ) : Expr κ :=
  .challenge .beta - .challenge .d * clk - .challenge .e * mp - .challenge .f * mv

end Expr

/-- A relation between every two consecutive rows, with the total degree that it is declared to
have. -/
structure Transition (κ : Type) where
  name : String
  degree : Nat
  expr : Expr κ
  /-- The parts of the expression that are worked out before it, in this order. They decide which
  of several faults in its operands comes first. -/
  operands : List (Expr κ)

/-- An affine relation on one row: the weighted columns add up to the value. -/
structure PointConstraint (κ F : Type) where
  name : String
  row : Int
  terms : List (κ × F)
  value : F

/-- Zero where the relation holds. -/
def PointConstraint.eval {κ F : Type} [ExtensionField F] (p : PointConstraint κ F)
    (values : κ → F) : F :=
  p.terms.foldl (fun acc (c, k) => acc + k * values c) (-p.value)

/-! The final values of the running products and evaluations, and the table heights that public data
implies. -/

section Terminal

structure Terminals (F : Type) where
  processorInstruction : F
  processorMemory : F
  inputEvaluation : F
  outputEvaluation : F
  programEvaluation : F

/-- The values by name. -/
def Terminals.entries {F : Type} (t : Terminals F) : List (String × F) :=
  [("processor_instruction", t.processorInstruction), ("processor_memory", t.processorMemory),
    ("input_evaluation", t.inputEvaluation), ("output_evaluation", t.outputEvaluation),
    ("program_evaluation", t.programEvaluation)]

def Terminals.map {F G : Type} (f : F → G) (t : Terminals F) : Terminals G where
  processorInstruction := f t.processorInstruction
  processorMemory := f t.processorMemory
  inputEvaluation := f t.inputEvaluation
  outputEvaluation := f t.outputEvaluation
  programEvaluation := f t.programEvaluation

/-- The values in the order of their names. -/
def Terminals.ofList? {F : Type} : List F → Except Error (Terminals F)
  | [pi, pm, input, output, program] => .ok ⟨pi, pm, input, output, program⟩
  | _ => .error .entryCount

variable {F : Type} [ExtensionField F]

/-- The bytes as coefficients, the first one highest, evaluated at the challenge. -/
def evaluateBytes (data : ByteArray) (challenge : F) : F :=
  data.data.toList.foldl (fun acc b => acc * challenge + ExtensionField.natCast b.toNat) 0

/-- The program's rows, the halting row and `padding` rows of empty words, compressed and folded
with `eta`. Words stand for elements of the challenges' field; any other integer is refused. -/
def evaluateProgram (program : Program) (padding : Int) (ch : Challenges F) :
    Except Error F :=
  (List.range ((program.size : Int) + 1 + padding).toNat).foldlM
    (fun acc (k : Nat) =>
      let word (i : Nat) : Option F := ExtensionField.ofInt? (program.getD i 0)
      match ExtensionField.ofInt? k, word k, word (k + 1) with
      | some ip, some ci, some ni =>
        .ok (acc * ch.eta + ch.a * ip + ch.b * ci + ch.c * ni)
      | _, _, _ => .error .outOfField)
    0

namespace Heights

/-- Padded heights for a processor height and the lengths of program, input and output. -/
def ofLengths (processor program input output : Int) : Heights where
  processor := processor
  memory := processor
  instruction := nextPowerOfTwo (program + 1 + processor)
  input := nextPowerOfTwo (max input 1)
  output := nextPowerOfTwo (max output 1)

/-- The heights that a claim implies for a processor height. -/
def ofClaim (claim : Claim) (processor : Int) : Heights :=
  ofLengths processor claim.program.size claim.input.size claim.output.size

/-- The rows of the instruction table behind the program and the processor's copies. -/
def padding (h : Heights) (program : Nat) : Int := h.instruction - program - 1 - h.processor

end Heights

/-- Only the two permutation terminals come from the prover. -/
def Terminals.compute (ch : Challenges F) (claim : Claim) (padding : Int)
    (processorInstruction processorMemory : F) : Except Error (Terminals F) := do
  let programEvaluation ← evaluateProgram claim.program padding ch
  return {
    processorInstruction, processorMemory
    inputEvaluation := evaluateBytes claim.input ch.gamma
    outputEvaluation := evaluateBytes claim.output ch.delta
    programEvaluation }

end Terminal

end TapeStark
