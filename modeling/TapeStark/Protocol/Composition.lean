import TapeStark.Air.Witness
import TapeStark.Domain
import TapeStark.Grid
import TapeStark.Polynomial

/-! Columns as codewords, and the composition polynomial over them. -/

namespace TapeStark

/-! Low-degree extension: columns over a trace domain as polynomials, and their values over the
wider evaluation domain. -/

/-- Columns as coefficients and as codewords. -/
structure LowDegree (κ F : Type) where
  domain : Domain
  coefficients : Matrix κ F
  codewords : Matrix κ F

/-- Extends every column from the subgroup of the matrix's height to `wide`. -/
def Matrix.lowDegree {κ F : Type} [ExtensionField F] (m : Matrix κ F) (wide : Domain) :
    Except Error (LowDegree κ F) := do
  let trace ← Domain.subgroup? m.height
  let extended ← m.columns.mapM fun column => Fourier.extend column trace wide
  return ⟨trace, ⟨m.names, extended.map (·.1)⟩, ⟨m.names, extended.map (·.2)⟩⟩

/-- Extends columns of any fields, stored in the field of the first. -/
def Matrix.extendElements {κ : Type} (names : List κ) (columns : List ElementArray)
    (wide : Domain) : Except Error ((d : Degree) × LowDegree κ d.Carrier) := do
  let shape ← Matrix.ofElements? names columns
  let _ ← Domain.subgroup? shape.height
  let ⟨d, stored⟩ ← Matrix.stackColumns columns
  let low ← (⟨names, stored⟩ : Matrix κ d.Carrier).lowDegree wide
  return ⟨d, low⟩

/-! The composition polynomial: the weighted sum of all constraint quotients and of the randomizers.
Weights are used table by table, for transitions and then for points, and at last for the
randomizers. The prover has the sum as a codeword; the verifier has its value at one point from
opened values. -/

section Composition

open ExtensionField

/-- What the constraints of all tables depend on. -/
structure Composition (F : Type) where
  heights : Heights
  inputLength : Nat
  outputLength : Nat
  challenges : Challenges F
  terminals : Terminals F
  randomizers : Int

/-- The weights of the constraints of one table. -/
structure TableWeights (F : Type) where
  transition : List F
  point : List F

/-- Weights by what they are for. -/
structure Weights (F : Type) where
  tables : PerTable fun _ => TableWeights F
  randomizer : List F

/-- The columns of one table, as polynomials and as codewords. -/
structure TableCode (t : Table) (F : Type) where
  base : LowDegree t.Base Fp
  extension : LowDegree t.Ext F

namespace TableCode

variable {F : Type} [ExtensionField F] {t : Table} (code : TableCode t F)

/-- The codeword values at position `i`. -/
def value (i : Nat) : t.Column → F
  | .base c => ofBase ((code.base.codewords.column c).getD i 0)
  | .ext c => (code.extension.codewords.column c).getD i 0

def coefficients : t.Column → List F
  | .base c => (code.base.coefficients.column c).toList.map ofBase
  | .ext c => (code.extension.coefficients.column c).toList

end TableCode

/-- Extends the columns of every table to codewords over `wide`. -/
def Assignment.code {F : Type} [ExtensionField F] (a : Assignment F) (wide : Domain) :
    Except Error (PerTable fun t => TableCode t F) :=
  PerTable.ofFnM fun t => do
    let base ← (a.get t).base.lowDegree wide
    let extension ← (a.get t).extension.lowDegree wide
    return ⟨base, extension⟩

/-- The values of one table at a point and at the point of the next row. -/
structure TableOpening (t : Table) (F : Type) where
  current : t.Column → F
  next : t.Column → F

/-- The inverse, over `wide`, of the polynomial that is zero on every row of `trace` but the last:
`(x - last) / (x^height - 1)`. -/
def zerofierInverse (trace wide : Domain) : Except Error (Array Fp) := do
  let vanishing ← Vanishing.fill (Array.replicate wide.size 0) trace wide 1
  match batchInverse vanishing with
  | .error _ => throw (.config (.meetsTrace wide.size))
  | .ok inverse =>
    let last := trace.element (trace.size - 1)
    return (List.zipWith (fun x y => (x - last) * y) wide.elements inverse.toList).toArray

namespace Composition

variable {F : Type} [ExtensionField F]

/-- The composition for a claim, the heights of its tables, and the ends of the two running
products that the prover names. -/
def of (challenges : Challenges F) (claim : Claim) (heights : Heights)
    (processorInstruction processorMemory : F) (randomizers : Int) :
    Except Error (Composition F) := do
  let terminals ← Terminals.compute challenges claim (heights.padding claim.program.size)
    processorInstruction processorMemory
  return ⟨heights, claim.input.size, claim.output.size, challenges, terminals, randomizers⟩

section Weighting

variable {F : Type} [Zero F] [One F] [Neg F] (c : Composition F)

/-- A table with a single row has no consecutive rows to relate. -/
def transitions (t : Table) : List (Transition t.Column) :=
  if c.heights.get t > 1 then t.transitions else []

def points (t : Table) : List (PointConstraint t.Column F) :=
  t.points c.challenges c.terminals c.inputLength c.outputLength (c.heights.get t)

/-- A weight for each constraint of each table. -/
def constraintCount : Nat :=
  Table.total Table.all fun t => (c.transitions t).length + (c.points t).length

def numWeights : Int := c.constraintCount + c.randomizers

/-- Takes the next weights. -/
def take {W : Type} (n : Nat) : StateM (List W) (List W) := fun weights =>
  (weights.take n, weights.drop n)

def takeTables {W : Type} : StateM (List W) (PerTable fun _ => TableWeights W) :=
  PerTable.ofFnM fun t => do
    let transition ← take (c.transitions t).length
    let point ← take (c.points t).length
    return ⟨transition, point⟩

/-- Splits as many weights as there are constraints and randomizers. -/
def splitWeights {W : Type} (weights : List W) : Except Error (Weights W) :=
  if weights.length = c.numWeights then
    let (tables, rest) := c.takeTables weights
    .ok ⟨tables, rest⟩
  else .error (.weightCount c.numWeights weights.length)

/-- The first of the weights tells their field. -/
def weightsOf {W : Type} (weights : List W) : Except Error (Weights W) :=
  if weights.isEmpty then .error .indexOutOfRange else c.splitWeights weights

end Weighting

/-- The position of the row behind, in a domain of `size` points over `height` rows. -/
def nextPosition (index size height : Int) : Int := (index + size.fdiv height).fmod size

/-- The positions a query opens: its own and the one of each table's next row. -/
def positions (heights : Heights) (index size : Int) : List Int :=
  (index :: Table.all.map fun t => nextPosition index size (heights.get t)).eraseDups

/-- The positions for any sizes, of which none may be zero. -/
def positions? (heights : Heights) (index size : Int) : Except Error (List Int) :=
  if size = 0 ∨ heights.toList.any (· = 0) then .error .divisionByZero
  else .ok (positions heights index size)

variable (c : Composition F)

section Prover

/-- The weighted transition constraints of a table at position `i`. -/
def transitionAt {t : Table} (code : TableCode t F) (weights : List F) (size i : Nat) : F :=
  let stride := size / code.base.domain.size
  (List.zipWith (fun w k => w * k.expr.evalAt code.value c.challenges size stride i) weights
    (c.transitions t)).foldl (· + ·) 0

/-- The left sides of a point constraint as one polynomial. -/
def pointPolynomial {t : Table} (code : TableCode t F) (weight : F)
    (p : PointConstraint t.Column F) : List F :=
  p.terms.foldl (fun acc (column, k) =>
    List.zipWith (· + ·) acc ((code.coefficients column).map (weight * k * ·)))
    (List.replicate code.base.domain.size 0)

/-- Adds a polynomial to the one of its row; a row that is new stands last. -/
def addToRow (row : Int) (p : List F) : List (Int × List F) → List (Int × List F)
  | [] => [(row, p)]
  | (r, q) :: rest =>
    if r = row then (r, List.zipWith (· + ·) q p) :: rest else (r, q) :: addToRow row p rest

/-- The left sides of weighted point constraints, added up for each row that they are about. -/
def rowPolynomials {t : Table} (code : TableCode t F)
    (constraints : List (F × PointConstraint t.Column F)) : List (Int × List F) :=
  constraints.foldl (fun rows (w, p) => addToRow p.row (pointPolynomial code w p) rows) []

/-- The quotients of all point constraints of a table, one for each row, over `wide`. -/
def pointCodeword {t : Table} (code : TableCode t F) (weights : List F) (wide : Domain) :
    Except Error (Array F) := do
  let trace := code.base.domain
  let sum ← (rowPolynomials code (weights.zip (c.points t))).foldlM
    (fun acc (row, p) =>
      Polynomial.divideOutInto acc p.toArray (ofBase (trace.elementAt row)) 1)
    (Array.replicate trace.size 0)
  Fourier.evaluateOver sum wide

/-- The part of one table in the composition codeword. -/
def tableCodeword {t : Table} (code : TableCode t F) (weights : TableWeights F) (wide : Domain) :
    Except Error (List F) := do
  let transition ←
    if (c.transitions t).isEmpty then pure (List.replicate wide.size 0)
    else do
      let zerofier ← zerofierInverse code.base.domain wide
      let combined := (List.range wide.size).map fun i =>
        c.transitionAt code weights.transition wide.size i
      pure (List.zipWith scale zerofier.toList combined)
  let point ←
    if (c.points t).isEmpty then pure (Array.replicate wide.size 0)
    else c.pointCodeword code weights.point wide
  return List.zipWith (· + ·) transition point.toList

/-- The composition codeword over `wide`. -/
def compose (tables : PerTable fun t => TableCode t F) (weights : List F)
    (randomizers : List (Array F)) (wide : Domain) : Except Error (Array F) := do
  let weights ← c.weightsOf weights
  let parts ← Table.all.mapM fun t =>
    c.tableCodeword (tables.get t) (weights.tables.get t) wide
  let masks := List.zipWith (fun w r => r.toList.map (w * ·)) weights.randomizer randomizers
  return ((parts ++ masks).foldl (List.zipWith (· + ·)) (List.replicate wide.size 0)).toArray

/-- Refuses a codeword whose interpolant does not stay below the bound. -/
def checkDegree (codeword : Array F) (wide : Domain) (bound : Int) : Except Error Unit := do
  let coefficients ← Fourier.interpolate codeword wide
  let actual := Polynomial.degree coefficients
  if actual ≥ bound then throw (.compositionDegree actual bound)

end Prover

section Verifier

/-- The weighted quotients of one table at `x`: from the values of its transition constraints,
and of its point constraints with the rows they hold on. A value may be missing. -/
def quotients (x : F) (trace : Domain) (weights : TableWeights F)
    (transitions : List (Except Error F)) (points : List (Int × Except Error F)) :
    Except Error F := do
  let transition ←
    if transitions.isEmpty then pure 0
    else do
      let combined ← (weights.transition.zip transitions).foldlM
        (fun acc (w, value) => return acc + w * (← value)) 0
      let last : F := ofBase (trace.element (trace.size - 1))
      let inverse ← inverse? (power x trace.size - 1)
      pure (combined * (x - last) * inverse)
  (weights.point.zip points).foldlM
    (fun acc (w, row, value) => do
      let value ← value
      let inverse ← inverse? (x - ofBase (trace.elementAt row))
      return acc + w * value * inverse)
    transition

/-- The part of one table in the composition value at `x`. -/
def tableValue {t : Table} (x : F) (opening : TableOpening t F) (weights : TableWeights F) :
    Except Error F := do
  let trace ← Domain.subgroup? (c.heights.get t)
  quotients x trace weights
    ((c.transitions t).map fun k =>
      .ok (k.expr.eval opening.current opening.next c.challenges))
    ((c.points t).map fun p => (p.row, .ok (p.eval opening.current)))

/-- The composition value at `x`, from the opened values. -/
def evaluate (x : F) (openings : PerTable fun t => TableOpening t F) (randomizers : List F)
    (weights : List F) : Except Error F := do
  let weights ← c.weightsOf weights
  let parts ← Table.all.mapM fun t => c.tableValue x (openings.get t) (weights.tables.get t)
  return (parts ++ List.zipWith (· * ·) weights.randomizer randomizers).foldl (· + ·) 0

end Verifier

end Composition

end Composition

end TapeStark
