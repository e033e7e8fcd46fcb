import TapeStark.Air.Table
import TapeStark.Field.Extension
import TapeStark.Protocol.Composition

/-! Constraints and their composition on values that may lie in different fields. -/

namespace TapeStark

/-! Constraints on values that are given by column name and may lie in either field. A value that is
missing and operands of different fields fail where they are met, so that the first of several
faults is reported. -/

/-- Entries by name, in order. -/
abbrev Named (α : Type) := List (String × α)

/-- The entry of a name that has to be there. -/
def Named.find {α : Type} (entries : Named α) (name : String) : Except Error α :=
  match entries.lookup name with
  | some x => .ok x
  | none => .error .missingEntry

/-- The field of the first entry. -/
def Named.degree {V : Type} [FieldValue V] : Named V → Except Error Degree
  | [] => .error .noEntries
  | (_, v) :: _ => .ok (FieldValue.degree v)

section Transitions

variable {κ V : Type} [ColumnSet κ] [FieldValue V]

/-- The value on two rows; the numbers of the expression lie in the field `d`. -/
def Expr.evalNamed (d : Degree) (ch : Challenges Element) (cur next : Named V) :
    Expr κ → Except Error V
  | .cur c => cur.find (ColumnSet.name c)
  | .next c => next.find (ColumnSet.name c)
  | .challenge x => .ok (FieldValue.ofElement (ch.get x))
  | .const n => .ok (FieldValue.ofElement (Element.natCast d n))
  | .add x y => do
    let a ← x.evalNamed d ch cur next
    let b ← y.evalNamed d ch cur next
    FieldValue.add a b
  | .sub x y => do
    let a ← x.evalNamed d ch cur next
    let b ← y.evalNamed d ch cur next
    FieldValue.sub a b
  | .mul x y => do
    let a ← x.evalNamed d ch cur next
    let b ← y.evalNamed d ch cur next
    FieldValue.mul a b

/-- The value on two rows. The first value of the row tells the field of the numbers. -/
def Transition.evalNamed (t : Transition κ) (ch : Challenges Element) (cur next : Named V) :
    Except Error V := do
  let d ← cur.degree
  for e in t.operands do
    let _ ← e.evalNamed d ch cur next
  t.expr.evalNamed d ch cur next

end Transitions

/-- The values of a table's transition constraints on two rows. -/
def Table.transitionValues {V : Type} [FieldValue V] (t : Table) (ch : Challenges Element)
    (cur next : Named V) : Except Error (Named (Except Error V)) := do
  let _ ← cur.degree
  return t.transitions.map fun c => (c.name, c.evalNamed ch cur next)

/-- The values of a table's transition constraints along whole columns, where the row behind
stands `stride` places on. -/
def Table.transitionColumns (t : Table) (ch : Challenges Element) (columns : Named ElementArray)
    (stride : Int) : Except Error (Named (Except Error ElementArray)) :=
  t.transitionValues ch columns (columns.map fun (name, xs) => (name, xs.rotate stride))

/-- Zero where the relation holds. -/
def PointConstraint.evalNamed {κ : Type} [ColumnSet κ] (p : PointConstraint κ Element)
    (values : Named Element) : Except Error Element :=
  p.terms.foldlM
    (fun acc (c, k) => do
      let value ← values.find (ColumnSet.name c)
      let term ← FieldValue.mul k value
      FieldValue.add acc term)
    (-p.value)

/-- The point constraints with the zero and the one of the challenges' field. -/
def Table.mixedPoints (ch : Challenges Element) (terminals : Terminals Element)
    (inputLength outputLength height : Int) (t : Table) :
    List (PointConstraint t.Column Element) :=
  Element.within ch.a.degree (t.points ch terminals inputLength outputLength height)

/-- The terminals of a claim, with ends of the running products from any field. -/
def Terminals.computeMixed {d : Degree} (ch : Challenges d.Carrier) (claim : Claim)
    (padding : Int) (processorInstruction processorMemory : Element) :
    Except Error (Terminals Element) := do
  let terminals ← Terminals.compute ch claim padding 0 0
  return { terminals.map (Element.mk d) with processorInstruction, processorMemory }

/-- The padding that two of the heights leave in the instruction table. -/
def Heights.paddingNamed (heights : Named Int) (program : Nat) : Except Error Int := do
  let instruction ← heights.find Table.instruction.name
  let processor ← heights.find Table.processor.name
  return instruction - program - 1 - processor

/-! The composition polynomial for challenges, weights and opened values that may lie in different
fields. The weights decide where the sum is taken. -/

namespace Composition

/-- The composition for a claim and a processor height that may be any integer, with ends of the
running products from any field. -/
def ofMixed {d : Degree} (challenges : Challenges d.Carrier) (claim : Claim) (processor : Int)
    (processorInstruction processorMemory : Element) (randomizers : Int) :
    Except Error (Composition Element) := do
  let heights := Heights.ofClaim claim processor
  let terminals ← Terminals.computeMixed challenges claim (heights.padding claim.program.size)
    processorInstruction processorMemory
  return ⟨heights, claim.input.size, claim.output.size, challenges.map (Element.mk d), terminals,
    randomizers⟩

section Values

variable (c : Composition Element)

/-- Works with the zero and the one of the challenges' field. -/
def inChallengeField {α : Type} (f : [Zero Element] → [One Element] → α) : α :=
  Element.within c.challenges.a.degree f

def mixedWeightCount : Int := c.inChallengeField c.numWeights

def splitMixed {W : Type} (weights : List W) : Except Error (Weights W) :=
  c.inChallengeField (c.splitWeights weights)

/-- The part of one table in the composition value at `x`. -/
def mixedTableValue {d : Degree} (x : d.Carrier) (openings : Named (Named Element × Named Element))
    (weights : TableWeights d.Carrier) (t : Table) : Except Error d.Carrier := do
  let (current, next) ← openings.find t.name
  let trace ← Domain.subgroup? (c.heights.get t)
  let inField (value : Except Error Element) : Except Error d.Carrier := do
    (← value).inField d
  quotients x trace weights
    ((c.transitions t).map fun k => inField (k.evalNamed c.challenges current next))
    ((c.inChallengeField (c.points t)).map fun p => (p.row, inField (p.evalNamed current)))

/-- The composition value at `x`, from values that are opened by table and column name. -/
def evaluateMixed (x : Element) (openings : Named (Named Element × Named Element))
    (randomizers : List Element) (weights : ElementArray) : Except Error Element := do
  let split ← c.inChallengeField (c.weightsOf weights.values.toList)
  let x ← x.promote weights.degree
  let parts ← Table.all.mapM fun t => c.mixedTableValue x openings (split.tables.get t) t
  let masks ← (split.randomizer.zip randomizers).mapM fun (w, value) => do
    return w * (← value.inField weights.degree)
  return ⟨weights.degree, (parts ++ masks).foldl (· + ·) 0⟩

end Values

/-- The composition codeword over `wide`, with weights and randomizers from any field. Columns
that depend on the challenges have to embed where the weights lie, and the challenges have to lie
there too. -/
def composeMixed {d : Degree} (c : Composition d.Carrier)
    (tables : PerTable fun t => TableCode t d.Carrier) (weights : ElementArray)
    (randomizers : List ElementArray) (wide : Domain) : Except Error (Array d.Carrier) := do
  let _ ← c.weightsOf weights.values.toList
  if weights.degree = d then
    let weights ← weights.promote d
    let masks ← randomizers.mapM fun r => r.promote d
    c.compose tables weights.toList masks wide
  else if d = .three ∧ !(c.transitions .processor).isEmpty then throw .cannotEmbed
  else throw .fieldMismatch

end Composition

end TapeStark
