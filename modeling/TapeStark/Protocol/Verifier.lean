import TapeStark.Protocol.Composition
import TapeStark.Protocol.Config
import TapeStark.Protocol.Fri

/-! The verifier: reads a proof while replaying its transcript, then checks in this order the
openings, the proof of work, the query positions, the folds, and the composition values. -/

namespace TapeStark.Verifier

open ExtensionField

/-- What answers one query. -/
structure Query (F : Type) where
  index : Nat
  positions : List Int
  base : List (Opening (Tagged F))
  extension : List (Opening (Tagged F))
  randomizers : Option (Opening (Tagged F))
  layers : List (Opening (Tagged F))

/-- All that is read from a proof, with the challenges drawn on the way. -/
structure Received (F : Type) where
  composition : Composition F
  fri : Fri
  baseRoot : ByteArray
  extensionRoot : ByteArray
  randomizerRoot : Option ByteArray
  weights : List F
  folded : Fri.Commitments F
  /-- The state that the proof of work is done for. -/
  state : ByteArray
  nonce : Nat
  /-- The indices that the transcript draws. -/
  drawn : List Nat
  queries : List (Query F)

/-- The number of base columns of all tables. -/
def baseWidth : Nat :=
  Table.total Table.all fun t => (ColumnSet.all : List t.Base).length

/-- The number of extension columns of all tables. -/
def extensionWidth : Nat :=
  Table.total Table.all fun t => (ColumnSet.all : List t.Ext).length

section Reading

variable (H : Hash)

/-- Reads the logarithms of the table heights, which the public data must imply. -/
def readHeights (claim : Claim) : StreamM Heights := do
  let logs : PerTable fun _ => Nat ← PerTable.ofFnM fun _ => ProofStream.pullU32 H
  if Table.all.any fun t => logs.get t > Fp.twoAdicity then
    throw (.malformed (.heightsOutOfRange (PerTable.ofFn fun t => (logs.get t : Int))))
  let heights : Heights := PerTable.ofFn fun t => (Nat.pow 2 (logs.get t) : Nat)
  let expected := Heights.ofClaim claim heights.processor
  if heights ≠ expected then throw (.malformed (.heightsMismatch heights expected))
  return heights

/-- The evaluation domain, if the degree bound leaves room and security for it. -/
def domainFor (config : Config) (bound : Nat) : Except Error Domain := do
  if (bound * config.expansion).log2 > Fp.twoAdicity then
    throw (.malformed (.degreeBound bound))
  let achieved := config.securityFor bound
  if achieved < config.securityLevel then
    throw (.malformed (.security achieved config.securityLevel))
  Domain.coset? (bound * config.expansion : Nat)

variable (F : Type) [ExtensionField F]

/-- Reads the trace openings at the positions, of which `first` is read already. -/
def readTrace (size : Nat) (first : Option (Opening (Tagged F))) :
    List Int → StreamM (List (Opening (Tagged F)) × List (Opening (Tagged F)))
  | [] => return ([], [])
  | _ :: rest => do
    let base ←
      match first with
      | some o => pure o
      | none => ProofStream.pullOpening H F baseWidth size
    let extension ← ProofStream.pullOpening H F extensionWidth size
    let (bases, extensions) ← readTrace size none rest
    return (base :: bases, extension :: extensions)

/-- Reads the answer to a query; its first opening names the index. -/
def readQuery (heights : Heights) (fri : Fri) (randomizers : Nat) : StreamM (Query F) := do
  let size := fri.domain.size
  let first ← ProofStream.pullOpening H F baseWidth size
  let index := first.index.toNat
  let positions := Composition.positions heights index size
  let (base, extension) ← readTrace H F size (some first) positions
  let randomizers ←
    if randomizers = 0 then pure none
    else some <$> ProofStream.pullOpening H F randomizers size
  let layers ← fri.readQuery H F
  return ⟨index, positions, base, extension, randomizers, layers⟩

/-- Reads a whole proof. -/
def read (config : Config) (claim : Claim) : StreamM (Received F) := do
  ProofStream.absorbClaim H claim
  let heights ← readHeights H claim
  let wide ← domainFor config heights.degreeBound

  let baseRoot ← ProofStream.pullDigest H
  let challenges := Challenges.ofVector (← ProofStream.sampleFields H F 11)
  let instructionTerminal ← ProofStream.pullElement H F
  let memoryTerminal ← ProofStream.pullElement H F
  let processorInstruction ← Fri.extensionPart .argumentKind instructionTerminal
  let processorMemory ← Fri.extensionPart .argumentKind memoryTerminal
  let extensionRoot ← ProofStream.pullDigest H
  let randomizerRoot ←
    if config.randomizers = 0 then pure none else some <$> ProofStream.pullDigest H

  let composition ← Composition.of challenges claim heights processorInstruction processorMemory
    config.randomizers
  let weights ← ProofStream.sampleFields H F composition.numWeights.toNat
  let fri ← Fri.of? wide config.expansion config.terminalCoefficients
  let folded ← fri.readCommitments H F

  let state ← ProofStream.challengeState
  let nonce ← ProofStream.pullU64 H
  let drawn ← ProofStream.sampleIndices H config.numQueries wide.size
  let count ← ProofStream.pullU32 H
  if count > config.numQueries then
    throw (.malformed (.queryCount count config.numQueries))
  let queries ← ProofStream.pullMany (readQuery H F heights fri config.randomizers) count
  ProofStream.finish
  return {
    composition, fri, baseRoot, extensionRoot, randomizerRoot, weights := weights.toList, folded
    state, nonce, drawn, queries }

end Reading

section Checking

variable {F : Type} [ExtensionField F] (r : Received F)

/-- Authenticates everything opened for a query. -/
def checkOpenings (H : Hash) (q : Query F) : Except Error Unit := do
  (q.base.zip q.extension).forM fun (base, extension) => do
    base.check H r.baseRoot .fp "base trace"
    extension.check H r.extensionRoot .fx "extension trace"
  if let (some root, some opening) := (r.randomizerRoot, q.randomizers) then
    opening.check H root .fx "randomizers"
  Fri.checkOpenings H r.folded q.layers

/-- The trace and the randomizers must be opened where the query asks. -/
def checkPositions (q : Query F) : Except Error Unit := do
  (q.positions.zip (q.base.zip q.extension)).forM fun (position, base, extension) =>
    if base.index ≠ position ∨ extension.index ≠ position then
      .error (.rejected (.folding (.tracePosition q.index base.index extension.index position)))
    else .ok ()
  if let some opening := q.randomizers then
    if opening.index ≠ q.index then
      throw (.rejected (.folding (.randomizerPosition q.index opening.index)))

/-- The place of a column in a row of all tables' columns. -/
def place (κ : Table → Type) [∀ t, ColumnSet (κ t)] [∀ t, DecidableEq (κ t)] {t : Table}
    (c : κ t) : Nat :=
  Table.total (Table.all.takeWhile (· ≠ t)) (fun t => (ColumnSet.all : List (κ t)).length) +
    (ColumnSet.all : List (κ t)).idxOf c

/-- The value of a column, if the rows of base and extension columns reach to its place. -/
def valueAt? (base extension : List F) {t : Table} : t.Column → Option F
  | .base c => base[place Table.Base c]?
  | .ext c => extension[place Table.Ext c]?

/-- The values of one table, taken from the rows of all tables' columns. No column may be missing. -/
def rowOf (base extension : List F) (t : Table) : Except Error (t.Column → F) :=
  if h : ∀ k ∈ (ColumnSet.all : List t.Column), (valueAt? base extension k).isSome then
    .ok fun k => (valueAt? base extension k).get (h k (Table.mem_column k))
  else .error .missingEntry

/-- The trace openings of a query at one of its positions. -/
def openedAt (q : Query F) (position : Int) :
    Except Error (Opening (Tagged F) × Opening (Tagged F)) :=
  match (q.base.zip q.extension).find? fun (base, _) => base.index = position with
  | some row => .ok row
  | none => .error .missingEntry

/-- The opened values of a table at one of the positions. -/
def openedRow (q : Query F) (t : Table) (position : Int) : Except Error (t.Column → F) := do
  let (base, extension) ← openedAt q position
  rowOf (base.values.map Tagged.lift) (extension.values.map Tagged.lift) t

/-- The opened values of a table at a query's index and at its next row. -/
def tableOpening (q : Query F) (t : Table) : Except Error (TableOpening t F) := do
  let next :=
    Composition.nextPosition q.index r.fri.domain.size (r.composition.heights.get t)
  return ⟨← openedRow q t q.index, ← openedRow q t next⟩

/-- The first layer must hold the composition of the opened values. -/
def checkComposition (q : Query F) (first : F) : Except Error Unit := do
  let openings ← PerTable.ofFnM fun t => tableOpening r q t
  let randomizers := (q.randomizers.map fun o => o.values.map Tagged.lift).getD []
  let x : F := ofBase (r.fri.domain.element q.index)
  let expected ← r.composition.evaluate x openings randomizers r.weights
  if expected ≠ first then throw (.rejected (.composition q.index))

/-- All checks on what was read. -/
def check (H : Hash) (config : Config) : Except Error Unit := do
  r.queries.forM (checkOpenings r H)
  if !H.meetsWork r.state r.nonce config.grindingBits then
    throw (.rejected (.proofOfWork r.nonce config.grindingBits))
  let answered := r.queries.map (·.index)
  if answered ≠ r.drawn then throw (.rejected (.folding (.queries answered r.drawn)))
  r.queries.forM checkPositions
  let firsts ← r.queries.mapM fun q => r.fri.verifyQuery r.folded q.index q.layers
  r.fri.checkTerminal r.folded
  (r.queries.zip firsts).forM fun (q, first) => checkComposition r q first

end Checking

/-- Verifies on a stream that may be reading any proof; accepts by succeeding. -/
def verifyOn (H : Hash) (config : Config) (claim : Claim) : StreamM Unit := do
  let received ← read H config.degree.Carrier config claim
  check received H config

/-- Verifies the bytes of a proof. -/
def verify (H : Hash) (config : Config) (proof : ByteArray) (claim : Claim) : Except Error Unit :=
  (verifyOn H config claim (.reader H proof)).1

end TapeStark.Verifier
