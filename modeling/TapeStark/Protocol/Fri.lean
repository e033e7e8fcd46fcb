import TapeStark.Field.Extension
import TapeStark.Merkle
import TapeStark.Polynomial
import TapeStark.Stream.Basic

/-! The low-degree test. Each round commits to a codeword in pairs, draws a challenge and folds
each pair into one value over the domain of squares; the last, short codeword is sent as a
polynomial. -/

namespace TapeStark

open ExtensionField

/-- The test over a domain: how often it folds, and what it ends on. -/
structure Fri where
  domain : Domain
  rounds : Nat
  /-- The points of the last codeword. -/
  terminalSize : Nat
  /-- The coefficients that the last polynomial may have. -/
  maxCoefficients : Nat

namespace Fri

def of? (domain : Domain) (expansion terminalCoefficients : Int) : Except Error Fri := do
  let size := min (domain.size : Int) (expansion * terminalCoefficients)
  let k ← exactLog2 size
  return ⟨domain, domain.logSize - k, size.toNat, (max (Int.fdiv size expansion) 1).toNat⟩

/-- The domains after `0, 1, …, rounds` foldings. -/
def layersFrom : Nat → Domain → Except Error (List Domain)
  | 0, d => .ok [d]
  | n + 1, d => do
    let rest ← layersFrom n (← d.squared)
    return d :: rest

def layers (fri : Fri) : Except Error (List Domain) := layersFrom fri.rounds fri.domain

section Folding

variable {F : Type} [ExtensionField F]

/-- From the values at `x` and `-x` to the value of the fold at `x^2`; `shift` is the challenge
divided by `x`. -/
def foldPair (shift even odd : F) : F :=
  scale (Fp.ofNat 2)⁻¹ ((1 + shift) * even + (1 - shift) * odd)

/-- Folds the values at a point and at its negative. -/
def foldValue (even odd alpha x : F) : Except Error F := do
  let inverse ← inverse? x
  return foldPair (alpha * inverse) even odd

/-- Folds a codeword into one of half the length. A half of one value stretches over the other. -/
def fold (codeword : Array F) (alpha : F) (d : Domain) : Except Error (Array F) := do
  let half := codeword.size / 2
  let offset ← inverse? d.offset
  let shifts : List F :=
    (powers d.generator⁻¹ half).map fun x => scale (x * offset) alpha
  let even := codeword.toList.take half
  let odd := codeword.toList.drop half
  if odd.length = half then
    return (List.zipWith (fun shift (e, o) => foldPair shift e o) shifts (even.zip odd)).toArray
  match shifts, even with
  | [], _ => return #[]
  | [shift], [e] => return (odd.map fun o => foldPair shift e o).toArray
  | _, _ => throw .shapeMismatch

/-- Folds a codeword with a challenge whose field has to hold it. -/
def foldWith (alpha : Element) (codeword : ElementArray) (d : Domain) :
    Except Error ElementArray := do
  let values ← codeword.promote alpha.degree
  let folded ← fold values alpha.value d
  return ⟨alpha.degree, folded⟩

/-- Folds two values of the challenge's own field, at a point that the field has to hold. -/
def foldValueWith (alpha even odd x : Element) : Except Error Element := do
  let point ← x.promote alpha.degree
  let inverse ← inverse? point
  let even ← even.inField alpha.degree
  let odd ← odd.inField alpha.degree
  return ⟨alpha.degree, foldPair (alpha.value * inverse) even odd⟩

end Folding

section Prover

variable {F : Type} [ExtensionField F] {n : Type → Type} [Monad n] [Channel F (ExceptT Error n)]

/-- The committed layers and the last polynomial. -/
structure Folded (F : Type) where
  layers : List (Commitment (Tagged F))
  final : List F

/-- A layer: leaf `j` holds the pair that folds into value `j` of the next. -/
def commitLayer {V : Type} [TaggedValue V] (H : Hash) (workers : Int) (codeword : Array V) :
    Except Error (Commitment V) :=
  let half := codeword.size / 2
  Commitment.commit H workers [codeword.extract 0 half, codeword.extract half codeword.size]

/-- Commits and folds for a number of rounds; gives the layers and the last codeword with its
domain. -/
def commitRounds (H : Hash) (workers : Int) :
    Nat → Domain → Array F → ExceptT Error n (List (Commitment (Tagged F)) × Domain × Array F)
  | 0, d, codeword => pure ([], d, codeword)
  | rounds + 1, d, codeword => do
    let layer ← commitLayer H workers (codeword.map Tagged.fx)
    Channel.push (F := F) (.digest layer.root)
    let alpha ← Channel.sampleField
    let folded ← fold codeword alpha d
    let d ← d.squared
    let (layers, last) ← commitRounds H workers rounds d folded
    return (layer :: layers, last)

/-- The commit phase: a root for each round, then the last polynomial. -/
def commit (fri : Fri) (H : Hash) (workers : Int) (codeword : Array F) :
    ExceptT Error n (Folded F) := do
  let (layers, d, last) ← commitRounds H workers fri.rounds fri.domain codeword
  let coefficients ← Fourier.interpolate last d
  let final := (Polynomial.trim coefficients).toList
  Channel.push (.elements (final.map Tagged.fx))
  return ⟨layers, final⟩

/-- The pair below `position` in each layer, of `size` points at first. -/
def openLayers {V : Type} [TaggedValue V] :
    List (Commitment V) → (size : Nat) → (position : Int) → Except Error (List (Opening V))
  | [], _, _ => .ok []
  | layer :: rest, size, position => do
    let j := position % (size / 2 : Nat)
    let opening ← layer.openAt j
    let others ← openLayers rest (size / 2) j
    return opening :: others

/-- The query phase for one index. -/
def openQuery (fri : Fri) (folded : Folded F) (index : Int) : ExceptT Error n Unit := do
  let openings ← openLayers folded.layers fri.domain.size index
  openings.forM fun o => Channel.push (.opening o)

end Prover

/-- The commit phase as the verifier sees it. -/
structure Commitments (F : Type) where
  /-- Each round's root and challenge. -/
  rounds : List (ByteArray × F)
  final : Array F

section Reader

variable (H : Hash) (F : Type) [ExtensionField F]

/-- Reads the root of a layer and draws the challenge that folds it. -/
def readRound : StreamM (ByteArray × F) := do
  let root ← ProofStream.pullDigest H
  let alpha ← ProofStream.sampleField H F
  return (root, alpha)

/-- The element of a value that must be tagged as one of the extension. -/
def extensionPart {F : Type} (fault : Malformation) : Tagged F → Except Error F
  | .fx a => .ok a
  | .fp _ => .error (.malformed fault)

def readCommitments (fri : Fri) : StreamM (Commitments F) := do
  let rounds ← ProofStream.pullMany (readRound H F) fri.rounds
  let values ← ProofStream.pullElements H F (some fri.terminalSize)
  let final ← (values.mapM (extensionPart .terminalKind) : Except Error (List F))
  return ⟨rounds, final.toArray⟩

def readLayers : Nat → (size : Nat) → StreamM (List (Opening (Tagged F)))
  | 0, _ => pure []
  | n + 1, size => do
    let opening ← ProofStream.pullOpening H F 2 (size / 2)
    let rest ← readLayers n (size / 2)
    return opening :: rest

/-- The openings that answer one query. -/
def readQuery (fri : Fri) : StreamM (List (Opening (Tagged F))) :=
  readLayers H F fri.rounds fri.domain.size

/-- Reads a proof with answers to this many queries. -/
def readProof (fri : Fri) (count : Nat) :
    StreamM (Commitments F × List (List (Opening (Tagged F)))) := do
  let commitments ← fri.readCommitments H F
  let queries ← ProofStream.pullMany (fri.readQuery H F) count
  return (commitments, queries)

end Reader

section Verifier

variable {F : Type} [ExtensionField F]

/-- Authenticates the openings from layer `k` on. -/
def checkLayers (H : Hash) :
    Nat → List (ByteArray × F) → List (Opening (Tagged F)) → Except Error Unit
  | k, (root, _) :: rounds, opening :: openings => do
    opening.check H root .fx s!"FRI layer {k}"
    checkLayers H (k + 1) rounds openings
  | _, _, _ => .ok ()

def checkOpenings (H : Hash) (commitments : Commitments F)
    (openings : List (Opening (Tagged F))) : Except Error Unit :=
  checkLayers H 0 commitments.rounds openings

def checkTerminal (fri : Fri) (commitments : Commitments F) : Except Error Unit :=
  let count := (Polynomial.trim commitments.final).size
  if count > fri.maxCoefficients then
    .error (.rejected (.degree (.coefficients count fri.maxCoefficients)))
  else .ok ()

/-- The two values of a layer's opening. -/
def pairOf (opening : Opening (Tagged F)) : Except Error (F × F) :=
  match opening.values with
  | [even, odd] => .ok (even.lift, odd.lift)
  | _ => .error .shapeMismatch

/-- The value of a layer's opening at a position in a layer of `size` points. -/
def valueOf (opening : Opening (Tagged F)) (size : Nat) (position : Int) : Except Error F := do
  let (even, odd) ← pairOf opening
  return if position < (size / 2 : Nat) then even else odd

/-- Follows the folds from layer `k` on, from a position whose value is already `known` from the
layer before, down to the last polynomial. -/
def followFolds (final : Array F) :
    (k : Nat) → List F → List (Opening (Tagged F)) → Domain → (position : Int) →
      (known : Option F) → Except Error Unit
  | _, _, [], d, position, known =>
    if known.all (· = Polynomial.eval final (ofBase (d.elementAt position))) then .ok ()
    else .error (.rejected (.degree (.lastFold position)))
  | _, [], _ :: _, _, _, _ => .error .indexOutOfRange
  | k, alpha :: alphas, opening :: openings, d, position, known => do
    let j := position % (d.size / 2 : Nat)
    if opening.index ≠ j then
      throw (.rejected (.folding (.layerIndex k opening.index j)))
    let value ← valueOf opening d.size position
    if known.any (· ≠ value) then
      throw (.rejected (.folding (.layerValue k position)))
    let (even, odd) ← pairOf opening
    let folded ← foldValue even odd alpha (ofBase (d.elementAt j))
    followFolds final (k + 1) alphas openings (← d.squared) j folded

/-- Checks the chain of folds of one query; gives the first layer's value at the index, or without
layers the value of the last polynomial there. -/
def verifyQuery (fri : Fri) (commitments : Commitments F) (index : Int)
    (openings : List (Opening (Tagged F))) : Except Error F := do
  followFolds commitments.final 0 (commitments.rounds.map (·.2)) openings fri.domain index none
  match openings with
  | [] => return Polynomial.eval commitments.final (ofBase (fri.domain.elementAt index))
  | first :: _ => valueOf first fri.domain.size index

end Verifier

end Fri

end TapeStark
