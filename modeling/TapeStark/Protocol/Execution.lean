import TapeStark.Air.Witness
import TapeStark.Protocol.Composition
import TapeStark.Protocol.Config
import TapeStark.Protocol.Fri
import TapeStark.Protocol.Verifier
import TapeStark.Stream.Edit

/-! The prover, and a whole execution that is proven and verified. -/

namespace TapeStark

/-! The prover: from the tables of a run to the items of a proof. -/

namespace Prover

/-- The bytes that a stream table lists. -/
def streamBytes (rows : List StreamRow) : Except Error ByteArray := do
  let bytes ← rows.mapM fun r =>
    if r.value.val < 256 then .ok (UInt8.ofNat r.value.val) else .error .noByte
  return bytes.toByteArray

/-- The stream tables must list exactly the claimed bytes. -/
def checkPublic (trace : Trace) (claim : Claim) : Except Error Unit := do
  if (← streamBytes trace.input).data ≠ claim.input.data then throw .inputMismatch
  if (← streamBytes trace.output).data ≠ claim.output.data then throw .outputMismatch

/-- The randomizer polynomials: coefficient `i` of polynomial `k`. -/
abbrev Masks (F : Type) := Nat → Nat → F

variable {F : Type} [ExtensionField F]

/-- The codewords of all tables in the order of commitment, under a tag. -/
def codewords {κ : Table → Type} {V W : Type} (tag : V → W)
    (codes : PerTable fun t => LowDegree (κ t) V) : List (Array W) :=
  Table.all.flatMap fun t => (codes.get t).codewords.columns.map fun c => c.map tag

/-- Extends the columns of every table to the evaluation domain. -/
def extendAll {κ : Table → Type} {V : Type} [ExtensionField V]
    (matrices : PerTable fun t => Matrix (κ t) V) (wide : Domain) :
    Except Error (PerTable fun t => LowDegree (κ t) V) :=
  PerTable.ofFnM fun t => (matrices.get t).lowDegree wide

/-- The codewords of the randomizer polynomials. A seed is not negative. -/
def maskCodewords (config : Config) (masks : Masks F) (bound : Nat) (wide : Domain) :
    Except Error (List (Array F)) := do
  if config.parameters.seed.any (· < 0) then throw .negativeSeed
  (List.range config.randomizers).mapM fun k =>
    Fourier.evaluateOver ((List.range bound).map (masks k)).toArray wide

/-- All that is opened to answer queries. -/
structure Committed (F : Type) where
  base : Commitment (Tagged F)
  extension : Commitment (Tagged F)
  randomizers : Option (Commitment (Tagged F))
  folded : Fri.Folded F

variable {n : Type → Type} [Monad n] [Channel F (ExceptT Error n)]

def openTrace (committed : Committed F) : List Int → ExceptT Error n Unit
  | [] => pure ()
  | position :: rest => do
    Channel.push (.opening (← committed.base.openAt position))
    Channel.push (.opening (← committed.extension.openAt position))
    openTrace committed rest

/-- Opens what one query asks for. -/
def answer (fri : Fri) (heights : Heights) (committed : Committed F) (index : Nat) :
    ExceptT Error n Unit := do
  openTrace committed (Composition.positions heights index fri.domain.size)
  if let some randomizers := committed.randomizers then
    Channel.push (.opening (← randomizers.openAt index))
  fri.openQuery committed.folded index

def pushHeights (heights : Heights) : List Table → ExceptT Error n Unit
  | [] => pure ()
  | t :: rest => do
    let k ← exactLog2 (heights.get t)
    Channel.push (F := F) (.u32 k)
    pushHeights heights rest

/-- Commits to the randomizers, if there are any. -/
def commitMasks (H : Hash) (config : Config) (masks : Masks F) (bound : Nat) (wide : Domain) :
    ExceptT Error n (List (Array F) × Option (Commitment (Tagged F))) := do
  if config.randomizers = 0 then return ([], none)
  let codewords ← maskCodewords config masks bound wide
  let commitment ← Commitment.commit H config.workers (codewords.map fun c => c.map Tagged.fx)
  Channel.push (F := F) (.digest commitment.root)
  return (codewords, some commitment)

/-- Proves a claim, given the unpadded tables of the run.
The security is checked for the degree bound that the tables' heights give, before anything is
committed. -/
def prove (H : Hash) (config : Config) (masks : Masks F) (claim : Claim) (trace : Trace) :
    ExceptT Error n Unit := do
  checkPublic trace claim
  let padded ← trace.pad claim.program.size
  let heights := padded.heights
  let bound := heights.degreeBound
  config.checkSecurity bound
  let wide ← Domain.coset? (bound * config.expansion : Nat)

  Channel.absorbClaim F claim
  pushHeights (F := F) heights Table.all
  let baseCode ← extendAll padded.baseMatrices wide
  let base ← Commitment.commit H config.workers (codewords (Tagged.fp (F := F)) baseCode)
  Channel.push (F := F) (.digest base.root)

  let challenges := Challenges.ofVector (← Channel.sampleFields 11)
  let extensionMatrices ← padded.extensionMatrices challenges
  let processorInstruction : F := extensionMatrices.processor.last .ipa
  let processorMemory : F := extensionMatrices.processor.last .mpa
  Channel.push (.element (Tagged.fx processorInstruction))
  Channel.push (.element (Tagged.fx processorMemory))
  let extensionCode ← extendAll extensionMatrices wide
  let extension ← Commitment.commit H config.workers (codewords Tagged.fx extensionCode)
  Channel.push (F := F) (.digest extension.root)

  let (maskCode, randomizers) ← commitMasks H config masks bound wide

  let composition ← Composition.of challenges claim heights processorInstruction processorMemory
    config.randomizers
  let weights ← Channel.sampleFields composition.numWeights.toNat
  let tables : PerTable fun t => TableCode t F :=
    PerTable.ofFn fun t => ⟨baseCode.get t, extensionCode.get t⟩
  let codeword ← composition.compose tables weights.toList maskCode wide
  Composition.checkDegree codeword wide bound

  let fri ← Fri.of? wide config.expansion config.terminalCoefficients
  let folded ← fri.commit H config.workers codeword

  let nonce ← H.findWork (← Channel.challengeState F) config.grindingBits
  Channel.push (F := F) (.u64 nonce)
  let indices ← Channel.sampleIndices F config.numQueries wide.size
  Channel.push (F := F) (.u32 indices.length)
  indices.forM fun index => answer fri heights ⟨base, extension, randomizers, folded⟩ index

end Prover

/-! Proving and verifying a source text under one set of parameters. -/

/-- A claim and a proof of it. -/
structure ProvenExecution where
  claim : Claim
  proof : ByteArray

namespace Prover

/-- Randomizer polynomials from a seed, as challenges of a transcript of their own. -/
def seededMasks (H : Hash) (F : Type) [ExtensionField F] (seed : Option Int) : Masks F :=
  let start := Transcript.init H (Bytes.little 8 (seed.getD 0).toNat)
  fun k i => (start.put H (Bytes.little 8 k)).fieldAt H F (i * ExtensionField.degree F)

/-- Proves onto a fresh stream; gives the proof. -/
def proveBytes (H : Hash) (config : Config) (claim : Claim) (trace : Trace) :
    Except Error ByteArray :=
  let F := config.degree.Carrier
  letI : Channel F StreamM := ProofStream.channel H F
  let masks : Masks F := seededMasks H F config.parameters.seed
  let action : StreamM Unit := prove H config masks claim trace
  let (result, stream) := action (.writer H)
  result.map fun _ => stream.buffer

/-- Proves on a recording stream, with values forged on the way. -/
def proveRecorded (H : Hash) (config : Config) (forgeries : Forgeries) (claim : Claim)
    (trace : Trace) : Except Error Unit × Recorder :=
  let F := config.degree.Carrier
  letI : Channel F Recorder.Action := Recorder.channel H config.degree
  let masks : Masks F := seededMasks H F config.parameters.seed
  let action : Recorder.Action Unit := prove H config masks claim trace
  action (.init H forgeries)

end Prover

namespace ProvenExecution

/-- Compiles, runs and proves a source text. The public input is what the run consumed. -/
def prove (H : Hash) (config : Config) (source : String) (input : ByteArray) (limit : Int) :
    Except Error ProvenExecution := do
  let program ← Program.compile source
  let (trace, claim) ← Trace.simulate program input limit
  let proof ← Prover.proveBytes H config claim trace
  return ⟨claim, proof⟩

def verify (H : Hash) (config : Config) (e : ProvenExecution) : Except Error Unit :=
  Verifier.verify H config e.proof e.claim

end ProvenExecution

end TapeStark
