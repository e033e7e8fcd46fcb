import Mathlib
import TapeStark.Proofs.Protocol.Accepted
import TapeStark.Proofs.Protocol.Prepared
import TapeStark.Proofs.Protocol.Totality
import TapeStark.Protocol.Execution

/-! Completeness: from a halted run the prover writes a proof that the verifier accepts, or fails
for one of a few reasons that are known beforehand. -/

namespace TapeStark

open ExtensionField

/-- The failures that are left to the prover of a run with so many processor rows, whose composition
stays below `bound`, and the stream they leave. -/
inductive Prover.Foreseen (H : Hash) (config : Config) (rows bound : Nat) :
    Error → ProofStream → Prop
  /-- The clock of the padding leaves the field. -/
  | clock (h : 2 ^ 63 < rows) (s : ProofStream) : Foreseen H config rows bound .outOfField s
  | security (h : config.securityFor bound < config.securityLevel) (s : ProofStream) :
    Foreseen H config rows bound (.config (.degreeBound (config.securityFor bound)
      config.securityLevel bound config.degree.bits)) s
  /-- No root of unity has the order of the evaluation domain. -/
  | size (h : 2 ^ 32 < bound * config.expansion) (s : ProofStream) :
    Foreseen H config rows bound (.size (.noRoot (bound * config.expansion : Nat))) s
  /-- No nonce of eight bytes does the work. -/
  | work (s : ProofStream)
    (h : ∀ nonce < 2 ^ 64, H.meetsWork s.transcript.state nonce config.grindingBits = false) :
    Foreseen H config rows bound .integerWidth s
  /-- The randomizers of an opening are too many to be counted in four bytes. -/
  | count (h : 2 ^ 32 ≤ config.randomizers) (s : ProofStream) :
    Foreseen H config rows bound .integerWidth s

section DegreeTest

variable {F : Type} [ExtensionField F] (H : Hash) (config : Config)

/-- How the prover goes on from the codeword of the composition: it folds, works and answers. -/
private def Prover.testDegree [Channel F StreamM] (fri : Fri) (size : Nat) (heights : Heights)
    (codeword : Array F) (base extension : Commitment (Tagged F))
    (randomizers : Option (Commitment (Tagged F))) : StreamM Unit := do
  let folded ← fri.commit H config.workers codeword
  let nonce ← H.findWork (← Channel.challengeState F) config.grindingBits
  Channel.push (F := F) (m := StreamM) (.u64 nonce)
  let indices ← Channel.sampleIndices F config.numQueries size
  Channel.push (F := F) (m := StreamM) (.u32 indices.length)
  indices.forM fun index => Prover.answer fri heights ⟨base, extension, randomizers, folded⟩ index

/-- How the reader goes on in the meantime. -/
private def Verifier.readDegreeTest (fri : Fri) (size : Nat) (heights : Heights)
    (composition : Composition F) (baseRoot extensionRoot : ByteArray)
    (randomizerRoot : Option ByteArray) (weights : List F) : StreamM (Verifier.Received F) := do
  let folded ← fri.readCommitments H F
  let state ← ProofStream.challengeState
  let nonce ← ProofStream.pullU64 H
  let drawn ← ProofStream.sampleIndices H config.numQueries size
  let count ← ProofStream.pullU32 H
  if count > config.numQueries then
    throw (.malformed (.queryCount count config.numQueries))
  let queries ← ProofStream.pullMany (Verifier.readQuery H F heights fri config.randomizers) count
  ProofStream.finish
  return {
    composition, fri, baseRoot, extensionRoot, randomizerRoot, weights, folded
    state, nonce, drawn, queries }

variable [LawfulExtension F] {H config} {E : Error → ProofStream → Prop}

/-- A codeword of low degree passes the test, if the composition of what was committed to before
has its values. -/
private theorem replays_testDegree {fri : Fri} {k : Nat} (hfits : fri.Fits k) (hk : k < 32)
    (hoffset : fri.domain.offset ≠ 0) {p : Polynomial F} (hp : p.degree < (2 ^ k : Nat))
    {tables : PerTable fun t => TableCode t F} {domain : Table → Domain}
    (composition : Composition F) (hheights : ∀ t, composition.heights.get t = (domain t).size)
    (hle : ∀ t, (domain t).size ≤ fri.domain.size)
    {b e : Commitment (Tagged F)} (hcommitted : Verifier.TraceCommitted H tables fri.domain b e)
    {masks : List (Polynomial F)} (hlength : masks.length = config.randomizers)
    {randomizers : Option (Commitment (Tagged F))}
    (hrandomizers : Verifier.MasksCommitted H fri.domain masks randomizers) {weights : List F}
    (hevaluate : ∀ i, composition.evaluate (ofBase (fri.domain.element i))
        (PerTable.ofFn fun t => (tables.get t).openingAt (domain t) (ofBase (fri.domain.element i)))
        (masks.map fun p => p.eval (ofBase (fri.domain.element i))) weights =
      .ok (p.eval (ofBase (fri.domain.element i))))
    (hwork : ∀ s : ProofStream,
      (∀ nonce < 2 ^ 64, H.meetsWork s.transcript.state nonce config.grindingBits = false) →
        E .integerWidth s)
    (hmany : 2 ^ 32 ≤ config.randomizers → ∀ s, E .integerWidth s) :
    letI := ProofStream.channel H F
    Replays (· = ByteArray.empty) E
      (Prover.testDegree H config fri fri.domain.size composition.heights
        (Fourier.values p fri.domain).toArray b e randomizers)
      (Verifier.readDegreeTest H config fri fri.domain.size composition.heights composition b.root
        e.root (randomizers.map Commitment.root) weights)
      fun _ r => Verifier.check r H config = .ok () := by
  unfold Prover.testDegree Verifier.readDegreeTest
  rw [← hlength] at hmany ⊢
  have hcount : p.degree < (2 ^ 32 - 1 : Nat) := by
    have hlt : 2 ^ k < 2 ^ 32 := Nat.pow_lt_pow_right (by decide) hk
    exact hp.trans_le (by exact_mod_cast Nat.le_sub_one_of_lt hlt)
  refine (Fri.replays_commit hfits hoffset config.workers hp
    fun _ hlarge => absurd hcount hlarge).bind fun folded commitments hfolded => ?_
  refine ProofStream.replays_findWork H hwork fun _ state hlt hmeets => ?_
  refine (ProofStream.replays_u64 H hlt).bind fun _ nonce hn => ?_
  subst hn
  refine (ProofStream.replays_sampleIndices H _ fri.domain.logSize).bind fun _ drawn hdrawn => ?_
  obtain ⟨rfl, hindices, hcount⟩ := hdrawn
  rw [Int.toNat_natCast] at hcount
  have hsmall : drawn.length < 2 ^ 32 :=
    (hcount.trans config.numQueries_le).trans_lt (by decide)
  refine (ProofStream.replays_u32 H hsmall).bind fun _ count hc => ?_
  subst hc
  refine Replays.check_right (not_lt.mpr hcount) ?_
  have honest : Verifier.Honest H tables fri.domain masks p fri ⟨b, e, randomizers, folded⟩
      commitments := ⟨rfl, hcommitted, hrandomizers, hfolded⟩
  refine (Verifier.replays_answers honest hmany composition.heights hindices).bind_right
    fun _ queries hqueries => ProofStream.replays_finish ?_
  exact Verifier.Agrees.check_eq ⟨honest, rfl, rfl, rfl, hheights, hle, hevaluate⟩ hfolded.terminal
    hmeets hqueries.1 hqueries.2

end DegreeTest

section Replay

variable {F : Type} [ExtensionField F] [LawfulExtension F] {E : Error → ProofStream → Prop}
  {H : Hash} {config : Config} {program : Program} {input : ByteArray} (r : Run program input) {t : Trace}
  {starts : Nat → Prop} (hlayout : Program.Layout program [] starts) (h : r.Padded t)
  (hpad : r.PadFits) (hfits : r.Fits) (ch : Challenges F)

include hlayout h hpad hfits

/-- What a reader has behind the commitments passes all checks. -/
private theorem replays_composed {domain : Table → Domain} {wide : Domain}
    (hon : t.On domain wide) (hwide : wide.offset = Fp.generator)
    (hsize : t.heights.degreeBound * config.expansion = wide.size)
    {base : PerTable fun T => LowDegree T.Base Fp} {extension : PerTable fun T => LowDegree T.Ext F}
    (hextends : ∀ T, (⟨base.get T, extension.get T⟩ : TableCode T F).Extends (domain T) wide
      (T.columns ch (t.rows T)).cell)
    {b e : Commitment (Tagged F)} (hcommitted : Verifier.TraceCommitted H
      (PerTable.ofFn fun T => ⟨base.get T, extension.get T⟩) wide b e)
    {masks : List (Polynomial F)} (hmasks : ∀ p ∈ masks, p.degree < t.heights.degreeBound)
    (hlength : masks.length = config.randomizers)
    {randomizers : Option (Commitment (Tagged F))}
    (hrandomizers : Verifier.MasksCommitted H wide masks randomizers)
    (hwork : ∀ s : ProofStream,
      (∀ nonce < 2 ^ 64, H.meetsWork s.transcript.state nonce config.grindingBits = false) →
        E .integerWidth s)
    (hmany : 2 ^ 32 ≤ config.randomizers → ∀ s, E .integerWidth s) :
    letI := ProofStream.channel H F
    Replays (· = ByteArray.empty) E
      (do
        let composition ← (Composition.of ch r.claim t.heights
          ((Table.columns ch .processor t.processor).extension.last .ipa)
          ((Table.columns ch .processor t.processor).extension.last .mpa) config.randomizers :
            Except Error (Composition F))
        let weights ← Channel.sampleFields composition.numWeights.toNat
        let tables : PerTable fun T => TableCode T F :=
          PerTable.ofFn fun T => ⟨base.get T, extension.get T⟩
        let codeword ← composition.compose tables weights.toList
          (masks.map fun p => (Fourier.values p wide).toArray) wide
        Composition.checkDegree codeword wide t.heights.degreeBound
        let fri ← Fri.of? wide config.expansion config.terminalCoefficients
        Prover.testDegree H config fri wide.size t.heights codeword b e randomizers)
      (do
        let composition ← (Composition.of ch r.claim t.heights
          ((Table.columns ch .processor t.processor).extension.last .ipa)
          ((Table.columns ch .processor t.processor).extension.last .mpa) config.randomizers :
            Except Error (Composition F))
        let weights ← ProofStream.sampleFields H F composition.numWeights.toNat
        let fri ← Fri.of? wide config.expansion config.terminalCoefficients
        Verifier.readDegreeTest H config fri wide.size t.heights composition b.root e.root
          (randomizers.map Commitment.root) weights.toList)
      fun _ q => Verifier.check q H config = .ok () := by
  rw [← hlength]
  have hcomposition := h.composition_of r hpad ch hfits masks.length
  refine Replays.ok_left hcomposition (Replays.ok_right hcomposition ?_)
  refine (ProofStream.replays_sampleFields H F _).bind fun _ weights hw => ?_
  subst hw
  have hweights : (weights.toList.length : Int) = (r.composition t ch masks.length).numWeights := by
    rw [Vector.length_toList, Int.toNat_of_nonneg]
    exact Int.add_nonneg (Int.natCast_nonneg _) (Int.natCast_nonneg _)
  have hcodes : ∀ T, ((PerTable.ofFn fun T => (⟨base.get T, extension.get T⟩ : TableCode T F)).get
      T).Extends (domain T) wide (T.columns ch (t.rows T)).cell := by
    intro T
    rw [PerTable.get_ofFn]
    exact hextends T
  obtain ⟨p, hp, hcompose, hevaluate⟩ := h.exists_polynomial r hlayout hpad ch hon hwide hcodes
    hmasks hweights
  have hoffset : wide.offset ≠ 0 := hwide ▸ Fp.generator_ne_zero
  obtain ⟨k, hk⟩ := t.heights.exists_degreeBound
  obtain ⟨fri, hfri, rfl, hfriFits, hsmall⟩ := Fri.exists_of? config (hk ▸ hsize)
  have hbound : t.heights.degreeBound ≤ fri.domain.size :=
    hk ▸ Nat.pow_le_pow_right (by decide) hfriFits.bound
  have hcheck : Composition.checkDegree (Fourier.values p fri.domain).toArray fri.domain
      t.heights.degreeBound = .ok () :=
    (Composition.checkDegree_values_iff hoffset (hp.trans_le (by exact_mod_cast hbound))).mpr hp
  refine Replays.ok_left hcompose (Replays.ok_left hcheck ?_)
  refine Replays.ok_left hfri (Replays.ok_right hfri ?_)
  rw [hk] at hp
  exact replays_testDegree hfriFits hsmall hoffset hp (r.composition t ch masks.length) hon.height
    hon.size_le hcommitted hlength hrandomizers hevaluate hwork hmany

variable (H config) in
omit h hpad in
/-- A reader of the proof of a halted run has what passes all checks. -/
theorem replays_prove (hclaim : r.claim.Packable) (masks : Prover.Masks F)
    (hforeseen : ∀ e s, Prover.Foreseen H config (r.length + 1)
      (Heights.ofClaim r.claim r.height).degreeBound e s → E e s)
    (hseed : ¬ config.SeedFits → ∀ s, E .negativeSeed s) :
    letI := ProofStream.channel H F
    Replays (· = ByteArray.empty) E (Prover.prove H config masks r.claim r.trace)
      (Verifier.read H F config r.claim)
      fun _ q => config.SeedFits ∧ Verifier.check q H config = .ok () := by
  -- Up to the first byte only the prover acts: it pads, and takes an evaluation domain.
  refine Replays.ok_left (Prover.checkPublic_eq r) ?_
  rcases r.pad_cases hfits with ⟨hpad, t, ht, h⟩ | ⟨hpad, herror⟩
  swap
  · have hlong := not_le.mp fun hle =>
      hpad (r.padFits_of_length (hclaim.program.le.trans (by decide)) hle)
    exact Replays.error_left herror fun s => hforeseen _ _ (.clock hlong s)
  refine Replays.ok_left ht ?_
  have hheights := h.heights_eq r
  rw [← hheights] at hforeseen
  dsimp only
  rw [Config.checkSecurity]
  by_cases hsecurity : config.securityFor t.heights.degreeBound < config.securityLevel
  · exact Replays.error_left (if_pos hsecurity) fun s => hforeseen _ _ (.security hsecurity s)
  refine Replays.ok_left (if_neg hsecurity) ?_
  rcases config.domain_cases t.heights with ⟨wide, hcoset, hwide, hsize⟩ | ⟨hlarge, herror⟩
  swap
  · exact Replays.error_left herror fun s => hforeseen _ _ (.size hlarge s)
  refine Replays.ok_left hcoset ?_
  obtain ⟨e, he, -⟩ := config.exists_expansion
  have hbound : t.heights.degreeBound ≤ wide.size := by
    rw [← hsize, he]
    exact Nat.le_mul_of_pos_right _ (Nat.two_pow_pos _)
  obtain ⟨domain, hon⟩ := h.exists_on r hbound
  -- The base columns, behind the heights that the claim implies.
  obtain ⟨base, hbase, hbaseCode, hextension⟩ := hon.exists_code (F := F)
  obtain ⟨c, hcommit, hopens⟩ := hbaseCode.exists_commit H config.workers (Tagged.fp (F := F))
    (ColumnSet.base_ne_nil .processor)
  refine (ProofStream.replays_absorbClaim H hclaim).bind fun _ _ _ => ?_
  refine (Verifier.replays_heights H (by rw [hheights]; rfl) fun T =>
    ⟨(domain T).logSize, (domain T).logSize_le, hon.height T⟩).bind fun _ heights hh => ?_
  subst hh
  refine Replays.ok_right (Verifier.domainFor_eq hsize hcoset (not_lt.mp hsecurity)) ?_
  refine Replays.ok_left hbase (Replays.ok_left hcommit ?_)
  refine (ProofStream.replays_digest H hopens.root).bind fun _ baseRoot hroot => ?_
  refine (ProofStream.replays_sampleFields H F 11).bind fun _ challenges hchallenges => ?_
  subst hroot hchallenges
  -- The extension columns at the challenges that both have drawn.
  obtain ⟨extension, hextend, hextensionCode, hextends⟩ :=
    hextension (Challenges.ofVector challenges)
  obtain ⟨c', hcommit', hopens'⟩ := hextensionCode.exists_commit H config.workers Tagged.fx
    (ColumnSet.ext_ne_nil .processor)
  refine Replays.ok_left (Trace.extensionMatrices_eq _ h.processor_ne_nil) ?_
  refine (ProofStream.replays_element_item H _).bind fun _ first hfirst => ?_
  refine (ProofStream.replays_element_item H _).bind fun _ second hsecond => ?_
  subst hfirst hsecond
  refine Replays.ok_right rfl (Replays.ok_right rfl ?_)
  refine Replays.ok_left hextend (Replays.ok_left hcommit' ?_)
  refine (ProofStream.replays_digest H hopens'.root).bind fun _ extensionRoot hroot => ?_
  subst hroot
  have hmasks := Prover.replays_commitMasks (T := fun _ => True) H config masks _ hbound hseed
  have hcommitted := Verifier.TraceCommitted.of_opens hbaseCode hextensionCode hextends hopens hopens'
  dsimp only
  -- The reader asks for the randomizers' root only if there are any.
  by_cases hzero : config.randomizers = 0
  case' pos => rw [if_pos hzero] at hmasks ⊢
  case' neg => rw [if_neg hzero] at hmasks ⊢
  all_goals
    refine hmasks.bind fun a root ha => ?_
    obtain ⟨codewords, randomizers⟩ := a
    obtain ⟨hfine, rfl, hrandomizers, rfl⟩ := ha
    exact (replays_composed r hlayout h hpad hfits _ hon hwide hsize hextends hcommitted
      (fun p => Prover.degree_lt_of_mem_maskPolynomials config masks _)
      (Prover.length_maskPolynomials ..) hrandomizers (fun s hs => hforeseen _ _ (.work s hs))
      fun hmany s => hforeseen _ _ (.count hmany s)).mono fun _ _ hcheck => ⟨hfine, hcheck⟩

end Replay

namespace Prover

variable (H : Hash) (config : Config)

/-- Proves onto a fresh stream with any masks. -/
def run (masks : Masks config.degree.Carrier) (claim : Claim) (trace : Trace) :
    Except Error Unit × ProofStream :=
  letI : Channel config.degree.Carrier StreamM := ProofStream.channel H config.degree.Carrier
  (prove H config masks claim trace : StreamM Unit) (.writer H)

theorem proveBytes_eq (claim : Claim) (trace : Trace) : proveBytes H config claim trace =
    (run H config (seededMasks H config.degree.Carrier config.parameters.seed) claim trace).1.map
      fun _ => (run H config (seededMasks H config.degree.Carrier config.parameters.seed) claim
        trace).2.buffer := rfl

/-- The prover fails in a foreseen way or over its seed, or its proof is accepted. -/
theorem run_cases {source : String} {program : Program}
    (hcompile : Program.compile source = .ok program) {input : ByteArray} {limit : Int} {t : Trace}
    {claim : Claim} (hsim : Trace.simulate program input limit = .ok (t, claim))
    (hprogram : claim.program.size < 2 ^ 32) (hinput : claim.input.size < 2 ^ 32)
    (houtput : claim.output.size < 2 ^ 32) (masks : Masks config.degree.Carrier) :
    (∃ s, run H config masks claim t = (.ok (), s) ∧ config.SeedFits ∧
      Verifier.verify H config s.buffer claim = .ok ()) ∨
    ∃ e s, run H config masks claim t = (.error e, s) ∧
      (Foreseen H config t.processor.length
        (Heights.ofClaim claim (nextPowerOfTwo t.processor.length)).degreeBound e s ∨
          e = .negativeSeed ∧ ¬ config.SeedFits) := by
  obtain ⟨r, hfits, rfl, rfl, -⟩ := Run.exists_of_simulate hsim
  obtain ⟨starts, hlayout⟩ := Program.exists_layout hcompile
  have hrows : r.trace.processor.length = r.length + 1 := by simp [Run.trace]
  have hclaim : r.claim.Packable := ⟨fun w hw => ?_, hprogram, hinput, houtput⟩
  swap
  · obtain ⟨k, hk⟩ := Array.mem_iff_getElem?.mp hw
    have hword := hfits.program.word k
    rwa [Array.getD_eq_getD_getElem?, show program[k]? = some w from hk] at hword
  have hreplays := replays_prove (F := config.degree.Carrier) H config
    (E := fun e s => Foreseen H config (r.length + 1)
      (Heights.ofClaim r.claim r.height).degreeBound e s ∨ e = .negativeSeed ∧ ¬ config.SeedFits)
    r hlayout hfits hclaim masks (fun e s => .inl) fun hseed s => .inr ⟨rfl, hseed⟩
  rw [hrows]
  rcases hreplays.run H with hfailed | ⟨_, s, q, s', hrun, hread, hseed, hcheck⟩
  · exact .inr hfailed
  · refine .inl ⟨s, hrun, hseed, ?_⟩
    rw [Verifier.verify_eq]
    dsimp only
    rw [Verifier.verifyOn, bind_of_ok hread]
    exact hcheck

variable {H config}

/-- A short run under parameters without grinding leaves nothing to fail. -/
theorem not_foreseen {rows bound : Nat} (hrows : rows ≤ 2 ^ 63)
    (hsecurity : config.securityLevel ≤ config.securityFor bound)
    (hsize : bound * config.expansion ≤ 2 ^ 32) (hbits : config.grindingBits = 0)
    (hcount : config.randomizers < 2 ^ 32) {e : Error} {s : ProofStream} :
    ¬ Foreseen H config rows bound e s := by
  intro h
  cases h with
  | clock h => exact absurd h (not_lt.mpr hrows)
  | security h => exact absurd h (not_lt.mpr hsecurity)
  | size h => exact absurd h (not_lt.mpr hsize)
  | work _ h =>
    have hidle := h 0 (by decide)
    rw [hbits] at hidle
    cases hidle
  | count h => exact absurd h (not_le.mpr hcount)

variable (H config)

/-- Completeness: what is proven of a halted run of a compiled program is accepted, whatever the
masks and the hash are, unless the prover fails in a foreseen way. -/
theorem accepted_of_simulate {source : String} {program : Program}
    (hcompile : Program.compile source = .ok program) {input : ByteArray} {limit : Int} {t : Trace}
    {claim : Claim} (hsim : Trace.simulate program input limit = .ok (t, claim))
    (hprogram : claim.program.size < 2 ^ 32) (hinput : claim.input.size < 2 ^ 32)
    (houtput : claim.output.size < 2 ^ 32) (hseed : config.SeedFits)
    (masks : Masks config.degree.Carrier) :
    (∃ s, run H config masks claim t = (.ok (), s) ∧
      Verifier.verify H config s.buffer claim = .ok ()) ∨
    ∃ e s, run H config masks claim t = (.error e, s) ∧
      Foreseen H config t.processor.length
        (Heights.ofClaim claim (nextPowerOfTwo t.processor.length)).degreeBound e s := by
  rcases run_cases H config hcompile hsim hprogram hinput houtput masks with
    ⟨s, hrun, -, hverify⟩ | ⟨e, s, hrun, hforeseen | ⟨-, hno⟩⟩
  · exact .inl ⟨s, hrun, hverify⟩
  · exact .inr ⟨e, s, hrun, hforeseen⟩
  · exact absurd hseed hno

/-- The sizes that decide what can fail, read off a run. -/
theorem exists_sizes (program : Program) (rows bound p i o : Nat)
    (h : ((Trace.simulate program ByteArray.empty 1).toOption.map fun x =>
      [x.1.processor.length, (Heights.ofClaim x.2 (nextPowerOfTwo x.1.processor.length)).degreeBound,
        x.2.program.size, x.2.input.size, x.2.output.size]) = some [rows, bound, p, i, o]) :
    ∃ t claim, Trace.simulate program ByteArray.empty 1 = .ok (t, claim) ∧
      t.processor.length = rows ∧
      (Heights.ofClaim claim (nextPowerOfTwo t.processor.length)).degreeBound = bound ∧
      claim.program.size = p ∧ claim.input.size = i ∧ claim.output.size = o := by
  cases hsim : Trace.simulate program ByteArray.empty 1 with
  | error e =>
    rw [hsim] at h
    cases h
  | ok x =>
    rw [hsim] at h
    exact ⟨x.1, x.2, rfl, by simpa using Option.some.inj h⟩

theorem accepted_of_written : ∃ t claim,
    Trace.simulate #[46] ByteArray.empty 1 = .ok (t, claim) ∧
      ∀ (H : Hash) (masks : Masks (Config.seeded 7).degree.Carrier), ∃ s,
        run H (.seeded 7) masks claim t = (.ok (), s) ∧
        Verifier.verify H (.seeded 7) s.buffer claim = .ok () := by
  obtain ⟨t, claim, hsim, hrows, hbound, hp, hi, ho⟩ := exists_sizes #[46] 2 8 1 0 1 (by cbv)
  have hcompile : Program.compile "." = .ok #[46] := by decide +kernel
  have hseed : (Config.seeded 7).SeedFits := .inr fun seed h => by cases h; decide
  refine ⟨t, claim, hsim, fun H masks => ?_⟩
  rcases accepted_of_simulate H (.seeded 7) hcompile hsim (by rw [hp]; decide) (by rw [hi]; decide)
    (by rw [ho]; decide) hseed masks with haccepted | ⟨e, s, -, hforeseen⟩
  · exact haccepted
  · rw [hbound, hrows] at hforeseen
    exact absurd hforeseen (not_foreseen (by decide) (by decide) (by decide) rfl (by decide))

/-- Not every parameter that is accepted leaves the prover without other failures: a negative seed
comes to light when the randomizers are drawn. -/
theorem exists_negativeSeed : ∃ t claim, Program.compile "" = .ok #[] ∧
    Trace.simulate #[] ByteArray.empty 1 = .ok (t, claim) ∧ claim.program.size < 2 ^ 32 ∧
    claim.input.size < 2 ^ 32 ∧ claim.output.size < 2 ^ 32 ∧
      ∀ (H : Hash) (masks : Masks (Config.seeded (-1)).degree.Carrier), ∃ s,
        run H (.seeded (-1)) masks claim t = (.error .negativeSeed, s) ∧
        ∀ rows bound, ¬ Foreseen H (.seeded (-1)) rows bound .negativeSeed s := by
  obtain ⟨t, claim, hsim, hrows, hbound, hp, hi, ho⟩ := exists_sizes #[] 1 4 0 0 0 (by cbv)
  have hcompile : Program.compile "" = .ok #[] := by decide +kernel
  have hprogram : claim.program.size < 2 ^ 32 := by rw [hp]; decide
  have hinput : claim.input.size < 2 ^ 32 := by rw [hi]; decide
  have houtput : claim.output.size < 2 ^ 32 := by rw [ho]; decide
  refine ⟨t, claim, hcompile, hsim, hprogram, hinput, houtput, fun H masks => ?_⟩
  rcases run_cases H (.seeded (-1)) hcompile hsim hprogram hinput houtput masks with
    ⟨s, -, hseed, -⟩ | ⟨e, s, hrun, hforeseen | ⟨rfl, -⟩⟩
  · rcases hseed with hzero | hnonneg
    · cases hzero
    · exact absurd (hnonneg (-1) rfl) (by decide)
  · rw [hbound, hrows] at hforeseen
    exact absurd hforeseen (not_foreseen (by decide) (by decide) (by decide) rfl (by decide))
  · refine ⟨s, hrun, fun rows bound h => ?_⟩
    cases h

end Prover

/-- What is proven of an execution is accepted. -/
theorem ProvenExecution.verify_of_prove {H : Hash} {config : Config} {source : String}
    {input : ByteArray} {limit : Int} {e : ProvenExecution}
    (h : prove H config source input limit = .ok e) (hprogram : e.claim.program.size < 2 ^ 32)
    (hinput : e.claim.input.size < 2 ^ 32) (houtput : e.claim.output.size < 2 ^ 32) :
    e.verify H config = .ok () := by
  obtain ⟨program, hcompile, h⟩ := bind_eq_ok.mp h
  obtain ⟨⟨t, claim⟩, hsim, h⟩ := bind_eq_ok.mp h
  obtain ⟨proof, hproof, h⟩ := bind_eq_ok.mp h
  cases h
  rw [Prover.proveBytes_eq] at hproof
  rcases Prover.run_cases H config hcompile hsim hprogram hinput houtput _ with
    ⟨s, hrun, -, hverify⟩ | ⟨_, _, hrun, -⟩
  · rw [hrun] at hproof
    cases hproof
    exact hverify
  · rw [hrun] at hproof
    cases hproof

end TapeStark
