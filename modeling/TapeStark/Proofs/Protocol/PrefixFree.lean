import Mathlib
import TapeStark.Proofs.Protocol.Complete
import TapeStark.Proofs.Stream.Framed

/-!
Accepted proofs are prefix-free: a proof that is cut short, or that has bytes behind it, is malformed,
and never rejected for another reason. All of a proof is read before anything is checked, and what is
read first says how much is left to read.
-/

namespace TapeStark

namespace Verifier

open ProofStream

variable (H : Hash)

theorem framed_ofFnM {ε : Table → Type} {f : (t : Table) → StreamM (ε t)} (h : ∀ t, Framed (f t)) :
    Framed (PerTable.ofFnM f) := by
  apply (h .processor).bind; intro a
  apply (h .memory).bind; intro b
  apply (h .instruction).bind; intro c
  apply (h .input).bind; intro d
  apply (h .output).bind; intro e
  exact Framed.pure _

theorem framed_readHeights (claim : Claim) : Framed (readHeights H claim) := by
  apply (framed_ofFnM fun _ => framed_pullU32 H).bind
  intro logs
  apply Framed.check
  apply Framed.check
  exact Framed.pure _

section Body

variable (F : Type) [ExtensionField F] [LawfulExtension F]

theorem framed_readTrace (size : Nat) (first : Option (Opening (Tagged F))) (positions : List Int) :
    Framed (readTrace H F size first positions) := by
  induction positions generalizing first with
  | nil => exact Framed.pure _
  | cons p rest ih =>
    have row (b : Opening (Tagged F)) : Framed (do
        let extension ← ProofStream.pullOpening H F extensionWidth size
        let others ← readTrace H F size none rest
        return (b :: others.1, extension :: others.2)) := by
      apply (framed_pullOpening H F _ _).bind
      intro extension
      apply (ih none).bind
      intro others
      exact Framed.pure _
    cases first with
    | some o => exact (Framed.pure o).bind row
    | none => exact (framed_pullOpening H F _ _).bind row

theorem framed_readLayers (rounds size : Nat) : Framed (Fri.readLayers H F rounds size) := by
  induction rounds generalizing size with
  | zero => exact Framed.pure _
  | succ n ih =>
    apply (framed_pullOpening H F _ _).bind
    intro opening
    apply (ih _).bind
    intro rest
    exact Framed.pure _

/-- The first opening of a query names its index, which says how many openings follow. -/
theorem framed_readQuery (heights : Heights) (fri : Fri) (randomizers : Nat) :
    Framed (readQuery H F heights fri randomizers) := by
  apply (framed_pullOpening H F _ _).bind
  intro first
  apply (framed_readTrace H F _ _ _).bind
  intro trace
  have rest (masks : Option (Opening (Tagged F))) : Framed (do
      let layers ← fri.readQuery H F
      return (⟨first.index.toNat, Composition.positions heights first.index.toNat fri.domain.size,
        trace.1, trace.2, masks, layers⟩ : Query F)) := by
    apply (framed_readLayers H F _ _).bind
    intro layers
    exact Framed.pure _
  apply Framed.ite
  · exact (Framed.pure none).bind rest
  · exact (framed_pullOpening H F _ _).map.bind rest

omit [LawfulExtension F] in
theorem framed_readRound : Framed (Fri.readRound H F) := by
  apply (framed_pullDigest H).bind
  intro root
  apply (Framed.of_onTranscript (.liftDraw _)).bind
  intro alpha
  exact Framed.pure _

theorem framed_readCommitments (fri : Fri) : Framed (fri.readCommitments H F) := by
  apply ((framed_readRound H F).pullMany fri.rounds).bind
  intro rounds
  apply (framed_pullElements H F _).bind
  intro values
  apply (Framed.lift _).bind
  intro final
  exact Framed.pure _

/-- What is read behind the commitments to the trace, up to the end of the proof. -/
private theorem closed_afterRoots (config : Config) (claim : Claim) (heights : Heights) (wide : Domain)
    (baseRoot extensionRoot : ByteArray) (randomizerRoot : Option ByteArray)
    (challenges : Challenges F) (pi pm : F) :
    Closed (do
      let composition ← (Composition.of challenges claim heights pi pm config.randomizers :
        Except Error (Composition F))
      let weights ← ProofStream.sampleFields H F composition.numWeights.toNat
      let fri ← Fri.of? wide config.expansion config.terminalCoefficients
      let folded ← fri.readCommitments H F
      let state ← ProofStream.challengeState
      let nonce ← ProofStream.pullU64 H
      let drawn ← ProofStream.sampleIndices H config.numQueries wide.size
      let count ← ProofStream.pullU32 H
      if count > config.numQueries then
        throw (.malformed (.queryCount count config.numQueries))
      let queries ← ProofStream.pullMany (readQuery H F heights fri config.randomizers) count
      ProofStream.finish
      return ({
        composition, fri, baseRoot, extensionRoot, randomizerRoot, weights := weights.toList, folded
        state, nonce, drawn, queries } : Received F)) := by
  apply (Framed.lift _).bind_closed; intro composition
  apply (Framed.of_onTranscript (.liftDraw _)).bind_closed; intro weights
  apply (Framed.lift _).bind_closed; intro fri
  apply (framed_readCommitments H F fri).bind_closed; intro folded
  apply (Framed.of_onTranscript .challengeState).bind_closed; intro state
  apply (framed_pullU64 H).bind_closed; intro nonce
  apply (Framed.of_onTranscript (.sampleIndices H _ _)).bind_closed; intro drawn
  apply (framed_pullU32 H).bind_closed; intro count
  apply Closed.check
  apply ((framed_readQuery H F heights fri _).pullMany count).bind_closed; intro queries
  exact Closed.finish.bind

/-- A whole proof takes all bytes. -/
theorem closed_read (config : Config) (claim : Claim) : Closed (read H F config claim) := by
  apply (Framed.of_onTranscript (.absorbClaim H claim)).bind_closed; intro _
  apply (framed_readHeights H claim).bind_closed; intro heights
  apply (Framed.lift _).bind_closed; intro wide
  apply (framed_pullDigest H).bind_closed; intro baseRoot
  apply (Framed.of_onTranscript (.liftDraw _)).bind_closed; intro challenges
  apply (framed_pullElement H F).bind_closed; intro instructionEnd
  apply (framed_pullElement H F).bind_closed; intro memoryEnd
  apply (Framed.lift _).bind_closed; intro pi
  apply (Framed.lift _).bind_closed; intro pm
  apply (framed_pullDigest H).bind_closed; intro extensionRoot
  have rest (randomizerRoot : Option ByteArray) := closed_afterRoots H F config claim heights wide
    baseRoot extensionRoot randomizerRoot (Challenges.ofVector challenges) pi pm
  split
  · exact (Framed.pure none).bind_closed rest
  · exact (framed_pullDigest H).map.bind_closed rest

end Body

/-- Neither a proper beginning of an accepted proof nor the proof with bytes behind it is accepted;
both are malformed. -/
theorem malformed_of_verify {config : Config} {claim : Claim} {proof : ByteArray}
    (h : verify H config proof claim = .ok ()) :
    (∀ short lost, proof = short ++ lost → lost ≠ ByteArray.empty →
      ∃ m, verify H config short claim = .error (.malformed m)) ∧
    ∀ more, more ≠ ByteArray.empty →
      ∃ m, verify H config (proof ++ more) claim = .error (.malformed m) := by
  have hclosed : Closed (verifyOn H config claim) := (closed_read H _ config claim).bind
  have hstart (b : ByteArray) : ProofStream.reader H b =
      ⟨.init H ByteArray.empty, true, ByteArray.empty ++ b, ByteArray.empty.size⟩ := by
    rw [ByteArray.empty_append]
    rfl
  have hfails {b : ByteArray} (hb : Fails (verifyOn H config claim) (.reader H b)) :
      ∃ m, verify H config b claim = .error (.malformed m) := by
    obtain ⟨m, s, hm⟩ := hb
    refine ⟨m, ?_⟩
    rw [verify_eq]
    exact congrArg Prod.fst hm
  rw [verify_eq] at h
  cases hrun : verifyOn H config claim (.reader H proof) with
  | mk r s =>
    dsimp only at h
    rw [hrun] at h
    obtain rfl : r = .ok () := h
    rw [hstart] at hrun
    obtain ⟨hmore, hshort⟩ := hclosed _ _ _ _ _ hrun
    constructor
    · intro short lost hcut hlost
      apply hfails
      rw [hstart]
      exact hshort short lost hcut hlost
    · intro more hne
      apply hfails
      rw [hstart]
      exact hmore more hne

/-- A proof that the program `.` writes a zero byte, with any hash. -/
theorem malformed_of_written : ∃ claim : Claim, ∀ H : Hash, ∃ proof : ByteArray,
    verify H (.seeded 7) proof claim = .ok () ∧
      (∀ short lost, proof = short ++ lost → lost ≠ ByteArray.empty →
        ∃ m, verify H (.seeded 7) short claim = .error (.malformed m)) ∧
      ∀ more, more ≠ ByteArray.empty →
        ∃ m, verify H (.seeded 7) (proof ++ more) claim = .error (.malformed m) := by
  obtain ⟨t, claim, hsim, hrows, hbound, hp, hi, ho⟩ := Prover.exists_sizes #[46] 2 8 1 0 1 (by cbv)
  have hcompile : Program.compile "." = .ok #[46] := by decide +kernel
  refine ⟨claim, fun H => ?_⟩
  rcases Prover.run_cases H (.seeded 7) hcompile hsim (by rw [hp]; decide) (by rw [hi]; decide)
    (by rw [ho]; decide) (fun _ _ => 0) with ⟨s, -, -, hverify⟩ | ⟨e, s, -, hforeseen | ⟨-, hno⟩⟩
  · exact ⟨s.buffer, hverify, malformed_of_verify H hverify⟩
  · rw [hbound, hrows] at hforeseen
    exact absurd hforeseen
      (Prover.not_foreseen (by decide) (by decide) (by decide) rfl (by decide))
  · refine absurd (.inr fun seed h => ?_) hno
    cases h
    decide

end Verifier

end TapeStark
