import Mathlib
import TapeStark.Proofs.Protocol.Accepted
import TapeStark.Proofs.Protocol.Config
import TapeStark.Proofs.Protocol.Extended

/-! The single steps of an honest proof before any query is answered: the public data, the heights,
the randomizers, the low-degree test and the proof of work. -/

namespace TapeStark

open ExtensionField

namespace Hash

variable (H : Hash) (challenge : ByteArray) (bits : Nat)

theorem searchWork_cases (fuel nonce : Nat) :
    (∃ n < nonce + fuel, H.searchWork challenge bits fuel nonce = some n ∧
      H.meetsWork challenge n bits = true) ∨
    (H.searchWork challenge bits fuel nonce = none ∧
      ∀ n, nonce ≤ n → n < nonce + fuel → H.meetsWork challenge n bits = false) := by
  induction fuel generalizing nonce with
  | zero => exact .inr ⟨rfl, fun n hle hlt => absurd hlt (by omega)⟩
  | succ fuel ih =>
    rw [searchWork]
    by_cases hmeets : H.meetsWork challenge nonce bits = true
    · exact .inl ⟨nonce, by omega, if_pos hmeets, hmeets⟩
    · rw [if_neg hmeets]
      rcases ih (nonce + 1) with ⟨n, hlt, hsearch, hn⟩ | ⟨hsearch, hnone⟩
      · exact .inl ⟨n, by omega, hsearch, hn⟩
      · refine .inr ⟨hsearch, fun n hle hlt => ?_⟩
        rcases Nat.eq_or_lt_of_le hle with rfl | hlt'
        · simpa using hmeets
        · exact hnone n hlt' (by omega)

/-- The search finds a nonce of eight bytes, unless there is none. -/
theorem findWork_cases :
    (∃ n < 2 ^ 64, H.findWork challenge bits = .ok n ∧ H.meetsWork challenge n bits = true) ∨
    (H.findWork challenge bits = .error .integerWidth ∧
      ∀ n < 2 ^ 64, H.meetsWork challenge n bits = false) := by
  rcases H.searchWork_cases challenge bits (2 ^ 64) 0 with ⟨n, hlt, hsearch, hn⟩ | ⟨hsearch, hnone⟩
  · refine .inl ⟨n, by rwa [Nat.zero_add] at hlt, ?_, hn⟩
    rw [findWork, Nat.pow_eq, hsearch]
  · refine .inr ⟨?_, fun n hlt => hnone n (Nat.zero_le n) (by rwa [Nat.zero_add])⟩
    rw [findWork, Nat.pow_eq, hsearch]

end Hash

namespace Config

variable (c : Config)

/-- A seed that is used is not negative. -/
def SeedFits : Prop := c.randomizers = 0 ∨ ∀ seed ∈ c.parameters.seed, 0 ≤ seed

/-- Parameters with one randomizer, from a seed; whether they are accepted does not depend on it. -/
def seeded (seed : Int) : Config where
  parameters := { numRandomizers := 1, seed := some seed }
  accepted := by
    have h : Parameters.fault { numRandomizers := 1 } = none := by decide
    simpa only [Parameters.fault] using h

end Config

/-- The coset of a size that is a power of two, unless there is no root for it. -/
theorem Domain.coset?_cases (k : Nat) :
    (∃ d : Domain, coset? (2 ^ k : Nat) = .ok d ∧ d.offset = Fp.generator ∧ d.logSize = k) ∨
      (Fp.twoAdicity < k ∧ coset? (2 ^ k : Nat) = .error (.size (.noRoot (2 ^ k : Nat)))) := by
  rcases Nat.lt_or_ge Fp.twoAdicity k with hlt | hle
  · have hlog : ¬ ((2 ^ k : Nat) : Int).toNat.log2 ≤ Fp.twoAdicity := by
      rw [Int.toNat_natCast, Nat.log2_two_pow]
      exact not_le.mpr hlt
    refine .inr ⟨hlt, ?_⟩
    rw [coset?, ofSize?, logSize?, if_pos (isPowerOfTwo_iff.mpr ⟨k, rfl⟩), dif_neg hlog, error_bind]
  · exact .inl ⟨_, coset?_two_pow hle, rfl, rfl⟩

/-- The evaluation domain of some tables, unless it is too large. -/
theorem Config.domain_cases (config : Config) (heights : Heights) :
    (∃ wide : Domain, Domain.coset? (heights.degreeBound * config.expansion : Nat) = .ok wide ∧
      wide.offset = Fp.generator ∧ heights.degreeBound * config.expansion = wide.size) ∨
    (2 ^ 32 < heights.degreeBound * config.expansion ∧
      Domain.coset? (heights.degreeBound * config.expansion : Nat) =
        .error (.size (.noRoot (heights.degreeBound * config.expansion : Nat)))) := by
  obtain ⟨b, hb⟩ := heights.exists_degreeBound
  obtain ⟨e, he, -⟩ := config.exists_expansion
  have hsize : heights.degreeBound * config.expansion = 2 ^ (b + (e + 1)) := by
    rw [hb, he, ← pow_add]
  rw [hsize]
  rcases Domain.coset?_cases (b + (e + 1)) with ⟨wide, hcoset, hwide, hlog⟩ | ⟨hlarge, herror⟩
  · exact .inl ⟨wide, hcoset, hwide, by rw [← hlog]; rfl⟩
  · exact .inr ⟨Nat.pow_lt_pow_right (by decide) hlarge, herror⟩

/-- The verifier takes the prover's domain. -/
theorem Verifier.domainFor_eq {config : Config} {bound : Nat} {wide : Domain}
    (hsize : bound * config.expansion = wide.size)
    (hcoset : Domain.coset? (bound * config.expansion : Nat) = .ok wide)
    (hsecurity : config.securityLevel ≤ config.securityFor bound) :
    domainFor config bound = .ok wide := by
  have hlog : ¬ (bound * config.expansion).log2 > Fp.twoAdicity := by
    rw [hsize, Domain.size_eq, Nat.log2_two_pow]
    exact not_lt.mpr wide.logSize_le
  rw [domainFor, if_neg hlog]
  dsimp only
  rw [if_neg (not_lt.mpr hsecurity)]
  exact hcoset

/-- The test over a domain has room for every polynomial below the degree bound, and the bound is no
size that a count of four bytes could not reach. -/
theorem Fri.exists_of? (config : Config) {wide : Domain} {b : Nat}
    (hsize : 2 ^ b * config.expansion = wide.size) :
    ∃ fri, of? wide config.expansion config.terminalCoefficients = .ok fri ∧ fri.domain = wide ∧
      fri.Fits b ∧ b < 32 := by
  obtain ⟨e, he, -⟩ := config.exists_expansion
  obtain ⟨t, ht⟩ := config.exists_terminalCoefficients
  have hlog : b + (e + 1) = wide.logSize := by
    rw [he, ← pow_add] at hsize
    exact Nat.pow_right_injective (le_refl 2) hsize
  have hle := wide.logSize_le
  have htop : Fp.twoAdicity = 32 := rfl
  obtain ⟨fri, hfri, hdomain, -, hfits⟩ := exists_fits hlog t
  rw [he, ht]
  exact ⟨fri, hfri, hdomain, hfits, by omega⟩

namespace Prover

/-- A run's own tables list its public bytes. -/
theorem streamBytes_eq (bytes : ByteArray) : streamBytes (Trace.byteRows bytes) = .ok bytes := by
  have hbytes : (Trace.byteRows bytes).mapM (fun r =>
      if r.value.val < 256 then Except.ok (UInt8.ofNat r.value.val) else .error Error.noByte) =
        .ok bytes.data.toList := by
    rw [Trace.byteRows, List.mapM_map]
    refine (mapM_eq_map (g := id) fun b _ => ?_).trans (by rw [List.map_id])
    have hval : (Fp.ofNat b.toNat).val = b.toNat :=
      Fp.val_ofNat_of_lt (b.toNat_lt.trans (by decide))
    dsimp only [Function.comp]
    rw [hval, if_pos b.toNat_lt, UInt8.ofNat_toNat]
    rfl
  rw [streamBytes, hbytes, ok_bind, pure_eq_ok]
  refine congrArg Except.ok (ByteArray.ext ?_)
  rw [List.data_toByteArray, Array.toArray_toList]

theorem checkPublic_eq {program : Program} {input : ByteArray} (r : Run program input) :
    checkPublic r.trace r.claim = .ok () := by
  rw [checkPublic, show r.trace.input = Trace.byteRows r.claim.input from rfl,
    show r.trace.output = Trace.byteRows r.claim.output from rfl, streamBytes_eq, ok_bind,
    if_neg (not_not.mpr rfl), streamBytes_eq, ok_bind, if_neg (not_not.mpr rfl)]
  rfl

end Prover

section Replay

variable {F : Type} [ExtensionField F] [LawfulExtension F] {T : ByteArray → Prop}
  {E : Error → ProofStream → Prop} (H : Hash)

omit [LawfulExtension F] in
/-- The end of what was written is the end of the proof. -/
theorem ProofStream.replays_finish {α β : Type} {R : α → β → Prop} {a : α} {b : β} (h : R a b) :
    Replays (· = ByteArray.empty) E (pure a) (finish >>= fun _ => pure b) R := by
  intro w hw
  refine .inr ⟨a, w, ByteArray.empty, rfl, hw, ByteArray.append_empty.symm, ?_⟩
  rintro before _ rfl
  have hend : finish ⟨w.transcript, true, before, before.size⟩ =
      (.ok (), ⟨w.transcript, true, before, before.size⟩) := by
    rw [finish, bind_of_ok (get_apply _), if_neg (by simp)]
    rfl
  refine ⟨b, h, ?_⟩
  rw [ByteArray.append_empty, ByteArray.append_empty, bind_of_ok hend, pure_apply]

omit [LawfulExtension F] in
/-- A nonce is found that does the work for the state of the reader, too. -/
theorem ProofStream.replays_findWork {α β : Type} {R : α → β → Prop} {bits : Nat}
    {f : Nat → StreamM α} {g : ByteArray → StreamM β}
    (hnone : ∀ s : ProofStream,
      (∀ nonce < 2 ^ 64, H.meetsWork s.transcript.state nonce bits = false) → E .integerWidth s)
    (h : ∀ nonce state, nonce < 2 ^ 64 → H.meetsWork state nonce bits = true →
      Replays T E (f nonce) (g state) R) :
    Replays T E (challengeState >>= fun state => liftM (H.findWork state bits) >>= f)
      (challengeState >>= g) R := by
  have hfound : Replays (fun _ => True) E
      (challengeState >>= fun state => liftM (H.findWork state bits)) challengeState
      fun nonce state => nonce < 2 ^ 64 ∧ H.meetsWork state nonce bits = true := by
    intro w hw
    rcases H.findWork_cases w.transcript.state bits with ⟨n, hlt, hok, hn⟩ | ⟨herror, hno⟩
    · refine .inr ⟨n, w, ByteArray.empty, ?_, hw, ByteArray.append_empty.symm,
        fun before after _ => ⟨w.transcript.state, ⟨hlt, hn⟩, ?_⟩⟩
      · exact congrArg (·, w) hok
      · rw [ByteArray.append_empty]
        rfl
    · exact .inl ⟨.integerWidth, w, congrArg (·, w) herror, hnone w hno⟩
  rw [← bind_assoc]
  exact hfound.bind fun nonce state hn => h nonce state hn.1 hn.2

omit [LawfulExtension F] in
/-- The heights that the claim implies are read back. -/
theorem Verifier.replays_heights {claim : Claim} {heights : Heights}
    (hclaim : heights = Heights.ofClaim claim heights.processor)
    (hpower : ∀ t, ∃ k : Nat, k ≤ Fp.twoAdicity ∧ heights.get t = (2 ^ k : Nat)) :
    letI := ProofStream.channel H F
    Replays T E (Prover.pushHeights (F := F) heights Table.all) (readHeights H claim)
      fun _ hs => hs = heights := by
  choose k hle hk using hpower
  have hlog (t : Table) : exactLog2 (heights.get t) = .ok (k t) := exactLog2_eq_ok.mpr (hk t)
  have hsmall (t : Table) : k t < 2 ^ 32 := (hle t).trans_lt (by decide)
  have hlogs : letI := ProofStream.channel H F
      Replays (fun _ => True) E (Prover.pushHeights (F := F) heights Table.all)
        (PerTable.ofFnM fun _ => ProofStream.pullU32 H : StreamM (PerTable fun _ => Nat))
        fun _ logs => logs = PerTable.ofFn k := by
    refine .ok_left (hlog .processor) ((ProofStream.replays_u32 H (hsmall _)).bind fun _ a ha => ?_)
    refine .ok_left (hlog .memory) ((ProofStream.replays_u32 H (hsmall _)).bind fun _ b hb => ?_)
    refine .ok_left (hlog .instruction) ((ProofStream.replays_u32 H (hsmall _)).bind fun _ c hc => ?_)
    refine .ok_left (hlog .input) ((ProofStream.replays_u32 H (hsmall _)).bind fun _ d hd => ?_)
    refine .ok_left (hlog .output) ((ProofStream.replays_u32 H (hsmall _)).bind fun _ e he => ?_)
    exact Replays.pure (by rw [ha, hb, hc, hd, he]; rfl)
  refine hlogs.bind_right fun _ logs hlogs => ?_
  subst hlogs
  have hheights : (PerTable.ofFn fun t => ((Nat.pow 2 ((PerTable.ofFn k).get t) : Nat) : Int)) =
      heights := PerTable.ext_get fun t => by rw [PerTable.get_ofFn, PerTable.get_ofFn, hk]; rfl
  refine Replays.check_right ?_ ?_
  · simp [hle]
  · dsimp only
    rw [hheights]
    exact Replays.check_right (not_not.mpr hclaim) (Replays.pure rfl)

namespace Prover

variable (config : Config) (masks : Masks F) (bound : Nat)

noncomputable def maskPolynomials : List (Polynomial F) :=
  (List.range config.randomizers).map fun k => poly ((List.range bound).map (masks k))

theorem length_maskPolynomials :
    (maskPolynomials config masks bound).length = config.randomizers := by
  rw [maskPolynomials, List.length_map, List.length_range]

theorem degree_lt_of_mem_maskPolynomials {p : Polynomial F}
    (hp : p ∈ maskPolynomials config masks bound) : p.degree < bound := by
  obtain ⟨k, -, rfl⟩ := List.mem_map.mp hp
  have := degree_poly_lt ((List.range bound).map (masks k))
  rwa [List.length_map, List.length_range] at this

theorem maskCodewords_eq {wide : Domain} (hbound : bound ≤ wide.size)
    (hseed : ∀ seed ∈ config.parameters.seed, 0 ≤ seed) :
    maskCodewords config masks bound wide =
      .ok ((maskPolynomials config masks bound).map fun p => (Fourier.values p wide).toArray) := by
  have hsign : ¬ config.parameters.seed.any (· < 0) = true := by
    simpa [Option.any_eq_true] using hseed
  rw [maskCodewords, if_neg hsign, maskPolynomials, List.map_map]
  refine mapM_eq_map fun k _ => Fourier.evaluateOver_eq _ _ ?_
  simpa using hbound

omit [LawfulExtension F] in
theorem maskCodewords_error {wide : Domain} (hseed : ¬ ∀ seed ∈ config.parameters.seed, 0 ≤ seed) :
    maskCodewords config masks bound wide = .error .negativeSeed := by
  have hsign : config.parameters.seed.any (· < 0) = true := by
    simpa [Option.any_eq_true] using hseed
  rw [maskCodewords, if_pos hsign]
  rfl

/-- The randomizers are committed to, if there are any. -/
theorem replays_commitMasks {wide : Domain} (hbound : bound ≤ wide.size)
    (hseed : ¬ config.SeedFits → ∀ s, E .negativeSeed s) :
    letI := ProofStream.channel H F
    Replays T E (commitMasks H config masks bound wide)
      (if config.randomizers = 0 then pure none else some <$> ProofStream.pullDigest H)
      fun a root => config.SeedFits ∧
        a.1 = (maskPolynomials config masks bound).map (fun p => (Fourier.values p wide).toArray) ∧
        Verifier.MasksCommitted H wide (maskPolynomials config masks bound) a.2 ∧
        root = a.2.map Commitment.root := by
  unfold commitMasks
  by_cases hzero : config.randomizers = 0
  · have hnone : maskPolynomials config masks bound = [] :=
      List.eq_nil_of_length_eq_zero ((length_maskPolynomials ..).trans hzero)
    rw [if_pos hzero, if_pos hzero, hnone]
    exact Replays.pure ⟨.inl hzero, rfl, .absent, rfl⟩
  rw [if_neg hzero, if_neg hzero, map_eq_pure_bind]
  by_cases hnonneg : ∀ seed ∈ config.parameters.seed, 0 ≤ seed
  · have hne : maskPolynomials config masks bound ≠ [] := fun h =>
      hzero ((length_maskPolynomials ..).symm.trans (congrArg List.length h))
    have hcolumns : ((maskPolynomials config masks bound).map
        (fun p => (Fourier.values p wide).toArray)).map (fun c => c.map (Tagged.fx (F := F))) =
        (maskPolynomials config masks bound).map
          fun p => (Fourier.values p wide).toArray.map Tagged.fx := List.map_map ..
    have hcodes : (maskPolynomials config masks bound).map
        (fun p => (Fourier.values p wide).toArray.map (Tagged.fx (F := F))) ≠ [] := by
      simpa using hne
    obtain ⟨c, hcommit, hopens⟩ := Commitment.exists_commit H config.workers hcodes
      (k := wide.logSize) (by simp [Domain.size_eq])
    refine Replays.ok_left (maskCodewords_eq config masks bound hbound hnonneg) ?_
    refine Replays.ok_left (hcolumns ▸ hcommit) ?_
    refine (ProofStream.replays_digest H hopens.root).bind fun _ root hroot => Replays.pure ?_
    exact ⟨.inr hnonneg, rfl, .present hne hopens, congrArg some hroot⟩
  · exact Replays.error_left (maskCodewords_error config masks bound hnonneg)
      (hseed fun h => h.elim hzero hnonneg)

end Prover

end Replay

end TapeStark
