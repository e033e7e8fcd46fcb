import Mathlib
import TapeStark.Proofs.Air.Evaluation
import TapeStark.Proofs.Domain
import TapeStark.Proofs.Protocol.Config
import TapeStark.Proofs.Stream.Action
import TapeStark.Protocol.Verifier

/-! Reading a proof: every byte string is rejected or read, and what is read has the shape that
the checks rely on; the rows that are opened have a value for every column. -/

namespace TapeStark

namespace Reads

variable {α β : Type}

theorem map {a : StreamM α} {f : α → β} {P : α → Prop} {Q : β → Prop} (h : Reads a P)
    (himp : ∀ x, P x → Q (f x)) : Reads (f <$> a) Q := by
  rw [map_eq_pure_bind]
  exact h.bind fun x hx => Reads.pure (himp x hx)

theorem ofFnM {ε : Table → Type} {f : (t : Table) → StreamM (ε t)} {P : (t : Table) → ε t → Prop}
    (h : ∀ t, Reads (f t) (P t)) :
    Reads (PerTable.ofFnM f) fun p => ∀ t, P t (p.get t) := by
  refine (h .processor).bind fun a ha => (h .memory).bind fun b hb => ?_
  refine (h .instruction).bind fun c hc => (h .input).bind fun d hd => ?_
  refine (h .output).bind fun e he => Reads.pure fun t => ?_
  cases t <;> assumption

end Reads

theorem Safe.ofFnM {ε : Table → Type} {f : (t : Table) → Except Error (ε t)}
    {P : (t : Table) → ε t → Prop} (h : ∀ t, Safe (f t) (P t)) :
    Safe (PerTable.ofFnM f) fun p => ∀ t, P t (p.get t) := by
  refine (h .processor).bind fun a ha => (h .memory).bind fun b hb => ?_
  refine (h .instruction).bind fun c hc => (h .input).bind fun d hd => ?_
  refine (h .output).bind fun e he => ?_
  rw [pure_eq_ok, Safe.ok_iff]
  intro t
  cases t <;> assumption

/-- A program that can be absorbed has words and addresses inside the field. -/
theorem Claim.Packable.cellProgram {claim : Claim} (h : claim.Packable) :
    Trace.CellProgram claim.program where
  word k := by
    rw [Array.getD_eq_getD_getElem?]
    cases hk : claim.program[k]? with
    | none => exact Trace.isCell_natCast (n := 0) prime_pos
    | some w => exact h.words w (Array.mem_of_getElem? hk)
  size := h.program.trans (by decide)

namespace Verifier

/-- Heights that the public data implies, none above the number of roots. -/
structure Heights.Implied (claim : Claim) (heights : Heights) : Prop where
  implied : heights = Heights.ofClaim claim heights.processor
  small (t : Table) : ∃ k : Nat, k ≤ Fp.twoAdicity ∧ heights.get t = (2 ^ k : Nat)

/-- The rows opened for a query have a value for every column of every table. -/
structure Query.Full {F : Type} (q : Query F) : Prop where
  base_full : ∀ o ∈ q.base, o.values.length = baseWidth
  extension_full : ∀ o ∈ q.extension, o.values.length = extensionWidth

structure Query.Shaped {F : Type} (q : Query F) (heights : Heights) (fri : Fri) : Prop
    extends Query.Full q where
  positions : q.positions = Composition.positions heights q.index fri.domain.size
  base : q.base.length = q.positions.length
  extension : q.extension.length = q.positions.length
  layers : q.layers.length = fri.rounds
  pairs : ∀ o ∈ q.layers, o.values.length = 2

structure Received.Shaped {F : Type} [ExtensionField F] (r : Received F) (claim : Claim) :
    Prop where
  heights : Heights.Implied claim r.composition.heights
  randomizers : 0 ≤ r.composition.randomizers
  weights : r.weights.length = r.composition.numWeights
  coset : r.fri.domain.offset = Fp.generator
  rounds : r.fri.rounds ≤ r.fri.domain.logSize
  folded : r.folded.rounds.length = r.fri.rounds
  queries : ∀ q ∈ r.queries, q.Shaped r.composition.heights r.fri

variable (H : Hash)

theorem reads_readHeights (claim : Claim) :
    Reads (readHeights H claim) (Heights.Implied claim) := by
  refine (Reads.ofFnM (P := fun _ _ => True) fun _ => ProofStream.reads_pullU32 H).bind
    fun logs _ => Reads.check fun hlogs => Reads.check fun hexpected => Reads.pure ?_
  refine ⟨not_not.mp hexpected, fun t => ⟨logs.get t, ?_, ?_⟩⟩
  · simp only [List.any_eq_true, decide_eq_true_eq, not_exists, not_and, not_lt] at hlogs
    exact hlogs t (Table.mem_all t)
  · rw [PerTable.get_ofFn]
    rfl

theorem safe_domainFor (config : Config) {bound b : Nat} (hb : bound = 2 ^ b) :
    Safe (domainFor config bound) fun d => d.offset = Fp.generator := by
  obtain ⟨e, he, -⟩ := config.exists_expansion
  have hsize : bound * config.expansion = 2 ^ (b + (e + 1)) := by rw [hb, he, ← pow_add]
  rw [domainFor, hsize, Nat.log2_two_pow]
  split
  · exact Safe.rejected
  · rename_i hle
    dsimp only
    split
    · exact Safe.rejected
    · rw [Domain.coset?_two_pow (not_lt.mp hle)]
      exact Safe.ok_iff.mpr rfl

section Body

variable (F : Type) [ExtensionField F]

omit [ExtensionField F] in
theorem safe_extensionPart (fault : Malformation) (v : Tagged F) :
    Safe (Fri.extensionPart fault v) fun _ => True := by
  cases v with
  | fp a => exact Safe.rejected
  | fx a => trivial

/-- The openings at some positions: one for each of them, and as wide as their tree. -/
structure Rows {F : Type} (positions : List Int) (width : Nat) (rows : List (Opening (Tagged F))) :
    Prop where
  length : rows.length = positions.length
  full : ∀ o ∈ rows, o.values.length = width

omit [ExtensionField F] in
theorem Rows.cons {positions : List Int} {width : Nat} {rows : List (Opening (Tagged F))}
    {o : Opening (Tagged F)} (ho : (o.values.length : Int) = width)
    (h : Rows positions width rows) (p : Int) : Rows (p :: positions) width (o :: rows) :=
  ⟨by rw [List.length_cons, List.length_cons, h.length],
    List.forall_mem_cons.mpr ⟨by exact_mod_cast ho, h.full⟩⟩

theorem reads_readTrace (size : Nat) (first : Option (Opening (Tagged F)))
    (hfirst : ∀ o ∈ first, (o.values.length : Int) = baseWidth) (positions : List Int) :
    Reads (readTrace H F size first positions) fun (bases, extensions) =>
      Rows positions baseWidth bases ∧ Rows positions extensionWidth extensions := by
  induction positions generalizing first with
  | nil => exact Reads.pure ⟨⟨rfl, by simp⟩, ⟨rfl, by simp⟩⟩
  | cons p rest ih =>
    have row {b : Opening (Tagged F)} (hb : (b.values.length : Int) = baseWidth) : Reads (do
        let extension ← ProofStream.pullOpening H F extensionWidth size
        let (bases, extensions) ← readTrace H F size none rest
        return (b :: bases, extension :: extensions)) fun (bases, extensions) =>
          Rows (p :: rest) baseWidth bases ∧ Rows (p :: rest) extensionWidth extensions := by
      refine (ProofStream.reads_pullOpening H F _ _).bind fun e he => ?_
      refine (ih none (by simp)).bind fun (bases, extensions) h => Reads.pure ?_
      exact ⟨h.1.cons F hb p, h.2.cons F he.2.2 p⟩
    cases first with
    | some o =>
      have ho : Reads (pure o : StreamM _) fun b => (b.values.length : Int) = baseWidth :=
        Reads.pure (hfirst o rfl)
      exact ho.bind fun b hb => row hb
    | none => exact (ProofStream.reads_pullOpening H F _ _).bind fun b hb => row hb.2.2

theorem reads_readLayers (rounds size : Nat) : Reads (Fri.readLayers H F rounds size) fun layers =>
    layers.length = rounds ∧ ∀ o ∈ layers, o.values.length = 2 := by
  induction rounds generalizing size with
  | zero => exact Reads.pure ⟨rfl, by simp⟩
  | succ n ih =>
    refine (ProofStream.reads_pullOpening H F 2 _).bind fun o ho => ?_
    refine (ih (size / 2)).bind fun rest hrest => Reads.pure ⟨by simp [hrest.1], ?_⟩
    exact List.forall_mem_cons.mpr ⟨by exact_mod_cast ho.2.2, hrest.2⟩

theorem reads_readQuery (heights : Heights) (fri : Fri) (randomizers : Nat) :
    Reads (readQuery H F heights fri randomizers) fun q => q.Shaped heights fri := by
  refine (ProofStream.reads_pullOpening H F _ _).bind fun first hfirst => ?_
  refine (reads_readTrace H F _ (some first) (by simpa using hfirst.2.2) _).bind
    fun (bases, extensions) ⟨hbases, hextensions⟩ => ?_
  have rest (masks : Option (Opening (Tagged F))) : Reads (do
      let layers ← fri.readQuery H F
      return (⟨first.index.toNat, Composition.positions heights first.index.toNat fri.domain.size,
        bases, extensions, masks, layers⟩ : Query F)) fun q => q.Shaped heights fri :=
    (reads_readLayers H F _ _).bind fun layers hlayers =>
      Reads.pure ⟨⟨hbases.full, hextensions.full⟩, rfl, hbases.length, hextensions.length,
        hlayers.1, hlayers.2⟩
  refine Reads.ite (fun _ => ?_) fun _ => ?_
  · exact (Reads.pure (P := fun _ => True) trivial).bind fun masks _ => rest masks
  · exact ((ProofStream.reads_pullOpening H F _ _).map (Q := fun _ => True)
      fun _ _ => trivial).bind fun masks _ => rest masks

theorem reads_readRound : Reads (Fri.readRound H F) fun _ => True :=
  (ProofStream.reads_pullDigest H).bind fun _ _ =>
    (ProofStream.reads_sampleField H F).bind fun _ _ => Reads.pure trivial

theorem reads_readCommitments (fri : Fri) :
    Reads (fri.readCommitments H F) fun c => c.rounds.length = fri.rounds := by
  refine (reads_readRound H F).pullMany.bind fun rounds hrounds => ?_
  refine (ProofStream.reads_pullElements H F _).bind fun values _ => ?_
  have parts : Safe (values.mapM (Fri.extensionPart .terminalKind)) fun _ => True :=
    (Safe.mapM fun v _ => safe_extensionPart F _ v).mono fun _ _ => trivial
  exact (Reads.lift parts).bind fun _ _ => Reads.pure hrounds.1

/-- With implied heights the composition for a claim exists. -/
theorem safe_compositionOf [LawfulExtension F] {claim : Claim} (hclaim : claim.Packable)
    {heights : Heights} (hheights : Heights.Implied claim heights) (challenges : Challenges F)
    (pi pm : F) (randomizers : Int) :
    Safe (Composition.of challenges claim heights pi pm randomizers) fun c =>
      c.heights = heights ∧ c.randomizers = randomizers := by
  obtain ⟨k, hk, hinstruction⟩ := hheights.small .instruction
  have hle : 2 ^ k ≤ prime := (Nat.pow_le_pow_right (by decide) hk).trans (by decide)
  have hroom : (claim.program.size : Int) + 1 + heights.processor ≤ heights.instruction := by
    have := le_nextPowerOfTwo (claim.program.size + 1 + heights.processor)
    rw [hheights.implied]
    exact this
  obtain ⟨j, -, hprocessor⟩ := hheights.small .processor
  change heights.instruction = _ at hinstruction
  change heights.processor = _ at hprocessor
  have hcount : (claim.program.size : Int) + 1 + heights.padding claim.program.size =
      (heights.instruction - heights.processor).toNat := by
    rw [Heights.padding]
    omega
  generalize 2 ^ k = top at hle hinstruction
  generalize 2 ^ j = rows at hprocessor
  rw [Composition.of, compute_eq hclaim.cellProgram challenges hcount (by omega) pi pm, ok_bind]
  exact Safe.ok_iff.mpr ⟨rfl, rfl⟩

/-- What is read behind the commitments to the trace. -/
private theorem reads_afterRoots [LawfulExtension F] (config : Config) {claim : Claim}
    (hclaim : claim.Packable) {heights : Heights} (hheights : Heights.Implied claim heights)
    {wide : Domain} (hwide : wide.offset = Fp.generator) (baseRoot extensionRoot : ByteArray)
    (randomizerRoot : Option ByteArray) (challenges : Challenges F) (pi pm : F) :
    Reads (do
      let composition ← (Composition.of challenges claim heights pi pm config.randomizers :
        Except Error (Composition F))
      let weights ← ProofStream.sampleFields H F composition.numWeights.toNat
      let fri ← Fri.of? wide config.expansion config.terminalCoefficients
      let folded ← fri.readCommitments H F
      let state ← ProofStream.challengeState
      let nonce ← ProofStream.pullU64 H
      let drawn ← ProofStream.sampleIndices H config.numQueries wide.size
      let count ← ProofStream.pullU32 H
      if count > config.numQueries then
        throw (.malformed (.queryCount count config.numQueries))
      let queries ← ProofStream.pullMany (readQuery H F heights fri config.randomizers) count
      ProofStream.finish
      return ({
        composition, fri, baseRoot, extensionRoot, randomizerRoot, weights := weights.toList, folded
        state, nonce, drawn, queries } : Received F)) fun r => r.Shaped claim := by
  refine (Reads.lift (safe_compositionOf F hclaim hheights challenges pi pm _)).bind
    fun composition hcomposition => ?_
  refine (ProofStream.reads_sampleFields H F _).bind fun weights _ => ?_
  obtain ⟨e, he, -⟩ := config.exists_expansion
  obtain ⟨t, ht⟩ := config.exists_terminalCoefficients
  have hfri : Safe (Fri.of? wide config.expansion config.terminalCoefficients) fun fri =>
      fri.domain = wide ∧ fri.rounds ≤ wide.logSize := by
    rw [he, ht, Fri.of?_two_pow]
    exact Safe.ok_iff.mpr ⟨rfl, Nat.sub_le _ _⟩
  refine (Reads.lift hfri).bind fun fri ⟨hdomain, hrounds⟩ => ?_
  refine (reads_readCommitments H F fri).bind fun folded hfolded => ?_
  refine ProofStream.reads_challengeState.bind fun state _ => ?_
  refine (ProofStream.reads_pullU64 H).bind fun nonce _ => ?_
  refine (ProofStream.reads_sampleIndices H _ wide.logSize).bind fun drawn _ => ?_
  refine (ProofStream.reads_pullU32 H).bind fun count _ => Reads.check fun _ => ?_
  refine (reads_readQuery H F heights fri _).pullMany.bind fun queries hqueries => ?_
  refine ProofStream.reads_finish.bind fun _ _ => Reads.pure ?_
  have hnonneg : (0 : Int) ≤ config.randomizers := Int.natCast_nonneg _
  refine ⟨hcomposition.1 ▸ hheights, hcomposition.2 ▸ hnonneg, ?_, hdomain ▸ hwide,
    hdomain ▸ hrounds, hfolded, hcomposition.1 ▸ hqueries.2⟩
  rw [Vector.length_toList, Int.toNat_of_nonneg]
  rw [Composition.numWeights, hcomposition.2]
  omega

/-- Every byte string is rejected, or read as something of the right shape. -/
theorem reads_read [LawfulExtension F] (config : Config) {claim : Claim}
    (hclaim : claim.Packable) : Reads (read H F config claim) fun r => r.Shaped claim := by
  refine (ProofStream.reads_absorbClaim H hclaim).bind fun _ _ => ?_
  refine (reads_readHeights H claim).bind fun heights hheights => ?_
  obtain ⟨b, hb⟩ := heights.exists_degreeBound
  refine (Reads.lift (safe_domainFor config hb)).bind fun wide hwide => ?_
  refine (ProofStream.reads_pullDigest H).bind fun baseRoot _ => ?_
  refine (ProofStream.reads_sampleFields H F 11).bind fun challenges _ => ?_
  refine (ProofStream.reads_pullElement H F).bind fun instructionEnd _ => ?_
  refine (ProofStream.reads_pullElement H F).bind fun memoryEnd _ => ?_
  refine (Reads.lift (safe_extensionPart F _ _)).bind fun pi _ => ?_
  refine (Reads.lift (safe_extensionPart F _ _)).bind fun pm _ => ?_
  refine (ProofStream.reads_pullDigest H).bind fun extensionRoot _ => ?_
  have rest (randomizerRoot : Option ByteArray) := reads_afterRoots H F config hclaim hheights hwide
    baseRoot extensionRoot randomizerRoot (Challenges.ofVector challenges) pi pm
  refine Reads.ite (fun _ => ?_) fun _ => ?_
  · exact (Reads.pure (P := fun _ => True) trivial).bind fun root _ => rest root
  · exact ((ProofStream.reads_pullDigest H).map (Q := fun _ => True) fun _ _ => trivial).bind
      fun root _ => rest root

end Body

section Lookup

/-- Where the columns of the tables before this one end, there is room for its own. -/
theorem total_takeWhile_add_lt (f : Table → Nat) {t : Table} {i : Nat} (h : i < f t) :
    Table.total (Table.all.takeWhile (· ≠ t)) f + i < Table.total Table.all f := by
  cases t <;> simp [Table.total, Table.all] <;> omega

theorem place_lt (κ : Table → Type) [∀ t, ColumnSet (κ t)] [∀ t, DecidableEq (κ t)] {t : Table}
    {c : κ t} (hc : c ∈ (ColumnSet.all : List (κ t))) :
    place κ c < Table.total Table.all fun t => (ColumnSet.all : List (κ t)).length :=
  total_takeWhile_add_lt _ (List.idxOf_lt_length_of_mem hc)

variable {F : Type} [ExtensionField F] {base extension : List F} {t : Table}

omit [ExtensionField F] in
/-- A row that is given holds the value of every column. -/
theorem rowOf_eq_ok_iff {v : t.Column → F} :
    rowOf base extension t = .ok v ↔ ∀ k : t.Column, valueAt? base extension k = some (v k) := by
  rw [rowOf]
  constructor
  · intro h k
    split at h
    · cases h
      exact (Option.some_get _).symm
    · cases h
  · intro h
    have hsome : ∀ k ∈ (ColumnSet.all : List t.Column), (valueAt? base extension k).isSome := by
      intro k _
      rw [h k, Option.isSome_some]
    rw [dif_pos hsome]
    refine congrArg Except.ok (funext fun k => ?_)
    exact Option.get_of_eq_some _ (h k)

omit [ExtensionField F] in
/-- Rows of full width have a value for every column. -/
theorem exists_rowOf (hbase : base.length = baseWidth) (hextension : extension.length = extensionWidth)
    (t : Table) : ∃ v, rowOf base extension t = .ok v := by
  have found (k : t.Column) : ∃ x, valueAt? base extension k = some x := by
    cases k with
    | base c => exact ⟨_, List.getElem?_eq_getElem (hbase ▸ place_lt Table.Base (Table.mem_base c))⟩
    | ext c =>
      exact ⟨_, List.getElem?_eq_getElem (hextension ▸ place_lt Table.Ext (Table.mem_ext c))⟩
  choose v hv using found
  exact ⟨v, rowOf_eq_ok_iff.mpr hv⟩

/-- No column is missing in the rows that are opened for a query. -/
theorem Query.Full.found {q : Query F} (hq : q.Full) {row : Opening (Tagged F) × Opening (Tagged F)}
    (hrow : row ∈ q.base.zip q.extension) (t : Table) :
    ∃ v, rowOf (row.1.values.map Tagged.lift) (row.2.values.map Tagged.lift) t = .ok v := by
  obtain ⟨hbase, hextension⟩ := List.of_mem_zip hrow
  apply exists_rowOf
  · rw [List.length_map, hq.base_full _ hbase]
  · rw [List.length_map, hq.extension_full _ hextension]

end Lookup

end Verifier

end TapeStark
