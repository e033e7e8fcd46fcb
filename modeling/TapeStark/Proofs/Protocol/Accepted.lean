import Mathlib
import TapeStark.Proofs.Basic
import TapeStark.Proofs.Protocol.Fri
import TapeStark.Proofs.Protocol.Opened

/-! Honest answers to queries pass every check. -/

namespace TapeStark

open ExtensionField

/-! The answer to a query: what a reader has of it, and that it passes every check. -/

namespace Verifier

variable {F : Type} [ExtensionField F] [LawfulExtension F]

section Trace

variable {H : Hash} {tables : PerTable fun t => TableCode t F} {wide : Domain}
  {base extension : Commitment (Tagged F)} {T : ByteArray → Prop} {E : Error → ProofStream → Prop}

def OpenedAt (H : Hash) (tables : PerTable fun t => TableCode t F) (wide : Domain)
    (baseRoot extensionRoot : ByteArray) (positions : List Int)
    (rows : List (Opening (Tagged F) × Opening (Tagged F))) : Prop :=
  List.Forall₂ (fun position row => ∃ i : Nat, i < wide.size ∧ position = (i : Int) ∧
    Opened H tables wide baseRoot extensionRoot i row.1 row.2) positions rows

/-- Behind the first, all positions are read one after the other. -/
theorem replays_openTrace {committed : Prover.Committed F}
    (h : TraceCommitted H tables wide committed.base committed.extension) {positions : List Int}
    (hpositions : ∀ position ∈ positions, ∃ i : Nat, i < wide.size ∧ position = i) :
    letI := ProofStream.channel H F
    Replays T E (Prover.openTrace committed positions) (readTrace H F wide.size none positions)
      fun _ rows => OpenedAt H tables wide committed.base.root committed.extension.root positions
        (rows.1.zip rows.2) := by
  induction positions generalizing T with
  | nil => exact Replays.pure .nil
  | cons position rest ih =>
    obtain ⟨⟨i, hi, rfl⟩, hrest⟩ := List.forall_mem_cons.mp hpositions
    obtain ⟨b, e, hb, he, hbRead, heRead, hopened⟩ := h.exists_opened hi
    refine Replays.ok_left hb ?_
    refine (hbRead _ E).bind fun _ b' hb' => ?_
    refine Replays.ok_left he ?_
    refine (heRead _ E).bind fun _ e' he' => ?_
    refine (ih hrest).bind_right fun _ rows hrows => Replays.pure (.cons ⟨i, hi, rfl, ?_⟩ hrows)
    rw [hb', he']
    exact hopened

end Trace

section Query

variable (H : Hash) (tables : PerTable fun t => TableCode t F) (wide : Domain)
  (masks : List (Polynomial F)) (p : Polynomial F)

inductive MasksCommitted : List (Polynomial F) → Option (Commitment (Tagged F)) → Prop
  | absent : MasksCommitted [] none
  | present {masks : List (Polynomial F)} {c : Commitment (Tagged F)} (nonempty : masks ≠ [])
      (opens : c.Opens H (masks.map fun p => (Fourier.values p wide).toArray.map Tagged.fx)
        wide.logSize) : MasksCommitted masks (some c)

/-- All that the prover has committed to. -/
structure Honest (fri : Fri) (committed : Prover.Committed F) (commitments : Fri.Commitments F) :
    Prop where
  domain : fri.domain = wide
  trace : TraceCommitted H tables wide committed.base committed.extension
  masks : MasksCommitted H wide masks committed.randomizers
  folded : Fri.Committed fri H p committed.folded commitments

/-- What a verifier can have of the randomizers at a position. -/
structure MasksOpened (randomizers : Option (Commitment (Tagged F))) (index : Nat)
    (opening : Option (Opening (Tagged F))) : Prop where
  check : ∀ c ∈ randomizers, ∀ o ∈ opening, ∀ what, o.check H c.root .fx what = .ok ()
  index_eq : ∀ o ∈ opening, o.index = index
  values : (opening.map fun o => o.values.map Tagged.lift).getD [] =
    masks.map fun p => p.eval (ofBase (wide.element index))

/-- What a verifier has of the answer to a query. -/
structure Query.Answers (heights : Heights) (fri : Fri) (committed : Prover.Committed F)
    (commitments : Fri.Commitments F) (index : Nat) (q : Query F) : Prop where
  index_eq : q.index = index
  index_lt : index < wide.size
  positions : q.positions = Composition.positions heights index wide.size
  rows : OpenedAt H tables wide committed.base.root committed.extension.root q.positions
    (q.base.zip q.extension)
  masks : MasksOpened H wide masks committed.randomizers index q.randomizers
  layers : Fri.checkOpenings H commitments q.layers = .ok ()
  first : fri.verifyQuery commitments index q.layers =
    .ok (p.eval (ofBase (wide.element index)))

variable {H tables wide masks p} {fri : Fri} {committed : Prover.Committed F}
  {commitments : Fri.Commitments F} {T : ByteArray → Prop} {E : Error → ProofStream → Prop}

/-- Every position of the randomizers is opened, and what is opened is read back. -/
theorem MasksCommitted.exists_opened {c : Commitment (Tagged F)}
    (h : MasksCommitted H wide masks (some c)) {index : Nat} (hindex : index < wide.size) :
    masks.length ≠ 0 ∧ ∃ o, c.openAt index = .ok o ∧
      (∀ (T : ByteArray → Prop) (E : Error → ProofStream → Prop),
        (2 ^ 32 ≤ masks.length → ∀ s, E .integerWidth s) →
          Replays T E (ProofStream.push H (.opening o))
            (ProofStream.pullOpening H F masks.length wide.size) fun _ b => b = o) ∧
      MasksOpened H wide masks (some c) index (some o) := by
  cases h with | present nonempty opens =>
  obtain ⟨o, hopen, hof, hcheck⟩ := opens.opened index hindex
  have hvalues : o.values =
      masks.map fun p => Tagged.fx (p.eval (ofBase (wide.element index))) := by
    refine hof.values_eq ?_
    rw [List.map_map, List.map_map]
    refine List.map_congr_left fun p _ => ?_
    simp [Fourier.values, hindex]
  have hlength : o.values.length = masks.length := by rw [hvalues, List.length_map]
  refine ⟨by simpa using nonempty, o, hopen,
    fun T E => ProofStream.replays_opening_of H hof hindex hlength, ?_, ?_, ?_⟩
  · rintro _ ⟨⟩ _ ⟨⟩ what
    refine hcheck .fx what fun v hv => ?_
    rw [hvalues] at hv
    obtain ⟨_, -, rfl⟩ := List.mem_map.mp hv
    rfl
  · rintro _ ⟨⟩
    exact hof.index
  · simp [hvalues, Tagged.lift, Function.comp_def]

/-- A reader of an answer has what the query asks for. -/
theorem replays_answer (h : Honest H tables wide masks p fri committed commitments)
    (hmany : 2 ^ 32 ≤ masks.length → ∀ s, E .integerWidth s) (heights : Heights) {index : Nat}
    (hindex : index < wide.size) :
    letI := ProofStream.channel H F
    Replays T E (Prover.answer fri heights committed index)
      (readQuery H F heights fri masks.length) fun _ q =>
        q.Answers H tables wide masks p heights fri committed commitments index := by
  obtain ⟨rest, hpositions⟩ :
      ∃ rest, Composition.positions heights index wide.size = (index : Int) :: rest :=
    Composition.exists_positions
  obtain ⟨b, e, hb, he, hbRead, heRead, hopened⟩ := h.trace.exists_opened hindex
  have hrest : ∀ position ∈ rest, ∃ i : Nat, i < wide.size ∧ position = i := by
    intro position hmem
    have hposition : position ∈ Composition.positions heights index wide.size := by
      rw [hpositions]
      exact List.mem_cons_of_mem _ hmem
    exact Composition.lt_of_mem_positions hindex hposition
  have hindexEq : b.index.toNat = index := by rw [hopened.base_index]; rfl
  unfold Prover.answer
  rw [h.domain, hpositions]
  unfold Prover.openTrace
  rw [readQuery, h.domain]
  simp only [bind_assoc]
  refine Replays.ok_left hb ((hbRead _ E).bind fun _ b' hb' => ?_)
  subst hb'
  rw [hindexEq, hpositions, readTrace]
  simp only [pure_bind, bind_assoc]
  refine Replays.ok_left he ((heRead _ E).bind fun _ e' he' => ?_)
  subst he'
  refine (replays_openTrace h.trace hrest).bind fun _ rows hrows => ?_
  -- What follows does not depend on whether there are randomizers.
  have hlast (o : Option (Opening (Tagged F)))
      (ho : MasksOpened H wide masks committed.randomizers index o) :
      letI := ProofStream.channel H F
      Replays T E (fri.openQuery committed.folded index) (do
        let layers ← fri.readQuery H F
        return Query.mk index (index :: rest) (b' :: rows.1) (e' :: rows.2) o layers)
        fun _ q => q.Answers H tables wide masks p heights fri committed commitments index := by
    refine (Fri.replays_openQuery h.folded (h.domain ▸ hindex)).bind_right fun _ layers hlayers =>
      Replays.pure ?_
    rw [Domain.elementAt_natCast_eq_element, h.domain] at hlayers
    exact ⟨rfl, hindex, hpositions.symm, .cons ⟨index, hindex, rfl, hopened⟩ hrows, ho, hlayers.1,
      hlayers.2⟩
  have hmasks := h.masks
  generalize committed.randomizers = randomizers at hmasks hlast ⊢
  cases randomizers with
  | none =>
    cases hmasks
    exact hlast none ⟨by simp, by simp, rfl⟩
  | some c =>
    obtain ⟨hne, o, ho, hoRead, hoOpened⟩ := hmasks.exists_opened hindex
    rw [if_neg hne, map_eq_pure_bind, bind_assoc]
    refine Replays.ok_left ho ((hoRead _ E hmany).bind fun _ o' ho' => ?_)
    subst ho'
    exact hlast _ hoOpened

/-- A reader of all answers has one for every index. -/
theorem replays_answers (h : Honest H tables wide masks p fri committed commitments)
    (hmany : 2 ^ 32 ≤ masks.length → ∀ s, E .integerWidth s) (heights : Heights)
    {indices : List Nat} (hindices : ∀ i ∈ indices, i < wide.size) :
    letI := ProofStream.channel H F
    Replays T E (indices.forM fun index => Prover.answer fri heights committed index)
      (ProofStream.pullMany (readQuery H F heights fri masks.length) indices.length) fun _ qs =>
        qs.map (·.index) = indices ∧ ∀ q ∈ qs,
          q.Answers H tables wide masks p heights fri committed commitments q.index := by
  refine (Replays.pullMany fun i hi T => replays_answer h hmany heights (hindices i hi)).mono
    fun _ qs hqs => ?_
  induction hqs with
  | nil => exact ⟨rfl, by simp⟩
  | cons hq _ ih =>
    obtain ⟨hmap, hall⟩ := ih (List.forall_mem_cons.mp hindices).2
    refine ⟨?_, List.forall_mem_cons.mpr ⟨hq.index_eq.symm ▸ hq, hall⟩⟩
    rw [List.map_cons, hq.index_eq, hmap]

end Query

end Verifier

/-! What an honest prover has answered passes all checks. -/

namespace Verifier

variable {F : Type} [ExtensionField F] [LawfulExtension F] {H : Hash}
  {tables : PerTable fun t => TableCode t F} {wide : Domain} {masks : List (Polynomial F)}
  {p : Polynomial F}

section OpenedAt

variable {baseRoot extensionRoot : ByteArray} {positions : List Int}
  {rows : List (Opening (Tagged F) × Opening (Tagged F))}

/-- Every row is opened somewhere. -/
theorem OpenedAt.opened (h : OpenedAt H tables wide baseRoot extensionRoot positions rows)
    {row : Opening (Tagged F) × Opening (Tagged F)} (hrow : row ∈ rows) :
    ∃ i, Opened H tables wide baseRoot extensionRoot i row.1 row.2 := by
  induction h with
  | nil => cases hrow
  | cons hhead _ ih =>
    obtain ⟨i, -, -, hopened⟩ := hhead
    rcases List.mem_cons.mp hrow with rfl | hrow
    · exact ⟨i, hopened⟩
    · exact ih hrow

/-- Every position has its row. -/
theorem OpenedAt.exists_row (h : OpenedAt H tables wide baseRoot extensionRoot positions rows)
    {position : Int} (hposition : position ∈ positions) :
    ∃ row ∈ rows, row.1.index = position := by
  induction h with
  | nil => cases hposition
  | cons hhead _ ih =>
    obtain ⟨i, -, rfl, hopened⟩ := hhead
    rcases List.mem_cons.mp hposition with rfl | hposition
    · exact ⟨_, List.mem_cons_self .., hopened.base_index⟩
    · obtain ⟨row, hrow, hindex⟩ := ih hposition
      exact ⟨row, List.mem_cons_of_mem _ hrow, hindex⟩

end OpenedAt

namespace Query.Answers

variable {r : Received F} {committed : Prover.Committed F} {index : Nat} {q : Query F}
  {heights : Heights} {fri : Fri} {commitments : Fri.Commitments F}

theorem checkPositions_eq
    (hq : q.Answers H tables wide masks p heights fri committed commitments index) :
    checkPositions q = .ok () := by
  refine bind_eq_ok.mpr ⟨(), forM_eq_ok fun row hrow => ?_, ?_⟩
  · obtain ⟨i, -, hi, hopened⟩ := (List.forall₂_iff_zip.mp hq.rows).2 hrow
    exact if_neg (by simp [hi, hopened.base_index, hopened.extension_index])
  · cases ho : q.randomizers with
    | none => rfl
    | some o => exact if_neg (by simp [hq.masks.index_eq o ho, hq.index_eq])

/-- The row that is found at a position is the one opened there. -/
theorem exists_openedAt
    (hq : q.Answers H tables wide masks p heights fri committed commitments index) {i : Nat}
    (hi : (i : Int) ∈ q.positions) :
    ∃ row, openedAt q i = .ok row ∧
      Opened H tables wide committed.base.root committed.extension.root i row.1 row.2 := by
  rw [openedAt]
  cases hfind : (q.base.zip q.extension).find? fun row => row.1.index = (i : Int) with
  | none =>
    obtain ⟨row, hrow, hindex⟩ := hq.rows.exists_row hi
    exact absurd hindex (by simpa using List.find?_eq_none.mp hfind row hrow)
  | some row =>
    refine ⟨row, rfl, ?_⟩
    obtain ⟨j, hopened⟩ := hq.rows.opened (List.mem_of_find?_eq_some hfind)
    have hindex : row.1.index = i := by simpa using List.find?_some hfind
    obtain rfl : j = i := by exact_mod_cast hopened.base_index.symm.trans hindex
    exact hopened

theorem openedRow_eq
    (hq : q.Answers H tables wide masks p heights fri committed commitments index) {i : Nat}
    (hi : (i : Int) ∈ q.positions) (t : Table) :
    openedRow q t i = .ok fun k => ((tables.get t).column k).eval (ofBase (wide.element i)) := by
  obtain ⟨row, hrow, hopened⟩ := hq.exists_openedAt hi
  rw [openedRow, hrow, ok_bind]
  exact hopened.row t

end Query.Answers

variable {r : Received F} {committed : Prover.Committed F} {trace : Table → Domain}

/-- What is read agrees with what an honest prover has committed to. -/
structure Agrees (H : Hash) (tables : PerTable fun t => TableCode t F) (trace : Table → Domain)
    (wide : Domain) (masks : List (Polynomial F)) (p : Polynomial F)
    (committed : Prover.Committed F) (r : Received F) : Prop where
  honest : Honest H tables wide masks p r.fri committed r.folded
  baseRoot : r.baseRoot = committed.base.root
  extensionRoot : r.extensionRoot = committed.extension.root
  randomizerRoot : r.randomizerRoot = committed.randomizers.map Commitment.root
  heights (t : Table) : r.composition.heights.get t = (trace t).size
  size_le (t : Table) : (trace t).size ≤ wide.size
  composition (i : Nat) : r.composition.evaluate (ofBase (wide.element i))
      (PerTable.ofFn fun t => (tables.get t).openingAt (trace t) (ofBase (wide.element i)))
      (masks.map fun p => p.eval (ofBase (wide.element i))) r.weights =
    .ok (p.eval (ofBase (wide.element i)))

namespace Agrees

variable (h : Agrees H tables trace wide masks p committed r) {index : Nat} {q : Query F}
  (hq : q.Answers H tables wide masks p r.composition.heights r.fri committed r.folded index)

include h hq

theorem checkOpenings_eq : checkOpenings r H q = .ok () := by
  refine bind_eq_ok.mpr ⟨(), forM_eq_ok fun row hrow => ?_, ?_⟩
  · obtain ⟨i, hopened⟩ := hq.rows.opened hrow
    rw [h.baseRoot, h.extensionRoot]
    exact bind_eq_ok.mpr ⟨(), hopened.base_check _, hopened.extension_check _⟩
  · rw [h.randomizerRoot]
    cases hc : committed.randomizers with
    | none => exact hq.layers
    | some c =>
      cases ho : q.randomizers with
      | none => exact hq.layers
      | some o => exact bind_eq_ok.mpr ⟨(), hq.masks.check c hc o ho _, hq.layers⟩

/-- The opened values of a table are those of its columns at the point and at the row behind. -/
theorem tableOpening_eq (t : Table) :
    tableOpening r q t = .ok ((tables.get t).openingAt (trace t) (ofBase (wide.element index))) := by
  have hnext : Composition.nextPosition q.index r.fri.domain.size (r.composition.heights.get t) =
      ((index + wide.size / (trace t).size) % wide.size : Nat) := by
    rw [hq.index_eq, h.honest.domain, h.heights, Composition.nextPosition_natCast]
  have hmem : Composition.nextPosition index wide.size (r.composition.heights.get t) ∈
      Composition.positions r.composition.heights index wide.size :=
    Composition.nextPosition_mem_positions t
  rw [← hq.positions, ← hq.index_eq, ← h.honest.domain, hnext] at hmem
  have hself : (index : Int) ∈ q.positions := hq.positions ▸ Composition.index_mem_positions
  rw [tableOpening]
  rw [hnext, hq.index_eq, hq.openedRow_eq hself, ok_bind, hq.openedRow_eq hmem, ok_bind,
    Domain.element_stride (h.size_le t), ofBase_mul]
  rfl

/-- The composition of the opened values is the value of the committed polynomial. -/
theorem checkComposition_eq :
    checkComposition r q (p.eval (ofBase (wide.element index))) = .ok () := by
  have hopenings : PerTable.ofFnM (fun t => tableOpening r q t) = .ok (PerTable.ofFn fun t =>
      (tables.get t).openingAt (trace t) (ofBase (wide.element index))) :=
    PerTable.ofFnM_eq_ok fun t => h.tableOpening_eq hq t
  rw [checkComposition, hopenings, ok_bind]
  dsimp only
  rw [h.honest.domain, hq.index_eq, hq.masks.values, h.composition, ok_bind]
  exact if_neg (not_not.mpr rfl)

end Agrees

/-- All checks pass on the answers of an honest prover. -/
theorem Agrees.check_eq {config : Config} (h : Agrees H tables trace wide masks p committed r)
    (hterminal : r.fri.checkTerminal r.folded = .ok ())
    (hwork : H.meetsWork r.state r.nonce config.grindingBits = true)
    (hdrawn : r.queries.map (·.index) = r.drawn)
    (hqueries : ∀ q ∈ r.queries, q.Answers H tables wide masks p r.composition.heights r.fri
      committed r.folded q.index) : check r H config = .ok () := by
  have hfirsts : r.queries.mapM (fun q => r.fri.verifyQuery r.folded q.index q.layers) =
      .ok (r.queries.map fun q => p.eval (ofBase (wide.element q.index))) :=
    mapM_eq_map fun q hq => (hqueries q hq).first
  refine bind_eq_ok.mpr ⟨(), forM_eq_ok fun q hq => h.checkOpenings_eq (hqueries q hq), ?_⟩
  rw [if_neg (by simp [hwork])]
  dsimp only
  rw [if_neg (not_not.mpr hdrawn)]
  refine bind_eq_ok.mpr ⟨(), forM_eq_ok fun q hq => (hqueries q hq).checkPositions_eq, ?_⟩
  rw [hfirsts, ok_bind, hterminal, ok_bind]
  refine forM_eq_ok fun row hrow => ?_
  have hfirst : row.2 = p.eval (ofBase (wide.element row.1.index)) := by
    rw [← List.map_prod_left_eq_zip, List.mem_map] at hrow
    obtain ⟨q, -, rfl⟩ := hrow
    rfl
  rw [hfirst]
  exact h.checkComposition_eq (hqueries _ (List.of_mem_zip hrow).1)

end Verifier

end TapeStark
