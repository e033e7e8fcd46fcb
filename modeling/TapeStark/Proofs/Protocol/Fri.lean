import Mathlib
import TapeStark.Domain
import TapeStark.Merkle
import TapeStark.Proofs.Basic
import TapeStark.Proofs.Field.Lawful
import TapeStark.Proofs.Merkle
import TapeStark.Proofs.Protocol.Config
import TapeStark.Proofs.Protocol.Fold
import TapeStark.Proofs.Stream.Replay

/-! Completeness of commitments and of the low-degree test. -/

namespace TapeStark

/-! Committed columns open to themselves at every index, and the openings are read back. -/

section Commitment

variable {V : Type} [TaggedValue V]

/-- An opening of these columns at an index, in a tree with `2 ^ k` leaves. -/
structure Opening.Of (o : Opening V) (columns : List (Array V)) (k i : Nat) : Prop where
  index : o.index = i
  values : List.Forall₂ (fun column v => column[i]? = some v) columns o.values
  depth : o.path.length = k
  digests : ∀ d ∈ o.path, d.size = Hash.size

/-- The columns of a commitment are opened below its root. -/
structure Commitment.Opens (c : Commitment V) (H : Hash) (columns : List (Array V)) (k : Nat) :
    Prop where
  root : c.root.size = Hash.size
  opened : ∀ i : Nat, i < 2 ^ k → ∃ o, c.openAt i = .ok o ∧ o.Of columns k i ∧
    ∀ kind what, (∀ v ∈ o.values, TaggedValue.kind v = kind) → o.check H c.root kind what = .ok ()

namespace Commitment

omit [TaggedValue V] in
/-- The entries of columns at an index are those of their row. -/
theorem exists_row {columns : List (Array V)} {i : Nat} (h : ∀ column ∈ columns, i < column.size)
    (hone : ∀ column ∈ columns, column.size = 1 → i = 0) :
    ∃ values, (columns.mapM fun column => entryAt column i) = .ok values ∧
      List.Forall₂ (fun column v => column[i]? = some v) columns values ∧
      columns.filterMap (fun column => valueAt column i) = values := by
  induction columns with
  | nil => exact ⟨[], rfl, .nil, rfl⟩
  | cons column rest ih =>
    obtain ⟨hlt, hrest⟩ := List.forall_mem_cons.mp h
    obtain ⟨hzero, hones⟩ := List.forall_mem_cons.mp hone
    obtain ⟨values, hmap, hall, hrow⟩ := ih hrest hones
    have hentry : entryAt column i = .ok column[i] := by
      rw [entryAt, position?_natCast hlt, Option.bind_some, Array.getElem?_eq_getElem hlt]
    have hvalue : valueAt column i = some column[i] := by
      rw [valueAt]
      split
      · rename_i h1
        obtain rfl := hzero h1
        exact Array.getElem?_eq_getElem hlt
      · exact Array.getElem?_eq_getElem hlt
    refine ⟨column[i] :: values, ?_, .cons (Array.getElem?_eq_getElem hlt) hall, ?_⟩
    · rw [List.mapM_cons, hentry, ok_bind, hmap]
      rfl
    · rw [List.filterMap_cons, hvalue, hrow]

section Commit

variable (H : Hash) (workers : Int) {columns : List (Array V)} (hne : columns ≠ []) {k : Nat}
  (hsize : ∀ c ∈ columns, c.size = 2 ^ k)

include hne hsize

theorem commit_eq : commit H workers columns =
    .ok ⟨columns, MerkleTree.ofRows H k ((List.range (2 ^ k)).map (rowBytes columns)).toArray⟩ := by
  obtain ⟨first, rest, rfl⟩ := List.exists_cons_of_ne_nil hne
  have hfirst := hsize first (List.mem_cons_self ..)
  set columns := first :: rest
  have hshape : ¬ (columns.any fun c => c.size ≠ first.size ∧ c.size ≠ 1) = true := by
    simp only [List.any_eq_true, not_exists, not_and, decide_eq_true_eq, not_and, not_not]
    exact fun c hc hne => absurd ((hsize c hc).trans hfirst.symm) hne
  rw [commit]
  dsimp only
  rw [if_neg hshape, hfirst, MerkleTree.build_eq H (k := k) (by simp)]
  rfl

/-- Columns of one length that is a power of two are committed to. -/
theorem exists_commit : ∃ c, commit H workers columns = .ok c ∧ c.Opens H columns k := by
  have hrows : ((List.range (2 ^ k)).map (rowBytes columns)).toArray.size = 2 ^ k := by simp
  obtain ⟨t, hbuild, hroot, hpath⟩ := MerkleTree.exists_build H hrows workers
  obtain rfl := Except.ok.inj ((MerkleTree.build_eq H hrows workers).symm.trans hbuild)
  refine ⟨_, commit_eq H workers hne hsize, hroot, fun i hi => ?_⟩
  obtain ⟨path, hopen, hlength, hdigests, hverify⟩ := hpath i hi
  obtain ⟨values, hvalues, hall, hrow⟩ := exists_row
    (fun column hcolumn => by rw [hsize column hcolumn]; exact hi)
    (fun column hcolumn h1 => by have := hsize column hcolumn; omega)
  refine ⟨⟨i, values, path⟩, ?_, ⟨rfl, hall, hlength, hdigests⟩, fun kind what hkind => ?_⟩
  · rw [openAt, hvalues, ok_bind, hopen]
    rfl
  · have hbytes : ((List.range (2 ^ k)).map (rowBytes columns)).toArray.getD i
        ByteArray.empty = leafBytes values := by
      simp [hi, rowBytes, hrow]
    rw [hbytes] at hverify
    rw [Opening.check, if_neg, Opening.verify, if_pos]
    · exact hverify
    · simpa using hkind

end Commit

end Commitment

namespace ProofStream

variable {F : Type} [ExtensionField F] [LawfulExtension F] {T : ByteArray → Prop}
  {E : Error → ProofStream → Prop} (H : Hash)

/-- An opening of committed columns is read back. -/
theorem replays_opening_of {o : Opening (Tagged F)} {columns : List (Array (Tagged F))}
    {wide : Domain} {i : Nat} (h : o.Of columns wide.logSize i) (hi : i < wide.size) {width : Nat}
    (hwidth : o.values.length = width) (hcount : 2 ^ 32 ≤ width → ∀ s, E .integerWidth s) :
    Replays T E (push H (.opening o)) (pullOpening H F width wide.size) fun _ b => b = o := by
  refine replays_opening H h.index ?_ ?_ (congrArg Nat.cast hwidth) (hwidth ▸ hcount) ?_ h.digests
  · exact hi.trans_le (Nat.pow_le_pow_right (by decide) wide.logSize_le)
  · rw [h.index]
    exact_mod_cast hi
  · exact h.depth.trans_le (wide.logSize_le.trans (by decide))

end ProofStream

end Commitment

/-! The low-degree test on an honest codeword: a reader of the commit phase sees the layers of the
folded polynomials, and every query that is opened from them passes. -/

section Fri

open ExtensionField

namespace Fri

variable {F : Type} [ExtensionField F] [LawfulExtension F] (H : Hash)

/-- The values at the first half of the points, and those at their negatives. -/
noncomputable def halves (p : Polynomial F) (d e : Domain) : List (Array (Tagged F)) :=
  [((List.range e.size).map fun j => Tagged.fx (p.eval (ofBase (d.element j)))).toArray,
    ((List.range e.size).map fun j => Tagged.fx (p.eval (ofBase (d.element (e.size + j))))).toArray]

/-- Layers committed from a polynomial over a domain, with what a reader has of them, down to the
last polynomial over the last domain. -/
inductive Chain : Domain → Polynomial F → List (Commitment (Tagged F)) → List (ByteArray × F) →
    Domain → Polynomial F → Prop
  | last (d : Domain) (p : Polynomial F) : Chain d p [] [] d p
  | fold {d e last : Domain} {p q r : Polynomial F} {layer : Commitment (Tagged F)}
      {layers : List (Commitment (Tagged F))} {alpha : F} {rounds : List (ByteArray × F)}
      (squared : d.squared = .ok e) (offset : d.offset ≠ 0)
      (opens : layer.Opens H (halves p d e) e.logSize)
      (folds : ∀ j, foldPair (alpha * (ofBase (d.element j))⁻¹) (p.eval (ofBase (d.element j)))
        (p.eval (ofBase (d.element (e.size + j)))) = q.eval (ofBase (e.element j)))
      (rest : Chain e q layers rounds last r) :
      Chain d p (layer :: layers) ((layer.root, alpha) :: rounds) last r

omit [LawfulExtension F] in
/-- Every layer halves the domain. -/
theorem Chain.logSize [LawfulExtension F] {d last : Domain} {p r : Polynomial F}
    {layers : List (Commitment (Tagged F))} {rounds : List (ByteArray × F)}
    (h : Chain H d p layers rounds last r) : d.logSize = last.logSize + layers.length := by
  induction h with
  | last d p => rfl
  | fold squared _ _ _ _ ih => rw [(Domain.squared_eq_ok.mp squared).1, ih, List.length_cons]; rfl

theorem exists_commitLayer {d e : Domain} (h : d.squared = .ok e) (workers : Int)
    (p : Polynomial F) : ∃ layer,
      commitLayer H workers ((Fourier.values p d).toArray.map Tagged.fx) = .ok layer ∧
        layer.Opens H (halves p d e) e.logSize := by
  have hsize := Domain.size_of_squared h
  have hcolumns : [((Fourier.values p d).toArray.map Tagged.fx).extract 0 e.size,
      ((Fourier.values p d).toArray.map Tagged.fx).extract e.size d.size] = halves p d e := by
    rw [Fourier.values, hsize, List.range_add, halves]
    simp [Function.comp_def]
  have hlengths : ∀ column ∈ halves p d e, column.size = 2 ^ e.logSize := by
    simp [halves, Domain.size_eq]
  have hne : halves p d e ≠ [] := List.cons_ne_nil _ _
  obtain ⟨layer, hcommit, hopens⟩ := Commitment.exists_commit H workers hne hlengths
  refine ⟨layer, ?_, hopens⟩
  have hhalf : ((Fourier.values p d).toArray.map Tagged.fx).size / 2 = e.size := by
    simp only [Array.size_map, List.size_toArray, Fourier.length_values]
    omega
  have htotal : ((Fourier.values p d).toArray.map Tagged.fx).size = d.size := by simp
  rw [commitLayer, hhalf, htotal, hcolumns, hcommit]

section Commit

variable {T : ByteArray → Prop} {E : Error → ProofStream → Prop} {H}

/-- What remains of a polynomial below `2 ^ b` after `n` folds. -/
structure Remains (d : Domain) (b n : Nat) (last : Domain) (r : Polynomial F) : Prop where
  degree : r.degree < (2 ^ (b - n) : Nat)
  logSize : last.logSize = d.logSize - n
  offset : last.offset ≠ 0

/-- A reader of the folding rounds sees the layers of the folded polynomials. -/
theorem replays_rounds (workers : Int) {n b : Nat} {d : Domain} {p : Polynomial F}
    (hoffset : d.offset ≠ 0) (hn : n ≤ d.logSize) (hb : n ≤ b) (hp : p.degree < (2 ^ b : Nat)) :
    letI := ProofStream.channel H F
    Replays T E (commitRounds H workers n d (Fourier.values p d).toArray)
      (ProofStream.pullMany (readRound H F) n)
      fun a rounds => ∃ r, Chain H d p a.1 rounds a.2.1 r ∧
        a.2.2 = (Fourier.values r a.2.1).toArray ∧ Remains d b n a.2.1 r := by
  induction n generalizing T b d p with
  | zero => exact Replays.pure ⟨p, .last d p, rfl, hp, rfl, hoffset⟩
  | succ n ih =>
    obtain ⟨b, rfl⟩ : ∃ c, b = c + 1 := ⟨b - 1, by omega⟩
    obtain ⟨k, hk⟩ : ∃ k, d.logSize = k + 1 := ⟨d.logSize - 1, by omega⟩
    have hle := d.logSize_le
    let e : Domain := ⟨k, d.offset * d.offset, by omega⟩
    have hsquared : d.squared = .ok e := Domain.squared_eq_ok.mpr ⟨hk, rfl⟩
    obtain ⟨layer, hcommit, hopens⟩ := exists_commitLayer H hsquared workers p
    -- The coefficients below the bound, whose even and odd parts are folded.
    have hcoefficients := poly_map_coeff hp
    set cs := (List.range (2 ^ (b + 1))).map p.coeff with hcs
    have hlength : cs.length ≤ 2 * 2 ^ b := by
      rw [hcs, List.length_map, List.length_range, pow_succ']
    refine Replays.ok_left hcommit ?_
    rw [ProofStream.pullMany, readRound, bind_assoc]
    refine (ProofStream.replays_digest H hopens.root).bind fun _ root hroot => ?_
    rw [bind_assoc]
    refine (ProofStream.replays_sampleField H F).bind fun _ alpha halpha => ?_
    subst hroot halpha
    have hfold : fold (Fourier.values p d).toArray alpha d =
        .ok (Fourier.values (foldPoly alpha cs) e).toArray := by
      rw [← fold_values hsquared hoffset, hcoefficients]
    refine Replays.ok_left hfold (Replays.ok_left hsquared ?_)
    refine (ih (mul_ne_zero hoffset hoffset) (by change n ≤ k; omega) (by omega)
      (degree_foldPoly_lt alpha hlength)).bind fun a rounds h => Replays.pure ?_
    obtain ⟨r, hchain, hlast, hremains⟩ := h
    refine ⟨r, .fold hsquared hoffset hopens (fun j => ?_) hchain, hlast, ?_, ?_, hremains.offset⟩
    · have hx : (ofBase (d.element j) : F) ≠ 0 := ofBase_ne_zero (d.element_ne_zero hoffset j)
      rw [Domain.element_half_add hsquared, ofBase_neg, ← hcoefficients, foldPair_eval hx,
        Domain.element_of_squared hsquared, ofBase_mul]
    · rw [Nat.add_sub_add_right]
      exact hremains.degree
    · rw [hremains.logSize, hk, Nat.add_sub_add_right]

/-- The test has room for a polynomial below `2 ^ b`. -/
structure Fits (fri : Fri) (b : Nat) : Prop where
  rounds : fri.rounds ≤ b
  bound : b ≤ fri.domain.logSize
  terminal : fri.terminalSize = 2 ^ (fri.domain.logSize - fri.rounds)
  coefficients : fri.maxCoefficients = 2 ^ (b - fri.rounds)

/-- What the expansion leaves of a domain is the room of the test. -/
theorem exists_fits {d : Domain} {b e : Nat} (hlog : b + e = d.logSize) (t : Nat) :
    ∃ fri, of? d (2 ^ e : Nat) (2 ^ t : Nat) = .ok fri ∧ fri.domain = d ∧ fri.rounds = b - t ∧
      fri.Fits b := by
  have hmin : min d.logSize (e + t) = e + min b t := by omega
  have hrounds : d.logSize - (e + min b t) = b - t := by omega
  rw [of?_two_pow, hmin, hrounds]
  refine ⟨_, rfl, rfl, rfl, ?_, ?_, ?_, ?_⟩
  · exact Nat.sub_le b t
  · change b ≤ d.logSize
    omega
  · change 2 ^ (e + min b t) = 2 ^ (d.logSize - (b - t))
    congr 1
    omega
  · change max (2 ^ (e + min b t) / 2 ^ e) 1 = 2 ^ (b - (b - t))
    have hexponent : b - (b - t) = min b t := by omega
    rw [hexponent, pow_add, Nat.mul_div_cancel_left _ (Nat.two_pow_pos _)]
    exact max_eq_left Nat.one_le_two_pow

/-- What the commit phase leaves on both sides. -/
structure Committed (fri : Fri) (H : Hash) (p : Polynomial F) (folded : Folded F)
    (commitments : Commitments F) : Prop where
  count : folded.layers.length = fri.rounds
  chain : ∃ last r, Chain H fri.domain p folded.layers commitments.rounds last r ∧
    poly commitments.final.toList = r
  terminal : checkTerminal fri commitments = .ok ()

/-- A reader of the commit phase has what the writer committed to, and the last polynomial is short
enough. Only without rounds can it have too many coefficients to be counted in four bytes. -/
theorem replays_commit {fri : Fri} {b : Nat} (hfri : fri.Fits b) (hoffset : fri.domain.offset ≠ 0)
    (workers : Int) {p : Polynomial F} (hp : p.degree < (2 ^ b : Nat))
    (hmany : fri.rounds = 0 → ¬ p.degree < (2 ^ 32 - 1 : Nat) → ∀ s, E .integerWidth s) :
    letI := ProofStream.channel H F
    Replays T E (fri.commit H workers (Fourier.values p fri.domain).toArray)
      (fri.readCommitments H F) (Committed fri H p) := by
  have hrounds := hfri.rounds
  have hbound := hfri.bound
  refine (replays_rounds workers hoffset (by omega) hfri.rounds hp).bind fun a rounds h => ?_
  obtain ⟨layers, last, codeword⟩ := a
  dsimp only at h
  obtain ⟨r, hchain, rfl, hdegree, hsize, hlastOffset⟩ := h
  have hcodeword : (Fourier.values r last).toArray.size = last.size := by simp
  obtain ⟨cs, hinterpolate, hlength, hvalues⟩ :=
    Fourier.exists_interpolate hcodeword hlastOffset
  have hcs := degree_poly_lt cs.toList
  rw [Array.length_toList, hlength] at hcs
  have hle : 2 ^ (b - fri.rounds) ≤ last.size := by
    rw [Domain.size_eq, hsize]
    exact Nat.pow_le_pow_right (by decide) (by omega)
  have hpoly : poly cs.toList = r := last.eq_of_values_eq hlastOffset hcs
    (hdegree.trans_le (by exact_mod_cast hle)) hvalues
  have htrim : (Polynomial.trim cs).size ≤ 2 ^ (b - fri.rounds) := by
    rw [size_trim_le_iff, hpoly]
    exact hdegree
  have hterminal : ((Polynomial.trim cs).toList.map (Tagged.fx (F := F))).length ≤
      fri.terminalSize := by
    rw [List.length_map, Array.length_toList, hfri.terminal]
    exact htrim.trans (hle.trans_eq (by rw [Domain.size_eq, hsize]))
  have hrounds : layers.length = fri.rounds := by
    have := hchain.logSize
    omega
  have hcount (hle : 2 ^ 32 ≤ ((Polynomial.trim cs).toList.map (Tagged.fx (F := F))).length)
      (s : ProofStream) : E .integerWidth s := by
    rw [List.length_map, Array.length_toList] at hle
    have hzero : fri.rounds = 0 := by
      by_contra hne
      have hle' := hle.trans htrim
      have htop := fri.domain.logSize_le
      have h32 : Fp.twoAdicity = 32 := rfl
      have := (Nat.pow_le_pow_iff_right (by decide)).mp hle'
      omega
    refine hmany hzero (fun hlt => ?_) s
    obtain rfl : layers = [] := List.eq_nil_of_length_eq_zero (hrounds.trans hzero)
    cases hchain
    rw [← hpoly, ← size_trim_le_iff] at hlt
    omega
  refine Replays.ok_left hinterpolate ?_
  have hlimit : ∀ n ∈ some (fri.terminalSize : Int),
      (((Polynomial.trim cs).toList.map (Tagged.fx (F := F))).length : Int) ≤ n := by
    rintro n ⟨⟩
    exact_mod_cast hterminal
  refine (ProofStream.replays_elements H hcount hlimit).bind fun _ values hvalues => ?_
  · subst hvalues
    have hfinal : ((Polynomial.trim cs).toList.map (Tagged.fx (F := F))).mapM
        (extensionPart .terminalKind) = .ok (Polynomial.trim cs).toList := by
      rw [List.mapM_map]
      exact (mapM_eq_map (g := id) fun x _ => rfl).trans (by rw [List.map_id])
    refine Replays.ok_right hfinal (Replays.pure ⟨hrounds, ⟨last, r, hchain, ?_⟩, ?_⟩)
    · exact (poly_trim cs).trans hpoly
    · have hsmall : (Polynomial.trim (Polynomial.trim cs)).size ≤ fri.maxCoefficients := by
        rw [size_trim_le_iff, poly_trim, hpoly, hfri.coefficients]
        exact hdegree
      rw [checkTerminal]
      exact if_neg (not_lt.mpr hsmall)

end Commit

section Query

variable {H}

/-- What answers a query at a position: the openings are read back, authenticate, and follow the
folds of the polynomials. -/
structure Answers (H : Hash) (d : Domain) (p : Polynomial F) (layers : List (Commitment (Tagged F)))
    (rounds : List (ByteArray × F)) (final : Array F) (position : Int)
    (openings : List (Opening (Tagged F))) : Prop where
  opened : openLayers layers d.size position = .ok openings
  read {T : ByteArray → Prop} {E : Error → ProofStream → Prop} :
    Replays T E (openings.forM fun o => ProofStream.push H (.opening o))
      (readLayers H F layers.length d.size) fun _ os => os = openings
  authentic (k : Nat) : checkLayers H k rounds openings = .ok ()
  follows (k : Nat) (known : Option F)
    (h : ∀ v ∈ known, v = p.eval (ofBase (d.elementAt position))) :
    followFolds final k (rounds.map (·.2)) openings d position known = .ok ()
  first (o : Opening (Tagged F)) (h : o ∈ openings.head?) :
    valueOf o d.size position = .ok (p.eval (ofBase (d.elementAt position)))
  last (h : openings = []) : Polynomial.eval final (ofBase (d.elementAt position)) =
    p.eval (ofBase (d.elementAt position))

section Layer

variable {d e : Domain} {p : Polynomial F} {o : Opening (Tagged F)} {position : Nat}

theorem values_of_halves {k j : Nat} (h : o.Of (halves p d e) k j) (hj : j < e.size) : o.values =
    [.fx (p.eval (ofBase (d.element j))), .fx (p.eval (ofBase (d.element (e.size + j))))] := by
  obtain ⟨-, hvalues, -, -⟩ := h
  rcases o with ⟨index, values, path⟩
  rcases hvalues with _ | ⟨heven, _ | ⟨hodd, _ | _⟩⟩
  have value (f : Nat → Tagged F) {v : Tagged F}
      (hv : ((List.range e.size).map f).toArray[j]? = some v) : v = f j := by
    simpa [hj, eq_comm] using hv
  exact congrArg₂ (fun a b => [a, b]) (value _ heven) (value _ hodd)

theorem lift_of_halves {k j : Nat} (h : o.Of (halves p d e) k j) (hj : j < e.size) :
    o.values.map Tagged.lift =
      [p.eval (ofBase (d.element j)), p.eval (ofBase (d.element (e.size + j)))] := by
  rw [values_of_halves h hj]
  rfl

/-- The pair that is opened for a position holds the value there. -/
theorem valueOf_of_halves {k : Nat} (h : o.Of (halves p d e) k (position % e.size))
    (hsize : d.size = e.size + e.size) (hposition : position < d.size) :
    valueOf o d.size position = .ok (p.eval (ofBase (d.elementAt position))) := by
  rw [Domain.elementAt_natCast_eq_element]
  exact valueOf_eq (g := fun j => p.eval (ofBase (d.element j)))
    (lift_of_halves h (Nat.mod_lt _ e.size_pos)) hsize hposition

end Layer

theorem Answers.nil {d : Domain} {p : Polynomial F} {final : Array F} (h : poly final.toList = p)
    (position : Int) : Answers H d p [] [] final position [] := by
  have heval : Polynomial.eval final (ofBase (d.elementAt position)) =
      p.eval (ofBase (d.elementAt position)) := by rw [eval_eq, h]
  refine ⟨rfl, Replays.pure rfl, fun k => rfl, fun k known hknown => ?_, fun o ho => by simp at ho,
    fun _ => heval⟩
  rw [followFolds, heval, if_pos]
  cases known with
  | none => rfl
  | some v => simpa using hknown v rfl

/-- A layer is answered by the pair of the position and its opposite, and the next layer at the
position of their fold. -/
theorem Answers.cons {d e : Domain} {p q : Polynomial F} {layer : Commitment (Tagged F)}
    {layers : List (Commitment (Tagged F))} {alpha : F} {rounds : List (ByteArray × F)}
    {final : Array F} {position : Nat} {o : Opening (Tagged F)} {openings : List (Opening (Tagged F))}
    (squared : d.squared = .ok e) (offset : d.offset ≠ 0) (hposition : position < d.size)
    (folds : ∀ j, foldPair (alpha * (ofBase (d.element j))⁻¹) (p.eval (ofBase (d.element j)))
      (p.eval (ofBase (d.element (e.size + j)))) = q.eval (ofBase (e.element j)))
    (hopen : layer.openAt (position % e.size : Nat) = .ok o)
    (hof : o.Of (halves p d e) e.logSize (position % e.size))
    (hcheck : ∀ kind what, (∀ v ∈ o.values, TaggedValue.kind v = kind) →
      o.check H layer.root kind what = .ok ())
    (h : Answers H e q layers rounds final (position % e.size : Nat) openings) :
    Answers H d p (layer :: layers) ((layer.root, alpha) :: rounds) final position
      (o :: openings) := by
  have hsize := Domain.size_of_squared squared
  have hhalf : d.size / 2 = e.size := by omega
  have hjlt : position % e.size < e.size := Nat.mod_lt _ e.size_pos
  have hj : (position : Int) % (d.size / 2 : Nat) = (position % e.size : Nat) := by
    rw [hhalf, Int.natCast_emod]
  have hvalues := values_of_halves hof hjlt
  have hvalue := valueOf_of_halves hof hsize hposition
  refine ⟨?_, ?_, fun k => ?_, fun k known hknown => ?_, ?_, ?_⟩
  · rw [openLayers, hj, hopen, ok_bind, hhalf, h.opened]
    rfl
  · intro T E
    have hheight : (d.size : Int) / 2 = e.size := by omega
    rw [List.length_cons, readLayers, hhalf, hheight]
    change Replays _ _ (ProofStream.push H (.opening o) >>= fun _ =>
      openings.forM fun o => ProofStream.push H (.opening o)) _ _
    have hwidth : o.values.length = 2 := congrArg List.length hvalues
    refine (ProofStream.replays_opening_of H hof hjlt hwidth fun h => absurd h (by decide)).bind
      fun _ b hb => ?_
    exact h.read.bind_right fun _ os hos => Replays.pure (by rw [hb, hos])
  · rw [checkLayers, hcheck .fx _ (by rw [hvalues]; simp [TaggedValue.kind]), ok_bind]
    exact h.authentic (k + 1)
  · have hknownValue : ¬ known.any (· ≠ p.eval (ofBase (d.element position))) = true := by
      rw [Domain.elementAt_natCast_eq_element] at hknown
      cases known with
      | none => simp
      | some v => simpa using hknown v rfl
    rw [List.map_cons, followFolds_cons (g := fun j => p.eval (ofBase (d.element j))) squared offset
      (lift_of_halves hof hjlt) hposition, if_neg (not_not.mpr hof.index), if_neg hknownValue, folds]
    refine h.follows (k + 1) _ ?_
    rintro v ⟨⟩
    rw [Domain.elementAt_natCast_eq_element]
  · intro o' ho'
    obtain rfl : o = o' := by simpa using ho'
    exact hvalue
  · intro h
    cases h

theorem exists_answers {d last : Domain} {p r : Polynomial F}
    {layers : List (Commitment (Tagged F))} {rounds : List (ByteArray × F)}
    (h : Chain H d p layers rounds last r) {final : Array F} (hfinal : poly final.toList = r)
    {position : Nat} (hposition : position < d.size) :
    ∃ openings, Answers H d p layers rounds final position openings := by
  induction h generalizing position with
  | last d p => exact ⟨[], .nil hfinal position⟩
  | @fold d e last p q r layer layers alpha rounds squared offset opens folds rest ih =>
    have hjlt : position % e.size < e.size := Nat.mod_lt _ e.size_pos
    obtain ⟨o, hopen, hof, hcheck⟩ := opens.opened (position % e.size) hjlt
    obtain ⟨openings, hanswers⟩ := ih hfinal hjlt
    exact ⟨o :: openings, .cons squared offset hposition folds hopen hof hcheck hanswers⟩

/-- A reader of an answered query has openings that authenticate, and from them the value of the
polynomial at the index. -/
theorem replays_openQuery {T : ByteArray → Prop} {E : Error → ProofStream → Prop} {fri : Fri}
    {p : Polynomial F} {folded : Folded F} {commitments : Commitments F}
    (h : Committed fri H p folded commitments)
    {index : Nat} (hindex : index < fri.domain.size) :
    letI := ProofStream.channel H F
    Replays T E (fri.openQuery folded index) (fri.readQuery H F) fun _ openings =>
      checkOpenings H commitments openings = .ok () ∧
        fri.verifyQuery commitments index openings =
          .ok (p.eval (ofBase (fri.domain.elementAt index))) := by
  obtain ⟨last, r, hchain, hfinal⟩ := h.chain
  obtain ⟨openings, hanswers⟩ := exists_answers hchain hfinal hindex
  refine Replays.ok_left hanswers.opened ?_
  rw [readQuery, ← h.count]
  refine hanswers.read.mono fun _ os hos => ?_
  subst hos
  refine ⟨hanswers.authentic 0, ?_⟩
  rw [verifyQuery.eq_def, hanswers.follows 0 none (by simp), ok_bind]
  cases os with
  | nil => exact congrArg Except.ok (hanswers.last rfl)
  | cons o os => exact hanswers.first o rfl

end Query

end Fri

end Fri

/-! Completeness of the low-degree test by itself. On a codeword of low degree the writer commits
and opens any indices, and whoever reads its bytes from the same transcript finds every check passed
and the codeword's own values at the indices. -/

section Tested

open ExtensionField

namespace Fri

variable {F : Type} [ExtensionField F] (H : Hash)

/-- The commit phase and the answers to queries at some indices. -/
def prove (fri : Fri) (workers : Int) (codeword : Array F) (indices : List Nat) : StreamM Unit :=
  letI := ProofStream.channel H F
  do
    let folded ← fri.commit H workers codeword
    indices.forM fun index => fri.openQuery folded index

/-- The openings authenticate, and the query gives the codeword's value at the index. -/
structure Passes (fri : Fri) (codeword : Array F) (commitments : Commitments F) (index : Nat)
    (openings : List (Opening (Tagged F))) : Prop where
  authentic : checkOpenings H commitments openings = .ok ()
  value : ∃ v, codeword[index]? = some v ∧ fri.verifyQuery commitments index openings = .ok v

variable [LawfulExtension F]

/-- A query is read back, and passes. -/
theorem replays_query {T : ByteArray → Prop} {E : Error → ProofStream → Prop} {fri : Fri}
    {p : Polynomial F} {folded : Folded F} {commitments : Commitments F}
    (h : Committed fri H p folded commitments) {index : Nat} (hindex : index < fri.domain.size) :
    letI := ProofStream.channel H F
    Replays T E (fri.openQuery folded index) (fri.readQuery H F) fun _ openings =>
      fri.Passes H (Fourier.values p fri.domain).toArray commitments index openings := by
  refine (replays_openQuery h hindex).mono fun _ openings ⟨hauthentic, hvalue⟩ => ?_
  refine ⟨hauthentic, _, ?_, hvalue⟩
  rw [Domain.elementAt_natCast_eq_element, List.getElem?_toArray, Fourier.values, List.getElem?_map,
    List.getElem?_range hindex]
  rfl

theorem replays_prove {T : ByteArray → Prop} {E : Error → ProofStream → Prop} {fri : Fri} {b : Nat}
    (hfri : fri.Fits b) (hoffset : fri.domain.offset ≠ 0) (workers : Int) {p : Polynomial F}
    (hp : p.degree < (2 ^ b : Nat))
    (hmany : fri.rounds = 0 → ¬ p.degree < (2 ^ 32 - 1 : Nat) → ∀ s, E .integerWidth s)
    {indices : List Nat} (hindices : ∀ i ∈ indices, i < fri.domain.size) :
    Replays T E (fri.prove H workers (Fourier.values p fri.domain).toArray indices)
      (fri.readProof H F indices.length) fun _ (commitments, queries) =>
        checkTerminal fri commitments = .ok () ∧
          List.Forall₂ (fri.Passes H (Fourier.values p fri.domain).toArray commitments) indices
            queries := by
  apply (replays_commit hfri hoffset workers hp hmany).bind
  intro folded commitments hcommitted
  apply (Replays.pullMany fun i hi T => replays_query H hcommitted (hindices i hi)).bind_right
  intro _ queries hqueries
  exact Replays.pure ⟨hcommitted.terminal, hqueries⟩

/-- More coefficients than four bytes can count are as many as the largest domain has points. -/
theorem full_of_many {d : Domain} {e : Nat} {p : Polynomial F}
    (hp : p.degree < (2 ^ (d.logSize - e) : Nat)) (hlarge : ¬ p.degree < (2 ^ 32 - 1 : Nat)) :
    d.size = 2 ^ 32 ∧ e = 0 ∧ p.degree = (2 ^ 32 - 1 : Nat) := by
  have hdegree : ((2 ^ 32 - 1 : Nat) : WithBot Nat) ≤ p.degree := not_lt.mp hlarge
  have hbound : 2 ^ 32 - 1 < 2 ^ (d.logSize - e) := by
    exact_mod_cast hdegree.trans_lt hp
  have hroom : 32 ≤ d.logSize - e := by
    by_contra hlt
    have := Nat.pow_le_pow_right (n := 2) (by decide) (show d.logSize - e ≤ 31 by omega)
    omega
  have htop : d.logSize ≤ 32 := d.logSize_le
  have hlog : d.logSize = 32 := by omega
  obtain rfl : e = 0 := by omega
  rw [hlog] at hp
  refine ⟨?_, rfl, le_antisymm ?_ hdegree⟩
  · rw [Domain.size_eq, hlog]
  · exact Order.le_of_lt_succ hp

/-- The writer fails only where all coefficients over the largest domain are to be sent at once, one
more than four bytes can count. -/
theorem passes_of_degree_lt {d : Domain} (hoffset : d.offset ≠ 0) {e : Nat} (he : e ≤ d.logSize)
    (t : Nat) {p : Polynomial F} (hp : p.degree < (2 ^ (d.logSize - e) : Nat)) (workers : Int)
    {indices : List Nat} (hindices : ∀ i ∈ indices, i < d.size) {w : ProofStream}
    (hw : w.reading = false) :
    let codeword := (Fourier.values p d).toArray
    ∃ fri, of? d (2 ^ e : Nat) (2 ^ t : Nat) = .ok fri ∧
      ((d.size = 2 ^ 32 ∧ e = 0 ∧ 32 ≤ t ∧ p.degree = (2 ^ 32 - 1 : Nat) ∧
        (fri.prove H workers codeword indices w).1 = .error .integerWidth) ∨
      ∃ w' written, fri.prove H workers codeword indices w = (.ok (), w') ∧
        w'.buffer = w.buffer ++ written ∧ ∀ before after, ∃ commitments queries,
          fri.readProof H F indices.length
              ⟨w.transcript, true, before ++ written ++ after, before.size⟩ =
            (.ok (commitments, queries),
              ⟨w'.transcript, true, before ++ written ++ after, (before ++ written).size⟩) ∧
          checkTerminal fri commitments = .ok () ∧
          List.Forall₂ (fri.Passes H codeword commitments) indices queries) := by
  intro codeword
  obtain ⟨fri, hfri, rfl, hrounds, hfits⟩ := exists_fits (Nat.sub_add_cancel he) t
  refine ⟨fri, hfri, ?_⟩
  let E : Error → ProofStream → Prop := fun error _ => error = .integerWidth ∧
    fri.domain.size = 2 ^ 32 ∧ e = 0 ∧ 32 ≤ t ∧ p.degree = (2 ^ 32 - 1 : Nat)
  have hmany (hzero : fri.rounds = 0) (hlarge : ¬ p.degree < (2 ^ 32 - 1 : Nat)) (s : ProofStream) :
      E .integerWidth s := by
    obtain ⟨hsize, rfl, hdegree⟩ := full_of_many hp hlarge
    have hlog : fri.domain.logSize = 32 :=
      Nat.pow_right_injective le_rfl ((Domain.size_eq _).symm.trans hsize)
    exact ⟨rfl, hsize, rfl, by omega, hdegree⟩
  rcases replays_prove (T := fun _ => True) H hfits hoffset workers hp hmany hindices w hw with
    ⟨_, _, hfail, rfl, hsize, hzero, ht, hdegree⟩ | ⟨_, w', written, hprove, -, hbuffer, hread⟩
  · exact .inl ⟨hsize, hzero, ht, hdegree, congrArg Prod.fst hfail⟩
  · refine .inr ⟨w', written, hprove, hbuffer, fun before after => ?_⟩
    obtain ⟨⟨commitments, queries⟩, ⟨hterminal, hqueries⟩, hrun⟩ := hread before after trivial
    exact ⟨commitments, queries, hrun, hterminal, hqueries⟩

/-- The points themselves over a coset of eight, folded twice, and opened at two of them. -/
theorem passes_of_points :
    let d : Domain := ⟨3, Fp.generator, by decide⟩
    let codeword : Array Fp3 := (Fourier.values Polynomial.X d).toArray
    ∃ fri, of? d (2 ^ 1 : Nat) (2 ^ 0 : Nat) = .ok fri ∧
      ∃ w' written, fri.prove Hash.blake2b 1 codeword [0, 5] (.writer Hash.blake2b) = (.ok (), w') ∧
        w'.buffer = ByteArray.empty ++ written ∧ ∀ before after, ∃ commitments queries,
          fri.readProof Hash.blake2b Fp3 2 ⟨.init Hash.blake2b ByteArray.empty, true,
              before ++ written ++ after, before.size⟩ =
            (.ok (commitments, queries),
              ⟨w'.transcript, true, before ++ written ++ after, (before ++ written).size⟩) ∧
          checkTerminal fri commitments = .ok () ∧
          List.Forall₂ (fri.Passes Hash.blake2b codeword commitments) [0, 5] queries := by
  intro d codeword
  have hp : (Polynomial.X : Polynomial Fp3).degree < (2 ^ (d.logSize - 1) : Nat) :=
    Polynomial.degree_X_le.trans_lt (by norm_num [d])
  have hindices : ∀ i ∈ [0, 5], i < d.size := by decide
  obtain ⟨fri, hfri, ⟨hsize, -⟩ | hpasses⟩ := passes_of_degree_lt Hash.blake2b
    Fp.generator_ne_zero (by decide) 0 hp 1 hindices (w := .writer Hash.blake2b) rfl
  · exact absurd hsize (by decide)
  · exact ⟨fri, hfri, hpasses⟩

end Fri

end Tested

end TapeStark
