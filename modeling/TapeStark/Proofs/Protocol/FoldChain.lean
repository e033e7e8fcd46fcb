import Mathlib
import TapeStark.Proofs.Protocol.Config
import TapeStark.Proofs.Protocol.Fold

/-!
What the queries of the low-degree test check. Any words may stand on the layers. If every query is
answered by the pair of each word below its index, then all of them are accepted exactly when each
word folds into the next one and the last word into the values of the last polynomial.
-/

namespace TapeStark

open ExtensionField

namespace Domain

/-- The domain after `k` squarings, of at least one point. -/
def squares (D : Domain) (k : Nat) : Domain where
  logSize := D.logSize - k
  offset := D.offset ^ 2 ^ k
  logSize_le := (Nat.sub_le _ _).trans D.logSize_le

variable {D : Domain}

theorem squares_zero : D.squares 0 = D := by
  simp [squares]

theorem squares_squares (j k : Nat) : (D.squares j).squares k = D.squares (j + k) := by
  ext1
  · exact Nat.sub_sub _ _ _
  · exact (pow_mul _ _ _).symm.trans (by rw [← pow_add]; rfl)

theorem squared_squares {k : Nat} (h : k < D.logSize) :
    (D.squares k).squared = .ok (D.squares (k + 1)) := by
  refine squared_eq_ok.mpr ⟨?_, ?_⟩
  · change D.logSize - k = D.logSize - (k + 1) + 1
    omega
  · change D.offset ^ 2 ^ (k + 1) = D.offset ^ 2 ^ k * D.offset ^ 2 ^ k
    rw [← pow_add, pow_succ, mul_two]

theorem squared_eq_squares (h : 0 < D.logSize) : D.squared = .ok (D.squares 1) := by
  have := squared_squares h
  rwa [squares_zero] at this

theorem offset_squares (h : D.offset ≠ 0) (k : Nat) : (D.squares k).offset ≠ 0 :=
  pow_ne_zero _ h

/-- A position in a later layer is told by one in an earlier layer. -/
theorem mod_size_squares (i j k : Nat) :
    i % (D.squares j).size % (D.squares (j + k)).size = i % (D.squares (j + k)).size := by
  refine Nat.mod_mod_of_dvd i (Nat.pow_dvd_pow 2 ?_)
  exact Nat.sub_le_sub_left (Nat.le_add_right j k) _

end Domain

namespace Fri

theorem layersFrom_eq {n : Nat} {D : Domain} (hn : n ≤ D.logSize) :
    layersFrom n D = .ok ((List.range (n + 1)).map D.squares) := by
  induction n generalizing D with
  | zero => simp [layersFrom, Domain.squares_zero]
  | succ n ih =>
    have hlog : n ≤ (D.squares 1).logSize := Nat.le_sub_of_add_le hn
    rw [layersFrom, Domain.squared_eq_squares (by omega), ok_bind, ih hlog, ok_bind,
      List.range_succ_eq_map (n := n + 1), List.map_cons, List.map_map, Domain.squares_zero]
    refine congrArg (fun ds => Except.ok (D :: ds)) (List.map_congr_left fun k _ => ?_)
    rw [Domain.squares_squares, Function.comp_apply, Nat.add_comm]

/-- The test folds at most down to one point. -/
theorem of?_eq_ok {d : Domain} {expansion coefficients : Int} {fri : Fri}
    (h : of? d expansion coefficients = .ok fri) : fri.domain = d ∧ fri.rounds ≤ d.logSize := by
  obtain ⟨k, -, hfri⟩ := bind_eq_ok.mp h
  obtain rfl := Except.ok.inj hfri
  exact ⟨rfl, Nat.sub_le _ _⟩

variable {F : Type} [ExtensionField F]

def tabulate (D : Domain) (g : Nat → F) : Array F := ((List.range D.size).map g).toArray

omit [ExtensionField F] in
theorem size_tabulate (D : Domain) (g : Nat → F) : (tabulate D g).size = D.size := by
  simp [tabulate]

theorem getD_tabulate {D : Domain} {j : Nat} (hj : j < D.size) (g : Nat → F) :
    (tabulate D g).getD j 0 = g j := by
  simp [tabulate, hj]

/-- The values on a layer: those of its word, or behind the last of `n` words those of the last
polynomial. -/
def layerValue (D : Domain) (f : Nat → Nat → F) (n : Nat) (final : Array F) (k j : Nat) : F :=
  if k < n then f k j else Polynomial.eval final (ofBase ((D.squares k).element j))

/-- Each word, `f k` over the domain after `k` squarings, folds into the values on the next layer. -/
def FoldsDown (D : Domain) (f : Nat → Nat → F) (alphas : List F) (final : Array F) : Prop :=
  ∀ k alpha, alphas[k]? = some alpha →
    fold (tabulate (D.squares k) (f k)) alpha (D.squares k) =
      .ok (tabulate (D.squares (k + 1)) (layerValue D f alphas.length final (k + 1)))

/-- Where layer `k` is opened for an index: modulo the half of its size. -/
def place (D : Domain) (k i : Nat) : Nat := i % (D.squares (k + 1)).size

/-- Layer `k` is opened at its place, with the two values of its word below the index. -/
structure OpensPair (D : Domain) (f : Nat → Nat → F) (k i : Nat) (o : Opening (Tagged F)) :
    Prop where
  index : o.index = place D k i
  values : o.values.map Tagged.lift =
    [f k (place D k i), f k ((D.squares (k + 1)).size + place D k i)]

/-- A query is answered by one opening of each word. -/
structure AnswersQuery (D : Domain) (f : Nat → Nat → F) (n i : Nat)
    (openings : List (Opening (Tagged F))) : Prop where
  count : openings.length = n
  opens : ∀ k o, openings[k]? = some o → OpensPair D f k i o

section Shift

variable {D : Domain} {f : Nat → Nat → F} {n k i : Nat}

/-- The layers behind the first one are those of the squared domain. -/
theorem layerValue_squares (final : Array F) : layerValue (D.squares 1) (fun k => f (k + 1)) n final k =
    layerValue D f (n + 1) final (k + 1) := by
  funext j
  simp only [layerValue, Nat.add_lt_add_iff_right, Domain.squares_squares, Nat.add_comm 1]

theorem place_squares : place (D.squares 1) k (place D 0 i) = place D (k + 1) i := by
  rw [place, place, place, Domain.squares_squares, Domain.mod_size_squares, Nat.add_comm 1]

theorem AnswersQuery.tail {o : Opening (Tagged F)} {openings : List (Opening (Tagged F))}
    (h : AnswersQuery D f (n + 1) i (o :: openings)) :
    AnswersQuery (D.squares 1) (fun k => f (k + 1)) n (place D 0 i) openings := by
  refine ⟨Nat.succ.inj h.count, fun k o hk => ?_⟩
  obtain ⟨hindex, hvalues⟩ := h.opens (k + 1) o hk
  constructor
  · rw [hindex, place_squares]
  · rw [hvalues, place_squares, Domain.squares_squares, Nat.add_comm 1]

end Shift

/-- The pair of word `k` below an index folds to the value on the next layer. -/
def FoldsAt (D : Domain) (f : Nat → Nat → F) (alpha : F) (next : Nat → F) (k j : Nat) : Prop :=
  foldPair (alpha * (ofBase ((D.squares k).element j))⁻¹) (f k j)
    (f k ((D.squares (k + 1)).size + j)) = next j

theorem foldsAt_zero {D : Domain} {f : Nat → Nat → F} {alpha : F} {next : Nat → F} {j : Nat} :
    FoldsAt D f alpha next 0 j ↔ foldPair (alpha * (ofBase (D.element j))⁻¹) (f 0 j)
      (f 0 ((D.squares 1).size + j)) = next j := by
  rw [FoldsAt, Domain.squares_zero]

theorem foldsAt_squares {D : Domain} {f : Nat → Nat → F} {alpha : F} {next : Nat → F} {k j : Nat} :
    FoldsAt (D.squares 1) (fun k => f (k + 1)) alpha next k j ↔
      FoldsAt D f alpha next (k + 1) j := by
  simp only [FoldsAt, Domain.squares_squares, Nat.add_comm 1]

omit [ExtensionField F] in
private theorem forall_getElem?_cons {a : F} {as : List F} {p : Nat → F → Prop} :
    (∀ k b, (a :: as)[k]? = some b → p k b) ↔ p 0 a ∧ ∀ k b, as[k]? = some b → p (k + 1) b := by
  constructor
  · exact fun h => ⟨h 0 a rfl, fun k b hb => h (k + 1) b hb⟩
  · rintro ⟨hzero, hsucc⟩ (_ | k) b hb
    · obtain rfl := Option.some.inj hb
      exact hzero
    · exact hsucc k b hb

variable [LawfulExtension F] {D : Domain} {f : Nat → Nat → F} {alphas : List F} {final : Array F}
  {i : Nat} {openings : List (Opening (Tagged F))}

variable (final) in
/-- A query follows the folds of one position through all layers. -/
theorem followFolds_eq_ok_iff (hoffset : D.offset ≠ 0) (hlog : alphas.length ≤ D.logSize)
    (hi : i < D.size) (h : AnswersQuery D f alphas.length i openings) (layer : Nat)
    (known : Option F) : followFolds final layer alphas openings D i known = .ok () ↔
      (∀ v ∈ known, v = layerValue D f alphas.length final 0 i) ∧
      ∀ k alpha, alphas[k]? = some alpha →
        FoldsAt D f alpha (layerValue D f alphas.length final (k + 1)) k (place D k i) := by
  induction alphas generalizing D f i openings layer known with
  | nil =>
    obtain rfl := List.eq_nil_of_length_eq_zero h.count
    rw [followFolds_nil]
    cases known <;> simp [layerValue, Domain.squares_zero]
  | cons alpha alphas ih =>
    obtain ⟨o, openings, rfl⟩ := List.exists_cons_of_length_eq_add_one h.count
    obtain ⟨hindex, hvalues⟩ := h.opens 0 o rfl
    have hE := Domain.squared_eq_squares (D := D) (by simp at hlog; omega)
    have hplace : place D 0 i < (D.squares 1).size := Nat.mod_lt _ (Domain.size_pos _)
    have hrest := ih (Domain.offset_squares hoffset 1) (Nat.le_sub_of_add_le hlog) hplace h.tail
      (layer + 1)
    have hfirst : layerValue D f (alphas.length + 1) final 0 = f 0 :=
      funext fun j => if_pos (Nat.succ_pos _)
    have hmod : i % (D.squares 1).size = place D 0 i := rfl
    rw [followFolds_cons (g := f 0) hE hoffset hvalues hi, hmod, List.length_cons, hfirst,
      forall_getElem?_cons, foldsAt_zero, if_neg (not_not.mpr hindex)]
    by_cases hknown : ∀ v ∈ known, v = f 0 i
    · have hany : ¬ known.any (· ≠ f 0 i) = true := by
        cases known <;> simp_all
      rw [if_neg hany, hrest, and_iff_right hknown]
      simp only [Option.mem_some_iff, forall_eq', layerValue_squares, foldsAt_squares,
        place_squares]
    · have hany : known.any (· ≠ f 0 i) = true := by
        cases known <;> simp_all
      rw [if_pos hany]
      exact iff_of_false (fun h => nomatch h) fun h => hknown h.1

variable (final) in
/-- An opening at another place is found, unless a value before it is wrong already. -/
theorem exists_foldingFault (hoffset : D.offset ≠ 0) (hlog : alphas.length ≤ D.logSize)
    (hi : i < D.size) (hcount : openings.length = alphas.length)
    (hpairs : ∀ o ∈ openings, o.values.length = 2) {k : Nat} {o : Opening (Tagged F)}
    (ho : openings[k]? = some o) (hindex : o.index ≠ place D k i) (layer : Nat)
    (known : Option F) : ∃ fault,
      followFolds final layer alphas openings D i known = .error (.rejected (.folding fault)) := by
  induction alphas generalizing D i openings k layer known with
  | nil =>
    obtain rfl := List.eq_nil_of_length_eq_zero hcount
    simp at ho
  | cons alpha alphas ih =>
    obtain ⟨first, openings, rfl⟩ := List.exists_cons_of_length_eq_add_one hcount
    obtain ⟨hfirst, hrest⟩ := List.forall_mem_cons.mp hpairs
    obtain ⟨even, odd, hvalues⟩ := List.length_eq_two.mp hfirst
    have hE := Domain.squared_eq_squares (D := D) (by simp at hlog; omega)
    have hplace : place D 0 i < (D.squares 1).size := Nat.mod_lt _ (Domain.size_pos _)
    -- Any two values are those of some word.
    let g (j : Nat) : F := if j < (D.squares 1).size then even.lift else odd.lift
    have hpair : first.values.map Tagged.lift =
        [g (place D 0 i), g ((D.squares 1).size + place D 0 i)] := by
      simp [hvalues, g, hplace]
    rw [followFolds_cons (g := g) hE hoffset hpair hi]
    split
    · exact ⟨_, rfl⟩
    · rename_i hplaced
      split
      · exact ⟨_, rfl⟩
      · cases k with
        | zero =>
          obtain rfl := Option.some.inj ho
          exact absurd hindex hplaced
        | succ k =>
          rw [← place_squares] at hindex
          exact ih (Domain.offset_squares hoffset 1) (Nat.le_sub_of_add_le hlog) hplace
            (Nat.succ.inj hcount) hrest ho hindex _ _

/-- Every place of every layer lies below some index. -/
theorem foldsDown_iff (hoffset : D.offset ≠ 0) (hlog : alphas.length ≤ D.logSize) :
    FoldsDown D f alphas final ↔ ∀ i < D.size, ∀ k alpha, alphas[k]? = some alpha →
      FoldsAt D f alpha (layerValue D f alphas.length final (k + 1)) k (place D k i) := by
  have fold_iff {k : Nat} {alpha : F} (hk : alphas[k]? = some alpha) :
      fold (tabulate (D.squares k) (f k)) alpha (D.squares k) =
        .ok (tabulate (D.squares (k + 1)) (layerValue D f alphas.length final (k + 1))) ↔
      ∀ j < (D.squares (k + 1)).size,
        FoldsAt D f alpha (layerValue D f alphas.length final (k + 1)) k j := by
    have hlt : k < D.logSize := (List.getElem?_eq_some_iff.mp hk).1.trans_le hlog
    have hE := Domain.squared_squares hlt
    have hsize := Domain.size_of_squared hE
    rw [fold_eq_ok_iff hE (Domain.offset_squares hoffset k) alpha (size_tabulate _ _),
      and_iff_right (size_tabulate _ _)]
    refine forall₂_congr fun j hj => ?_
    rw [getD_tabulate hj, getD_tabulate (by omega), getD_tabulate (by omega), FoldsAt, eq_comm]
  constructor
  · intro h i _ k alpha hk
    exact (fold_iff hk).mp (h k alpha hk) _ (Nat.mod_lt _ (Domain.size_pos _))
  · intro h k alpha hk
    refine (fold_iff hk).mpr fun j hj => ?_
    have hle : (D.squares (k + 1)).size ≤ D.size :=
      Nat.pow_le_pow_right (by decide) (Nat.sub_le _ _)
    have hplace : place D k j = j := Nat.mod_eq_of_lt hj
    rw [← hplace]
    exact h j (hj.trans_le hle) k alpha hk

variable {fri : Fri} {c : Commitments F}

omit [LawfulExtension F] in
/-- A query is accepted with the value of the first word. -/
theorem verifyQuery_eq_ok_iff (hfirst : 1 ≤ c.rounds.length) (hi : i < fri.domain.size)
    (hlog : c.rounds.length ≤ fri.domain.logSize)
    (h : AnswersQuery fri.domain f c.rounds.length i openings) (v : F) :
    fri.verifyQuery c i openings = .ok v ↔ v = f 0 i ∧
      followFolds c.final 0 (c.rounds.map (·.2)) openings fri.domain i none = .ok () := by
  obtain ⟨o, rest, rfl⟩ : ∃ o rest, openings = o :: rest := by
    refine List.exists_cons_of_ne_nil fun hnil => ?_
    have := h.count
    rw [hnil] at this
    simp at this
    omega
  have hE := Domain.squared_eq_squares (D := fri.domain) (by omega)
  have hvalue := valueOf_eq (g := f 0) (h.opens 0 o rfl).values (Domain.size_of_squared hE) hi
  rw [verifyQuery, bind_eq_ok]
  simp only [hvalue, Except.ok.injEq]
  constructor
  · rintro ⟨_, hfollow, rfl⟩
    exact ⟨rfl, hfollow⟩
  · rintro ⟨rfl, hfollow⟩
    exact ⟨(), hfollow, rfl⟩

/-- All queries are accepted exactly when the words fold down to the last polynomial, and then with
the first word's values. An opening at another place is rejected. -/
theorem verifyQuery_iff_foldsDown {domain : Domain} {expansion coefficients : Int}
    (hfri : of? domain expansion coefficients = .ok fri) (hrounds : 1 ≤ fri.rounds)
    (hoffset : domain.offset ≠ 0) (hc : c.rounds.length = fri.rounds) (f : Nat → Nat → F) :
    fri.layers = .ok ((List.range (fri.rounds + 1)).map domain.squares) ∧
    (∀ openings : Nat → List (Opening (Tagged F)),
      (∀ i < domain.size, AnswersQuery domain f fri.rounds i (openings i)) →
      ((∀ i < domain.size, ∃ v, fri.verifyQuery c i (openings i) = .ok v) ↔
        FoldsDown domain f (c.rounds.map (·.2)) c.final) ∧
      ∀ i < domain.size, ∀ v, fri.verifyQuery c i (openings i) = .ok v → v = f 0 i) ∧
    ∀ i < domain.size, ∀ openings : List (Opening (Tagged F)), openings.length = fri.rounds →
      (∀ o ∈ openings, o.values.length = 2) →
      ∀ (k : Nat) (o : Opening (Tagged F)), openings[k]? = some o → o.index ≠ place domain k i →
        ∃ fault, fri.verifyQuery c i openings = .error (.rejected (.folding fault)) := by
  obtain ⟨rfl, hlog⟩ := of?_eq_ok hfri
  rw [← hc] at hrounds hlog ⊢
  have halphas : (c.rounds.map (·.2)).length = c.rounds.length := List.length_map _
  refine ⟨?_, fun openings hopenings => ⟨?_, ?_⟩, ?_⟩
  · rw [layers, ← hc, layersFrom_eq hlog]
  · rw [foldsDown_iff hoffset (halphas ▸ hlog)]
    refine forall₂_congr fun i hi => ?_
    have hfollow := followFolds_eq_ok_iff c.final hoffset (halphas ▸ hlog) hi
      (halphas ▸ hopenings i hi) 0 none
    simp only [verifyQuery_eq_ok_iff hrounds hi hlog (hopenings i hi), exists_eq_left, hfollow]
    simp
  · intro i hi v hv
    exact ((verifyQuery_eq_ok_iff hrounds hi hlog (hopenings i hi) v).mp hv).1
  · intro i hi openings hcount hpairs k o ho hindex
    obtain ⟨fault, hfault⟩ := exists_foldingFault c.final hoffset
      (halphas ▸ hlog) hi (hcount.trans halphas.symm) hpairs ho hindex 0 none
    exact ⟨fault, by rw [verifyQuery.eq_def, hfault, error_bind]⟩

private def eightPoints : Domain := ⟨3, Fp.generator, by decide⟩

/-- The coefficients of a cubic polynomial, folded by three and then by five. -/
private def folded (k : Nat) : Array Fp :=
  (([[1, 2, 3, 4], [7, 15]].getD k [82]).map Fp.ofNat).toArray

private def foldedWord (k j : Nat) : Fp :=
  Polynomial.eval (folded k) ((eightPoints.squares k).element j)

private def foldedPair (k i : Nat) : Opening (Tagged Fp) :=
  let at_ := place eightPoints k i
  ⟨at_, [.fp (foldedWord k at_), .fx (foldedWord k ((eightPoints.squares (k + 1)).size + at_))], []⟩

private theorem foldsDown_folded : FoldsDown eightPoints foldedWord [3, 5] (folded 2) := by
  have hword (k : Nat) : tabulate (eightPoints.squares k) (foldedWord k) =
      (Fourier.values (poly (folded k).toList) (eightPoints.squares k)).toArray := by
    refine congrArg List.toArray (List.map_congr_left fun j _ => ?_)
    exact eval_eq _ _
  have hnext {k : Nat} (hk : k ≤ 2) :
      layerValue eightPoints foldedWord 2 (folded 2) k = foldedWord k := by
    funext j
    rcases Nat.lt_or_eq_of_le hk with hlt | rfl
    · rw [layerValue, if_pos hlt]
    · rw [layerValue, if_neg (lt_irrefl 2)]
      rfl
  have fold {k : Nat} (hk : k < 2) {alpha : Fp}
      (h : foldPoly alpha (folded k).toList = poly (folded (k + 1)).toList) :
      fold (tabulate (eightPoints.squares k) (foldedWord k)) alpha (eightPoints.squares k) =
        .ok (tabulate (eightPoints.squares (k + 1))
          (layerValue eightPoints foldedWord 2 (folded 2) (k + 1))) := by
    rw [hnext hk, hword, hword, ← h]
    exact fold_values (Domain.squared_squares (hk.trans (by decide)))
      (Domain.offset_squares Fp.generator_ne_zero k) alpha _
  intro k alpha hk
  rcases k with _ | _ | k
  · cases hk
    refine fold (by decide) ?_
    show foldPoly (3 : Fp) [1, 2, 3, 4] = poly [7, 15]
    simp only [foldPoly, Fourier.evens, Fourier.odds, poly_cons, poly_nil, map_one, map_ofNat]
    ring
  · cases hk
    refine fold (by decide) ?_
    show foldPoly (5 : Fp) [7, 15] = poly [82]
    simp only [foldPoly, Fourier.evens, Fourier.odds, poly_cons, poly_nil, map_ofNat]
    ring
  · cases hk

/-- The values of a cubic polynomial, folded twice, and all queries of the two layers. -/
theorem verifyQuery_iff_foldsDown_of_cubic :
    let c : Commitments Fp := ⟨[(ByteArray.empty, 3), (ByteArray.empty, 5)], folded 2⟩
    let openings (i : Nat) := [foldedPair 0 i, foldedPair 1 i]
    ∃ fri, of? eightPoints 1 2 = .ok fri ∧ 1 ≤ fri.rounds ∧ eightPoints.offset ≠ 0 ∧
      c.rounds.length = fri.rounds ∧
      (∀ i < eightPoints.size, AnswersQuery eightPoints foldedWord fri.rounds i (openings i)) ∧
      FoldsDown eightPoints foldedWord (c.rounds.map (·.2)) c.final ∧
      ∀ i < eightPoints.size, fri.verifyQuery c i (openings i) = .ok (foldedWord 0 i) := by
  intro c openings
  have hfri : of? eightPoints 1 2 = .ok ⟨eightPoints, 2, 2, 2⟩ := by
    simpa [eightPoints] using of?_two_pow eightPoints 0 1
  have hopenings (i : Nat) (_ : i < eightPoints.size) :
      AnswersQuery eightPoints foldedWord 2 i (openings i) := by
    refine ⟨rfl, fun k o ho => ?_⟩
    rcases k with _ | _ | k <;> cases ho <;> exact ⟨rfl, rfl⟩
  obtain ⟨-, haccepted, -⟩ := verifyQuery_iff_foldsDown (c := c) hfri (by decide)
    Fp.generator_ne_zero rfl foldedWord
  obtain ⟨hiff, hvalue⟩ := haccepted openings hopenings
  refine ⟨_, hfri, by decide, Fp.generator_ne_zero, rfl, hopenings, foldsDown_folded, ?_⟩
  intro i hi
  obtain ⟨v, hv⟩ := hiff.mpr foldsDown_folded i hi
  rw [hv, hvalue i hi v hv]

end Fri

end TapeStark
