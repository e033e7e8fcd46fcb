import Mathlib
import TapeStark.Proofs.Field.Lawful
import TapeStark.Proofs.Protocol.Coverage
import TapeStark.Proofs.Protocol.Opened

/-!
Prover and verifier combine the same quotients under the same weights. They differ in the point
constraints only: the prover divides what a constraint is less what it is on its row, the verifier
divides it as it is. So at every position the verifier's value is the prover's and, weighted, what
the point constraints are on their rows.
-/

namespace TapeStark

open ExtensionField

/-- The columns of every table, whatever they hold, have the height of the table, which has a
domain. -/
structure Assignment.Over {F : Type} (a : Assignment F) (heights : Heights)
    (trace : Table → Domain) : Prop where
  domain (t : Table) : Domain.subgroup? (heights.get t) = .ok (trace t)
  columns (t : Table) : ∃ base ext,
    a.get t = ⟨.ofColumns ColumnSet.all base, .ofColumns ColumnSet.all ext⟩ ∧
      (∀ k, (base k).size = (trace t).size) ∧ ∀ k, (ext k).size = (trace t).size

namespace Assignment.Over

variable {F : Type} {a : Assignment F} {heights : Heights} {trace : Table → Domain}
  (h : a.Over heights trace)

include h

theorem height_eq (t : Table) : heights.get t = (trace t).size :=
  (Domain.ofSize?_eq_ok.mp (h.domain t)).1

theorem offset_eq (t : Table) : (trace t).offset = 1 :=
  (Domain.ofSize?_eq_ok.mp (h.domain t)).2.symm

theorem size_le_degreeBound (t : Table) : (trace t).size ≤ heights.degreeBound :=
  Heights.le_degreeBound (h.height_eq t)

/-- They extend to codewords. -/
theorem exists_code [ExtensionField F] [LawfulExtension F] {wide : Domain}
    (hwide : heights.degreeBound ≤ wide.size) : ∃ tables, a.code wide = .ok tables ∧
      ∀ t, (tables.get t).Extends (trace t) wide (a.get t).cell := by
  have hcode (t : Table) : ∃ code : TableCode t F,
      (do
        let base ← (a.get t).base.lowDegree wide
        let extension ← (a.get t).extension.lowDegree wide
        return (⟨base, extension⟩ : TableCode t F)) = .ok code ∧
      code.Extends (trace t) wide (a.get t).cell := by
    obtain ⟨base, ext, hcolumns, hbase, hext⟩ := h.columns t
    obtain ⟨b, e, hb, he, hextends⟩ := TableCode.exists_extends (h.offset_eq t) hbase hext
      ((h.size_le_degreeBound t).trans hwide)
    rw [hcolumns]
    refine ⟨_, ?_, hextends⟩
    rw [hb, ok_bind, he]
    rfl
  choose code hok hextends using hcode
  refine ⟨PerTable.ofFn code, PerTable.ofFnM_eq_ok hok, fun t => ?_⟩
  rw [PerTable.get_ofFn]
  exact hextends t

end Assignment.Over

namespace Composition

section Definitions

variable {F : Type} [ExtensionField F]

def committed (tables : PerTable fun t => TableCode t F) : Committed F where
  base t k i := ((tables.get t).base.codewords.column k).getD i 0
  ext t k i := ((tables.get t).extension.codewords.column k).getD i 0

/-- What a point constraint is on its row, divided as its quotient is. -/
def onRow (cell : (t : Table) → Nat → t.Column → F) (wide : Domain) (trace : Table → Domain)
    (i : Nat) : Constraint F → F
  | .transition _ _ => 0
  | .point t p => p.eval (cell t (p.row % (trace t).size).toNat) *
      (ofBase (wide.element i) - ofBase ((trace t).elementAt p.row))⁻¹

/-- What the prover has of a constraint at a position. -/
def share (c : Composition F) (tables : PerTable fun t => TableCode t F)
    (cell : (t : Table) → Nat → t.Column → F) (wide : Domain) (trace : Table → Domain) (i : Nat)
    (s : Constraint F) : F :=
  c.quotient (committed tables) wide trace i s - onRow cell wide trace i s

/-- The prover's value at a position, with the weights as they come. -/
noncomputable def combination [LawfulExtension F] (c : Composition F)
    (tables : PerTable fun t => TableCode t F) (cell : (t : Table) → Nat → t.Column → F)
    (wide : Domain) (trace : Table → Domain) (masks : List (Polynomial F)) (weights : List F)
    (i : Nat) : F :=
  (List.zipWith (· * ·) weights (c.constraints.map (c.share tables cell wide trace i) ++
    masks.map fun p => p.eval (ofBase (wide.element i)))).sum

theorem value_committed (tables : PerTable fun t => TableCode t F) (t : Table) (i : Nat) :
    (committed tables).value t i = (tables.get t).value i := by
  funext k
  cases k <;> rfl

end Definitions

variable {F : Type} [ExtensionField F] [LawfulExtension F] {c : Composition F}
  {tables : PerTable fun t => TableCode t F} {trace : Table → Domain} {wide : Domain}
  {cell : (t : Table) → Nat → t.Column → F}

section Extends

variable (h : ∀ t, (tables.get t).Extends (trace t) wide (cell t)) {i : Nat} (hi : i < wide.size)

include h

/-- What is opened of codewords are the columns' polynomials at the point and that of the row
behind. -/
theorem opening_committed (hle : ∀ t, (trace t).size ≤ wide.size)
    (hheights : ∀ t, c.heights.get t = (trace t).size) (hi : i < wide.size) (t : Table) :
    (committed tables).opening c.heights wide.size i t =
      (tables.get t).openingAt (trace t) (ofBase (wide.element i)) := by
  rw [Committed.opening, TableCode.openingAt, value_committed, value_committed, hheights,
    nextPosition_natCast, Int.toNat_natCast, ← ofBase_mul, ← Domain.element_stride (hle t)]
  congr 1
  · exact funext fun k => (h t).value k i hi
  · exact funext fun k => (h t).value k _ (Nat.mod_lt _ wide.size_pos)

/-- The cells of a row are the columns' polynomials at its point. -/
theorem eval_elementAt (t : Table) (row : Int) :
    (fun k => ((tables.get t).column k).eval (ofBase ((trace t).elementAt row))) =
      cell t (row % (trace t).size).toNat := by
  have hlt : (row % (trace t).size).toNat < (trace t).size := by
    have hpos : (0 : Int) < (trace t).size := by exact_mod_cast (trace t).size_pos
    have := Int.emod_lt_of_pos row hpos
    omega
  exact funext fun k => (h t).cell k _ hlt

theorem transitionQuotient_committed (hle : ∀ t, (trace t).size ≤ wide.size)
    (hheights : ∀ t, c.heights.get t = (trace t).size) (hi : i < wide.size) {t : Table}
    (k : Transition t.Column) : c.transitionQuotient (committed tables) wide (trace t) k i =
      k.expr.eval (fun l => ((tables.get t).column l).eval (ofBase (wide.element i)))
          (fun l => ((tables.get t).column l).eval
            (ofBase (trace t).generator * ofBase (wide.element i))) c.challenges *
        ((ofBase (wide.element i) - TableCode.lastPoint (trace t)) *
          (ofBase (wide.element i) ^ (trace t).size - 1)⁻¹) := by
  rw [transitionQuotient, opening_committed h hle hheights hi, power_eq_pow]
  rfl

/-- What the prover divides by a point constraint's row. -/
theorem eval_pointQuotient_committed (hwide : wide.offset = Fp.generator) (hi : i < wide.size)
    {t : Table} (w : F) (p : PointConstraint t.Column F) :
    ((tables.get t).pointQuotient (trace t) w p).eval (ofBase (wide.element i)) =
      w * c.share tables cell wide trace i (.point t p) := by
  have hvalue : (committed tables).value t i =
      fun k => ((tables.get t).column k).eval (ofBase (wide.element i)) := by
    rw [value_committed]
    exact funext fun k => (h t).value k i hi
  rw [TableCode.eval_pointQuotient (h t) w p
    (Domain.coset_sub_ne_zero hwide (h t).offset i p.row), eval_elementAt h, share, quotient,
    pointQuotient, onRow, hvalue]
  ring

variable (hwide : wide.offset = Fp.generator) (hle : ∀ t, (trace t).size ≤ wide.size)
  (hheights : ∀ t, c.heights.get t = (trace t).size)

include hwide hle hheights

/-- The prover's part of a table combines the shares of its constraints. -/
theorem partAt_committed (weights : TableWeights F) (hi : i < wide.size) (t : Table) :
    c.partAt (tables.get t) (trace t) weights (ofBase (wide.element i)) =
      (List.zipWith (fun w k => w * c.share tables cell wide trace i (.transition t k))
        weights.transition (c.transitions t)).sum +
      (List.zipWith (fun w p => w * c.share tables cell wide trace i (.point t p))
        weights.point (c.points t)).sum := by
  rw [partAt]
  congr 1
  · rw [TableCode.eval_transitionPoly, mul_assoc, ← AddMonoidHom.mulRight_apply, map_list_sum,
      List.map_zipWith]
    simp only [AddMonoidHom.mulRight_apply, share, quotient, onRow, sub_zero,
      transitionQuotient_committed h hle hheights hi, mul_assoc]
  · rw [List.map_zip_eq_zipWith]
    simp only [eval_pointQuotient_committed (c := c) h hwide hi]
    rfl

/-- The prover's codeword. -/
theorem compose_committed (hrandomizers : 0 ≤ c.randomizers) {weights : List F}
    (hweights : (weights.length : Int) = c.numWeights) (masks : List (Polynomial F)) :
    c.compose tables weights (masks.map fun p => (Fourier.values p wide).toArray) wide =
      .ok ((List.range wide.size).map (c.combination tables cell wide trace masks weights)).toArray := by
  rw [compose_eq h hwide hle (weightsOf_eq hrandomizers hweights)]
  refine congrArg (fun l => Except.ok (List.toArray l)) (List.map_congr_left fun i hi => ?_)
  have hpart := fun t => partAt_committed h hwide hle hheights ((c.takeTables weights).1.get t)
    (List.mem_range.mp hi) t
  rw [combination, ← sum_takeTables, List.zipWith_map_right]
  simp only [hpart]

end Extends

/-- Codewords of any values are those of polynomials. -/
theorem exists_polynomials (hoffset : wide.offset ≠ 0) {masks : List (Array F)}
    (hmasks : ∀ m ∈ masks, m.size = wide.size) : ∃ ps : List (Polynomial F),
      masks = ps.map fun p => (Fourier.values p wide).toArray := by
  induction masks with
  | nil => exact ⟨[], rfl⟩
  | cons m masks ih =>
    obtain ⟨hm, hrest⟩ := List.forall_mem_cons.mp hmasks
    obtain ⟨ps, rfl⟩ := ih hrest
    obtain ⟨cs, -, -, hvalues⟩ := Fourier.exists_interpolate hm hoffset
    exists poly cs.toList :: ps
    rw [List.map_cons, hvalues, Array.toArray_toList]

/-- A combination of differences. -/
theorem sum_zipWith_sub {α : Type} (g h : α → F) (ws : List F) (as : List α) (rest : List F) :
    (List.zipWith (· * ·) ws ((as.map fun a => g a - h a) ++ rest)).sum +
        (List.zipWith (· * ·) ws (as.map h)).sum =
      (List.zipWith (· * ·) ws (as.map g ++ rest)).sum := by
  induction as generalizing ws with
  | nil => simp
  | cons a as ih =>
    cases ws with
    | nil => simp
    | cons w ws =>
      simp only [List.map_cons, List.cons_append, List.zipWith_cons_cons, List.sum_cons]
      rw [← ih]
      ring

/-- Where the point constraints hold, nothing is on their rows. -/
theorem sum_onRow_eq_zero (weights : List F)
    (hholds : ∀ t, ∀ p ∈ c.points t, p.eval (cell t (p.row % (trace t).size).toNat) = 0) (i : Nat) :
    (List.zipWith (· * ·) weights (c.constraints.map (onRow cell wide trace i))).sum = 0 := by
  have hzero : ∀ s ∈ c.constraints, onRow cell wide trace i s = 0 := by
    intro s hs
    cases s with
    | transition t k => rfl
    | point t p => rw [onRow, hholds t p (point_mem_constraints.mp hs), zero_mul]
  refine List.sum_eq_zero fun y hy => ?_
  obtain ⟨j, hj, rfl⟩ := List.getElem_of_mem hy
  rw [List.getElem_zipWith, List.getElem_map, hzero _ (List.getElem_mem _), mul_zero]

/-- At every position the verifier's value is the prover's and, weighted, what the point constraints
are on their rows; so both agree where these hold. -/
theorem evaluate_eq_compose_add {a : Assignment F} (h : a.Over c.heights trace) {expansion : Int}
    (hwide : Domain.coset? (c.heights.degreeBound * expansion) = .ok wide)
    (hrandomizers : 0 ≤ c.randomizers) {masks : List (Array F)}
    (hmasks : ∀ m ∈ masks, m.size = wide.size) {weights : List F}
    (hweights : (weights.length : Int) = c.numWeights) :
    ∃ tables codeword, a.code wide = .ok tables ∧
      c.compose tables weights masks wide = .ok codeword ∧ codeword.size = wide.size ∧
      ∀ i < wide.size,
        let f := committed tables
        let value := c.evaluate (ofBase (wide.element i))
          (PerTable.ofFn (f.opening c.heights wide.size i)) (masks.map (·.getD i 0)) weights
        value = .ok (List.zipWith (· * ·) weights
          (c.constraints.map (c.quotient f wide trace i) ++ masks.map (·.getD i 0))).sum ∧
        value = .ok (codeword.getD i 0 + (List.zipWith (· * ·) weights
          (c.constraints.map (onRow (fun t => (a.get t).cell) wide trace i))).sum) ∧
        ((∀ t, ∀ p ∈ c.points t, p.eval ((a.get t).cell (p.row % (trace t).size).toNat) = 0) →
          value = .ok (codeword.getD i 0)) := by
  have hcoset : wide.offset = Fp.generator := (Domain.ofSize?_eq_ok.mp hwide).2.symm
  have hbound := Heights.degreeBound_le_size hwide
  have hle (t : Table) : (trace t).size ≤ wide.size := (h.size_le_degreeBound t).trans hbound
  obtain ⟨tables, hcode, hextends⟩ := h.exists_code hbound
  obtain ⟨ps, rfl⟩ := exists_polynomials (hcoset ▸ Fp.generator_ne_zero) hmasks
  refine ⟨tables, _, hcode,
    compose_committed hextends hcoset hle h.height_eq hrandomizers hweights ps, by simp, ?_⟩
  intro i hi f value
  set cell := fun t => (a.get t).cell
  have hvalues : (ps.map fun p => (Fourier.values p wide).toArray).map (·.getD i 0) =
      ps.map fun p => p.eval (ofBase (wide.element i)) := by
    rw [List.map_map]
    exact List.map_congr_left fun p _ => Fourier.getD_of_values_eq rfl hi 0
  have hvalue : value = .ok (List.zipWith (· * ·) weights
      (c.constraints.map (c.quotient f wide trace i) ++
        ps.map fun p => p.eval (ofBase (wide.element i)))).sum := by
    simp only [value, hvalues]
    exact evaluate_opening hcoset h.offset_eq h.height_eq hrandomizers hweights _ i
  have hsum : value = .ok (c.combination tables cell wide trace ps weights i +
      (List.zipWith (· * ·) weights (c.constraints.map (onRow cell wide trace i))).sum) := by
    rw [hvalue, combination, ← sum_zipWith_sub (h := onRow cell wide trace i)]
    rfl
  have hentry : ((List.range wide.size).map
      (c.combination tables cell wide trace ps weights)).toArray.getD i 0 =
      c.combination tables cell wide trace ps weights i := by
    simp [hi]
  rw [hentry]
  refine ⟨hvalues.symm ▸ hvalue, hsum, fun hholds => ?_⟩
  rw [hsum, sum_onRow_eq_zero weights hholds, add_zero]

end Composition

namespace Skewed

def threes : Assignment Fp :=
  PerTable.ofFn fun t =>
    ⟨.ofColumns ColumnSet.all fun _ => Array.replicate (trace t).size (Fp.ofNat 3),
      .ofColumns ColumnSet.all fun _ => Array.replicate (trace t).size (Fp.ofNat 3)⟩

def masked : Composition Fp := { composition with randomizers := 1 }

theorem threes_over : threes.Over masked.heights trace where
  domain t := Domain.ofSize?_eq_ok.mpr ⟨by cases t <;> decide, by cases t <;> rfl⟩
  columns t := ⟨_, _, PerTable.get_ofFn .., by simp, by simp⟩

end Skewed

namespace Composition

/-- Cells that are all 3 meet no start of a table, and the values differ by that. -/
theorem evaluate_eq_compose_add_of_threes :
    let weights : List Fp := List.replicate Skewed.masked.numWeights.toNat 2
    let masks : List (Array Fp) := [Array.replicate Skewed.wide.size 5]
    ∃ tables codeword, Skewed.threes.code Skewed.wide = .ok tables ∧
      Skewed.masked.compose tables weights masks Skewed.wide = .ok codeword ∧
      codeword.size = Skewed.wide.size ∧ ∀ i < Skewed.wide.size,
        Skewed.masked.evaluate (Skewed.wide.element i)
            (PerTable.ofFn
              ((committed tables).opening Skewed.masked.heights Skewed.wide.size i))
            (masks.map (·.getD i 0)) weights =
          .ok (codeword.getD i 0 + (List.zipWith (· * ·) weights (Skewed.masked.constraints.map
            (onRow (fun t => (Skewed.threes.get t).cell) Skewed.wide Skewed.trace i))).sum) := by
  intro weights masks
  have hweights : (weights.length : Int) = Skewed.masked.numWeights := by
    rw [List.length_replicate]
    rfl
  have hmasks : ∀ m ∈ masks, m.size = Skewed.wide.size := by simp [masks]
  obtain ⟨tables, codeword, hcode, hcompose, hsize, hvalue⟩ :=
    evaluate_eq_compose_add Skewed.threes_over Skewed.coset_eq (by decide) hmasks hweights
  exact ⟨tables, codeword, hcode, hcompose, hsize, fun i hi => (hvalue i hi).2.1⟩

end Composition

end TapeStark
