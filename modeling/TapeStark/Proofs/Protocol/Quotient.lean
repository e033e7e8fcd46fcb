import Mathlib
import TapeStark.Proofs.Air.Columns
import TapeStark.Proofs.Air.Evaluation
import TapeStark.Proofs.Fourier
import TapeStark.Proofs.Protocol.Config
import TapeStark.Proofs.Vanishing
import TapeStark.Protocol.Composition

/-! Extended columns as polynomials, and the quotients of the constraints over them. -/

namespace TapeStark

open ExtensionField

/-! Columns extended to the evaluation domain are the values of the polynomials of least degree
through their cells. -/

theorem ColumnSet.base_ne_nil (t : Table) : (all : List t.Base) ≠ [] := by
  cases t <;> exact List.cons_ne_nil _ _

theorem ColumnSet.ext_ne_nil (t : Table) : (all : List t.Ext) ≠ [] := by
  cases t <;> exact List.cons_ne_nil _ _

/-- Columns given by their coefficients, with their values over `wide`. -/
noncomputable def LowDegree.of {κ F : Type} [ExtensionField F] [LawfulExtension F] (names : List κ)
    (coefficients : κ → Array F) (trace wide : Domain) : LowDegree κ F :=
  ⟨trace, Matrix.ofColumns names coefficients, Matrix.ofColumns names fun c =>
    (Fourier.values (poly (coefficients c).toList) wide).toArray⟩

namespace LowDegree

variable {κ F : Type} [DecidableEq κ] [ExtensionField F] [LawfulExtension F] {names : List κ}
  (coefficients : κ → Array F) (trace wide : Domain) {c : κ}

theorem coefficients_of (h : c ∈ names) :
    (of names coefficients trace wide).coefficients.column c = coefficients c :=
  Matrix.column_ofColumns coefficients h

theorem getD_codewords_of (h : c ∈ names) {i : Nat} (hi : i < wide.size) (x : F) :
    ((of names coefficients trace wide).codewords.column c).getD i x =
      (poly (coefficients c).toList).eval (ofBase (wide.element i)) := by
  rw [of, Matrix.column_ofColumns _ h]
  exact Fourier.getD_of_values_eq rfl hi x

end LowDegree

/-- Extension succeeds on columns of the trace domain's length, and gives for each of them the
polynomial through its entries. -/
theorem Matrix.exists_lowDegree {κ F : Type} [ExtensionField F] [LawfulExtension F]
    {names : List κ} {column : κ → Array F} {trace : Domain} (hone : trace.offset = 1)
    (hnames : names ≠ []) (hsize : ∀ c, (column c).size = trace.size) {wide : Domain}
    (hwide : trace.size ≤ wide.size) :
    ∃ coefficients : κ → Array F,
      (∀ c, (coefficients c).size = trace.size ∧
        Fourier.values (poly (coefficients c).toList) trace = (column c).toList) ∧
      (ofColumns names column).lowDegree wide = .ok (.of names coefficients trace wide) := by
  have hoffset : trace.offset ≠ 0 := hone ▸ one_ne_zero
  choose coefficients hok hlength hvalues using
    fun c => Fourier.exists_interpolate (hsize c) hoffset
  refine ⟨coefficients, fun c => ⟨hlength c, hvalues c⟩, ?_⟩
  have hheight : ((ofColumns names column).height : Int) = (2 ^ trace.logSize : Nat) := by
    obtain ⟨c, rest, rfl⟩ := List.exists_cons_of_ne_nil hnames
    exact congrArg Nat.cast (hsize c)
  have hdomain : Domain.subgroup? (ofColumns names column).height = .ok trace := by
    rw [hheight, Domain.subgroup?_two_pow trace.logSize_le, ← hone]
  have hall : (ofColumns names column).columns.mapM (fun c => Fourier.extend c trace wide) =
      .ok (names.map fun c => (coefficients c,
        (Fourier.values (poly (coefficients c).toList) wide).toArray)) := by
    rw [ofColumns, List.mapM_map]
    exact mapM_eq_map fun c _ => Fourier.extend_eq (hok c) (hlength c ▸ hwide)
  rw [lowDegree, hdomain, ok_bind, hall, ok_bind, List.map_map, List.map_map]
  rfl

namespace TableCode

variable {t : Table} {F : Type} [ExtensionField F] [LawfulExtension F]

noncomputable def column (code : TableCode t F) (c : t.Column) : Polynomial F :=
  poly (code.coefficients c)

/-- The columns are the polynomials through the cells over `trace`, with their values over
`wide`. -/
structure Extends (code : TableCode t F) (trace wide : Domain) (cell : Nat → t.Column → F) :
    Prop where
  offset : trace.offset = 1
  domain : code.base.domain = trace
  length : ∀ c, (code.coefficients c).length = trace.size
  cell : ∀ c, ∀ i < trace.size, (code.column c).eval (ofBase (trace.element i)) = cell i c
  value : ∀ c, ∀ i < wide.size, code.value i c = (code.column c).eval (ofBase (wide.element i))

namespace Extends

variable {code : TableCode t F} {trace wide : Domain} {cell : Nat → t.Column → F}

theorem degree_lt (h : code.Extends trace wide cell) (c : t.Column) :
    (code.column c).degree < trace.size := by
  have := degree_poly_lt (code.coefficients c)
  rwa [h.length] at this

theorem natDegree_le (h : code.Extends trace wide cell) (c : t.Column) :
    (code.column c).natDegree ≤ trace.size - 1 := by
  rw [Polynomial.natDegree_le_iff_coeff_eq_zero]
  intro n hn
  exact (Polynomial.degree_lt_iff_coeff_zero _ _).mp (h.degree_lt c) n (by omega)

end Extends

/-- The columns of a table extend to codewords, whatever they hold. -/
theorem exists_extends {base : t.Base → Array Fp} {ext : t.Ext → Array F} {trace wide : Domain}
    (hone : trace.offset = 1) (hbase : ∀ c, (base c).size = trace.size)
    (hext : ∀ c, (ext c).size = trace.size) (hwide : trace.size ≤ wide.size) :
    ∃ baseCoefficients extCoefficients,
      (Matrix.ofColumns ColumnSet.all base).lowDegree wide =
          .ok (.of ColumnSet.all baseCoefficients trace wide) ∧
        (Matrix.ofColumns ColumnSet.all ext).lowDegree wide =
          .ok (.of ColumnSet.all extCoefficients trace wide) ∧
        (⟨.of ColumnSet.all baseCoefficients trace wide,
          .of ColumnSet.all extCoefficients trace wide⟩ : TableCode t F).Extends trace wide
          (⟨.ofColumns ColumnSet.all base, .ofColumns ColumnSet.all ext⟩ : TableColumns t F).cell := by
  obtain ⟨b, hb, hbaseOk⟩ := Matrix.exists_lowDegree hone
    (ColumnSet.base_ne_nil t) hbase hwide
  obtain ⟨e, he, hextOk⟩ := Matrix.exists_lowDegree hone (ColumnSet.ext_ne_nil t) hext hwide
  refine ⟨b, e, hbaseOk, hextOk, hone, rfl, ?_, ?_, ?_⟩
  · rintro (c | c)
    · rw [coefficients, LowDegree.coefficients_of b trace wide (Table.mem_base c),
        List.length_map, Array.length_toList, (hb c).1]
    · refine (congrArg (·.toList.length)
        (LowDegree.coefficients_of e trace wide (Table.mem_ext c))).trans ?_
      exact (he c).1
  · rintro (c | c) i hi
    · rw [column, coefficients, LowDegree.coefficients_of b trace wide (Table.mem_base c),
        eval_poly_map_ofBase, TableColumns.cell, Matrix.column_ofColumns _ (Table.mem_base c),
        Fourier.getD_of_values_eq (hb c).2 hi]
      rfl
    · rw [TableColumns.cell, Matrix.column_ofColumns _ (Table.mem_ext c),
        Fourier.getD_of_values_eq (he c).2 hi, column]
      exact congrArg (fun cs => (poly cs.toList).eval _)
        (LowDegree.coefficients_of e trace wide (Table.mem_ext c))
  · rintro (c | c) i hi
    · rw [column, coefficients, LowDegree.coefficients_of b trace wide (Table.mem_base c),
        eval_poly_map_ofBase, value,
        LowDegree.getD_codewords_of b trace wide (Table.mem_base c) hi]
      rfl
    · refine (LowDegree.getD_codewords_of e trace wide (Table.mem_ext c) hi 0).trans ?_
      exact congrArg (fun cs => (poly cs.toList).eval _)
        (LowDegree.coefficients_of e trace wide (Table.mem_ext c)).symm

end TableCode

/-! Constraints over extended columns as polynomials, and their quotients: by the rows that a
transition holds on, and by the row of a point constraint. -/

namespace Expr

variable {κ F : Type} [ExtensionField F] [LawfulExtension F]

/-- The expression in columns that are polynomials. -/
noncomputable def toPoly (cur next : κ → Polynomial F) (ch : Challenges F) :
    Expr κ → Polynomial F
  | .cur c => cur c
  | .next c => next c
  | .challenge x => Polynomial.C (ch.get x)
  | .const n => Polynomial.C (ExtensionField.natCast n)
  | .add x y => x.toPoly cur next ch + y.toPoly cur next ch
  | .sub x y => x.toPoly cur next ch - y.toPoly cur next ch
  | .mul x y => x.toPoly cur next ch * y.toPoly cur next ch

variable (cur next : κ → Polynomial F) (ch : Challenges F)

theorem eval_toPoly (e : Expr κ) (x : F) : (e.toPoly cur next ch).eval x =
    e.eval (fun c => (cur c).eval x) (fun c => (next c).eval x) ch := by
  induction e with
  | cur c => rfl
  | next c => rfl
  | challenge x => exact Polynomial.eval_C
  | const n => exact Polynomial.eval_C
  | add a b iha ihb => rw [toPoly, eval, Polynomial.eval_add, iha, ihb]
  | sub a b iha ihb => rw [toPoly, eval, Polynomial.eval_sub, iha, ihb]
  | mul a b iha ihb => rw [toPoly, eval, Polynomial.eval_mul, iha, ihb]

/-- The degree in the cells counts once for every degree of a column. -/
theorem natDegree_toPoly_le {d : Nat} (hcur : ∀ c, (cur c).natDegree ≤ d)
    (hnext : ∀ c, (next c).natDegree ≤ d) (e : Expr κ) :
    (e.toPoly cur next ch).natDegree ≤ e.degree * d := by
  induction e with
  | cur c => rw [toPoly, degree, one_mul]; exact hcur c
  | next c => rw [toPoly, degree, one_mul]; exact hnext c
  | challenge x => simp [toPoly]
  | const n => simp [toPoly]
  | add a b iha ihb =>
    refine (Polynomial.natDegree_add_le _ _).trans (max_le ?_ ?_)
    · exact iha.trans (Nat.mul_le_mul_right d (le_max_left _ _))
    · exact ihb.trans (Nat.mul_le_mul_right d (le_max_right _ _))
  | sub a b iha ihb =>
    refine (Polynomial.natDegree_sub_le _ _).trans (max_le ?_ ?_)
    · exact iha.trans (Nat.mul_le_mul_right d (le_max_left _ _))
    · exact ihb.trans (Nat.mul_le_mul_right d (le_max_right _ _))
  | mul a b iha ihb =>
    rw [toPoly, degree, Nat.add_mul]
    exact Polynomial.natDegree_mul_le.trans (Nat.add_le_add iha ihb)

end Expr

namespace Domain

variable {trace wide : Domain}

theorem element_succ (d : Domain) (i : Nat) : d.element (i + 1) = d.generator * d.element i := by
  rw [element_eq, element_eq, pow_succ]
  ring

/-- The points of the rows are roots of unity. -/
theorem element_pow_size {F : Type} [ExtensionField F] [LawfulExtension F]
    (hone : trace.offset = 1) (i : Nat) : (ofBase (trace.element i) : F) ^ trace.size = 1 := by
  rw [trace.element_eq, hone, one_mul, ← ofBase_pow, pow_right_comm, trace.generator_pow_size,
    one_pow, ofBase_one]

/-- The row behind stands as many points on as the wide domain has for each row. -/
theorem element_stride (h : trace.size ≤ wide.size) (i : Nat) :
    wide.element ((i + wide.size / trace.size) % wide.size) =
      trace.generator * wide.element i := by
  have hle : trace.logSize ≤ wide.logSize := (Nat.pow_le_pow_iff_right (by decide)).mp h
  have hstride : wide.size / trace.size = 2 ^ (wide.logSize - trace.logSize) :=
    Nat.pow_div hle (by decide)
  rw [element_eq, ← pow_eq_pow_mod _ wide.generator_pow_size, pow_add, element_eq, hstride,
    generator, Fp.rootOfUnity_pow hle wide.logSize_le, generator]
  ring

end Domain

namespace TableCode

variable {t : Table} {F : Type} [ExtensionField F] [LawfulExtension F] {code : TableCode t F}
  {trace wide : Domain} {cell : Nat → t.Column → F}

noncomputable def shifted (code : TableCode t F) (trace : Domain) (c : t.Column) : Polynomial F :=
  (code.column c).comp (Polynomial.C (ofBase trace.generator) * Polynomial.X)

omit [LawfulExtension F] in
theorem eval_shifted [LawfulExtension F] (c : t.Column) (x : F) :
    (code.shifted trace c).eval x = (code.column c).eval (ofBase trace.generator * x) := by
  simp [shifted]

theorem natDegree_shifted_le (c : t.Column) :
    (code.shifted trace c).natDegree ≤ (code.column c).natDegree := by
  refine Polynomial.natDegree_comp_le.trans ?_
  have := Polynomial.natDegree_C_mul_le (ofBase trace.generator : F) Polynomial.X
  rw [Polynomial.natDegree_X] at this
  exact (Nat.mul_le_mul_left _ this).trans_eq (mul_one _)

/-- The weighted transition constraints as one polynomial. -/
noncomputable def transitionPoly (code : TableCode t F) (trace : Domain) (ch : Challenges F)
    (weights : List F) (ks : List (Transition t.Column)) : Polynomial F :=
  (List.zipWith (fun w k => Polynomial.C w *
    k.expr.toPoly code.column (code.shifted trace) ch) weights ks).sum

variable (ch : Challenges F) (weights : List F) (ks : List (Transition t.Column))

/-- Its value, from the columns there and at the row behind. -/
theorem eval_transitionPoly (x : F) : (code.transitionPoly trace ch weights ks).eval x =
    (List.zipWith (fun w k => w * k.expr.eval (fun c => (code.column c).eval x)
      (fun c => (code.column c).eval (ofBase trace.generator * x)) ch) weights ks).sum := by
  rw [transitionPoly, ← Polynomial.coe_evalRingHom, map_list_sum, List.map_zipWith]
  simp only [Polynomial.coe_evalRingHom, Polynomial.eval_mul, Polynomial.eval_C,
    Expr.eval_toPoly, eval_shifted]

theorem natDegree_transitionPoly_le (h : code.Extends trace wide cell) {d : Nat}
    (hd : ∀ k ∈ ks, k.expr.degree ≤ d) :
    (code.transitionPoly trace ch weights ks).natDegree ≤ d * (trace.size - 1) := by
  rw [Polynomial.natDegree_le_iff_degree_le, ← Polynomial.mem_degreeLE, transitionPoly]
  refine list_sum_mem fun p hp => ?_
  obtain ⟨i, hi, rfl⟩ := List.getElem_of_mem hp
  rw [List.getElem_zipWith, Polynomial.mem_degreeLE, ← Polynomial.natDegree_le_iff_degree_le]
  refine (Polynomial.natDegree_C_mul_le _ _).trans ?_
  refine (Expr.natDegree_toPoly_le _ _ ch h.natDegree_le
    (fun c => (natDegree_shifted_le c).trans (h.natDegree_le c)) _).trans ?_
  exact Nat.mul_le_mul_right _ (hd _ (List.getElem_mem _))

/-- At the point of a row the columns have its cells. -/
theorem Extends.eval_row (h : code.Extends trace wide cell) {i : Nat} (hi : i < trace.size) :
    (fun c => (code.column c).eval (ofBase (trace.element i))) = cell i :=
  funext fun c => h.cell c i hi

theorem Extends.eval_next_row (h : code.Extends trace wide cell) {i : Nat}
    (hi : i + 1 < trace.size) :
    (fun c => (code.column c).eval (ofBase trace.generator * ofBase (trace.element i))) =
      cell (i + 1) := by
  rw [← ofBase_mul, ← trace.element_succ]
  exact h.eval_row hi

/-- Where every constraint holds the sum is zero. -/
theorem eval_transitionPoly_eq_zero (h : code.Extends trace wide cell)
    (hholds : ∀ k ∈ ks, k.Holds trace.size cell ch) {i : Nat} (hi : i + 1 < trace.size) :
    (code.transitionPoly trace ch weights ks).eval (ofBase (trace.element i)) = 0 := by
  rw [eval_transitionPoly, h.eval_row (Nat.lt_of_succ_lt hi), h.eval_next_row hi]
  refine List.sum_eq_zero fun y hy => ?_
  obtain ⟨j, hj, rfl⟩ := List.getElem_of_mem hy
  rw [List.getElem_zipWith, hholds _ (List.getElem_mem _) i hi, mul_zero]

def lastPoint (trace : Domain) : F := ofBase (trace.element (trace.size - 1))

/-- Constraints that hold have a quotient by the rows that they hold on. -/
theorem exists_transitionQuotient (h : code.Extends trace wide cell)
    (hholds : ∀ k ∈ ks, k.Holds trace.size cell ch) {d bound : Nat}
    (hd : ∀ k ∈ ks, k.expr.degree ≤ d) (hbound : d * (trace.size - 1) + 1 < bound + trace.size) :
    ∃ q : Polynomial F, q.degree < bound ∧ q * (Polynomial.X ^ trace.size - 1) =
      code.transitionPoly trace ch weights ks * (Polynomial.X - Polynomial.C (lastPoint trace)) := by
  set p := code.transitionPoly trace ch weights ks *
    (Polynomial.X - Polynomial.C (lastPoint trace)) with hp
  have hmonic : (Polynomial.X ^ trace.size - 1 : Polynomial F).Monic :=
    Polynomial.monic_X_pow_sub_C 1 trace.size_pos.ne'
  have hdegree : (Polynomial.X ^ trace.size - 1 : Polynomial F).degree = trace.size :=
    Polynomial.degree_X_pow_sub_C trace.size_pos 1
  have hroot (i : Nat) (hi : i < trace.size) : p.eval (ofBase (trace.element i)) = 0 := by
    rcases Nat.lt_or_ge (i + 1) trace.size with hlt | hge
    · rw [hp, Polynomial.eval_mul, eval_transitionPoly_eq_zero ch weights ks h hholds hlt, zero_mul]
    · obtain rfl : i = trace.size - 1 := by omega
      rw [hp, Polynomial.eval_mul, lastPoint]
      simp
  have hpow (i : Nat) : (ofBase (trace.element i) : F) ^ trace.size = 1 :=
    Domain.element_pow_size h.offset i
  -- The remainder has the roots of `p`, as many as the rows, but a smaller degree.
  have hmod : p %ₘ (Polynomial.X ^ trace.size - 1) = 0 := by
    refine trace.eq_of_values_eq (h.offset ▸ one_ne_zero) ?_ ?_ ?_
    · exact (Polynomial.degree_modByMonic_lt p hmonic).trans_eq hdegree
    · exact Polynomial.degree_zero.trans_lt (WithBot.bot_lt_coe _)
    · refine List.map_congr_left fun i hi => ?_
      have := congrArg (fun r => r.eval (ofBase (trace.element i)))
        (Polynomial.modByMonic_add_div p (Polynomial.X ^ trace.size - 1))
      simpa [hroot i (List.mem_range.mp hi), hpow i] using this
  have hdvd : (p /ₘ (Polynomial.X ^ trace.size - 1)) * (Polynomial.X ^ trace.size - 1) = p := by
    have := Polynomial.modByMonic_add_div p (Polynomial.X ^ trace.size - 1)
    rw [hmod, zero_add, mul_comm] at this
    exact this
  refine ⟨p /ₘ (Polynomial.X ^ trace.size - 1), ?_, hdvd⟩
  by_cases hq : p /ₘ (Polynomial.X ^ trace.size - 1) = 0
  · rw [hq]
    exact Polynomial.degree_zero.trans_lt (WithBot.bot_lt_coe _)
  · rw [← Polynomial.natDegree_lt_iff_degree_lt hq]
    have hsum := congrArg Polynomial.natDegree hdvd
    rw [Polynomial.natDegree_mul hq hmonic.ne_zero,
      Polynomial.natDegree_eq_of_degree_eq_some hdegree] at hsum
    have hle : p.natDegree ≤ d * (trace.size - 1) + 1 :=
      Polynomial.natDegree_mul_le.trans (Nat.add_le_add
        (natDegree_transitionPoly_le ch weights ks h hd) (Polynomial.natDegree_X_sub_C_le _))
    omega

end TableCode

theorem foldl_add_eq_sum {α F : Type} [AddCommMonoid F] (f : α → F) (xs : List α) (acc : F) :
    xs.foldl (fun acc x => acc + f x) acc = acc + (xs.map f).sum := by
  induction xs generalizing acc with
  | nil => simp
  | cons x xs ih => rw [List.foldl_cons, ih, List.map_cons, List.sum_cons, add_assoc]

namespace PointConstraint

variable {κ F : Type} [ExtensionField F] [LawfulExtension F] (p : PointConstraint κ F)

/-- The weighted columns, as polynomials. -/
noncomputable def toPoly (column : κ → Polynomial F) : Polynomial F :=
  (p.terms.map fun term => Polynomial.C term.2 * column term.1).sum

theorem eval_eq_sum (values : κ → F) :
    p.eval values = (p.terms.map fun term => term.2 * values term.1).sum - p.value := by
  rw [sub_eq_neg_add]
  exact foldl_add_eq_sum (fun term : κ × F => term.2 * values term.1) p.terms (-p.value)

theorem eval_eq (column : κ → Polynomial F) (x : F) :
    p.eval (fun c => (column c).eval x) = (p.toPoly column).eval x - p.value := by
  rw [eval_eq_sum, toPoly, ← Polynomial.coe_evalRingHom, map_list_sum, List.map_map]
  simp [Function.comp_def]

end PointConstraint

namespace TableCode

variable {t : Table} {F : Type} [ExtensionField F] [LawfulExtension F] {code : TableCode t F}
  {trace wide : Domain} {cell : Nat → t.Column → F}

theorem poly_pointPolynomial (h : code.Extends trace wide cell) (w : F)
    (p : PointConstraint t.Column F) :
    (Composition.pointPolynomial code w p).length = trace.size ∧
      poly (Composition.pointPolynomial code w p) = Polynomial.C w * p.toPoly code.column := by
  have fold (terms : List (t.Column × F)) (acc : List F) (hacc : acc.length = trace.size) :
      (terms.foldl (fun acc term => List.zipWith (· + ·) acc
          ((code.coefficients term.1).map (w * term.2 * ·))) acc).length = trace.size ∧
        poly (terms.foldl (fun acc term => List.zipWith (· + ·) acc
            ((code.coefficients term.1).map (w * term.2 * ·))) acc) =
          poly acc + Polynomial.C w *
            (terms.map fun term => Polynomial.C term.2 * code.column term.1).sum := by
    induction terms generalizing acc with
    | nil => simp [hacc]
    | cons term terms ih =>
      have hlen : acc.length = ((code.coefficients term.1).map (w * term.2 * ·)).length := by
        rw [List.length_map, h.length, hacc]
      rw [List.foldl_cons]
      obtain ⟨hlength, hpoly⟩ := ih (List.zipWith (· + ·) acc _)
        (List.length_zipWith.trans (by rw [← hlen, hacc, min_self]))
      refine ⟨hlength, hpoly.trans ?_⟩
      rw [poly_zipWith_add hlen, poly_map_mul, List.map_cons, List.sum_cons, Polynomial.C_mul,
        column]
      ring
  have hstart := fold p.terms (List.replicate code.base.domain.size 0)
    (by rw [List.length_replicate, h.domain])
  rw [poly_replicate_zero, zero_add] at hstart
  exact hstart

noncomputable def pointQuotient (code : TableCode t F) (trace : Domain) (w : F)
    (p : PointConstraint t.Column F) : Polynomial F :=
  poly (Polynomial.quotient (Composition.pointPolynomial code w p) (ofBase (trace.elementAt p.row)))

theorem degree_pointQuotient_lt (h : code.Extends trace wide cell) (w : F)
    (p : PointConstraint t.Column F) : (code.pointQuotient trace w p).degree < trace.size := by
  have := degree_poly_lt
    (Polynomial.quotient (Composition.pointPolynomial code w p) (ofBase (trace.elementAt p.row)))
  rwa [length_quotient, (poly_pointPolynomial h w p).1] at this

section Rows

/-- The polynomials of some rows, each divided by its row and added up. -/
noncomputable def rowQuotients (trace : Domain) (rows : List (Int × List F)) : Polynomial F :=
  (rows.map fun r => poly (Polynomial.quotient r.2 (ofBase (trace.elementAt r.1)))).sum

/-- A polynomial that joins another in its row is divided along with it. -/
theorem rowQuotients_addToRow (trace : Domain) {n : Nat} {p : List F} (hp : p.length = n) (row : Int)
    {rows : List (Int × List F)} (hrows : ∀ r ∈ rows, r.2.length = n) :
    (∀ r ∈ Composition.addToRow row p rows, r.2.length = n) ∧
      rowQuotients trace (Composition.addToRow row p rows) = rowQuotients trace rows +
        poly (Polynomial.quotient p (ofBase (trace.elementAt row))) := by
  induction rows with
  | nil => simp [Composition.addToRow, rowQuotients, hp]
  | cons r rest ih =>
    obtain ⟨hr, hrest⟩ := List.forall_mem_cons.mp hrows
    obtain ⟨hlength, hsum⟩ := ih hrest
    obtain ⟨first, q⟩ := r
    unfold Composition.addToRow
    split
    · rename_i hrow
      subst hrow
      constructor
      · refine List.forall_mem_cons.mpr ⟨?_, hrest⟩
        rw [List.length_zipWith, show q.length = n from hr, hp, min_self]
      · simp only [rowQuotients, List.map_cons, List.sum_cons]
        rw [poly_quotient_zipWith_add (hr.trans hp.symm)]
        ring
    · constructor
      · exact List.forall_mem_cons.mpr ⟨hr, hlength⟩
      · simp only [rowQuotients, List.map_cons, List.sum_cons] at hsum ⊢
        rw [hsum, add_assoc]

/-- Grouped by their rows, the constraints have the sum of their own quotients. -/
theorem rowQuotients_rowPolynomials (h : code.Extends trace wide cell)
    (ks : List (F × PointConstraint t.Column F)) :
    (∀ r ∈ Composition.rowPolynomials code ks, r.2.length = trace.size) ∧
      rowQuotients trace (Composition.rowPolynomials code ks) =
        (ks.map fun k => code.pointQuotient trace k.1 k.2).sum := by
  have fold (rows : List (Int × List F)) (hrows : ∀ r ∈ rows, r.2.length = trace.size) :
      (∀ r ∈ ks.foldl (fun rows k => Composition.addToRow k.2.row
          (Composition.pointPolynomial code k.1 k.2) rows) rows, r.2.length = trace.size) ∧
        rowQuotients trace (ks.foldl (fun rows k => Composition.addToRow k.2.row
            (Composition.pointPolynomial code k.1 k.2) rows) rows) =
          rowQuotients trace rows + (ks.map fun k => code.pointQuotient trace k.1 k.2).sum := by
    induction ks generalizing rows with
    | nil => simpa using hrows
    | cons k ks ih =>
      obtain ⟨hlength, hsum⟩ := rowQuotients_addToRow trace
        (poly_pointPolynomial h k.1 k.2).1 k.2.row hrows
      obtain ⟨hall, htotal⟩ := ih _ hlength
      refine ⟨hall, htotal.trans ?_⟩
      rw [hsum, List.map_cons, List.sum_cons, add_assoc, pointQuotient]
  obtain ⟨hlength, hsum⟩ := fold [] (fun r hr => absurd hr List.not_mem_nil)
  refine ⟨hlength, hsum.trans ?_⟩
  simp [rowQuotients]

end Rows

/-- Away from the row, the quotient of what the constraint is there less what it is on the row. -/
theorem eval_pointQuotient (h : code.Extends trace wide cell) (w : F)
    (p : PointConstraint t.Column F) {x : F} (hx : x - ofBase (trace.elementAt p.row) ≠ 0) :
    (code.pointQuotient trace w p).eval x =
      w * (p.eval (fun c => (code.column c).eval x) -
        p.eval (fun c => (code.column c).eval (ofBase (trace.elementAt p.row)))) *
        (x - ofBase (trace.elementAt p.row))⁻¹ := by
  have hmul := congrArg (fun q => q.eval x) (mul_poly_quotient
    (Composition.pointPolynomial code w p) (ofBase (trace.elementAt p.row)))
  simp only [(poly_pointPolynomial h w p).2, Polynomial.eval_mul, Polynomial.eval_sub,
    Polynomial.eval_X, Polynomial.eval_C] at hmul
  rw [eq_mul_inv_iff_mul_eq₀ hx, mul_comm, p.eval_eq, p.eval_eq, pointQuotient, hmul]
  ring

/-- The row of a point constraint is the cell that it is about. -/
theorem elementAt_of_position? {i : Nat} {row : Int} (h : position? trace.size row = some i) :
    trace.elementAt row = trace.element i := by
  have hmod : (row % trace.size).toNat = i := by
    simp only [position?] at h
    split at h
    · rename_i hneg
      split at h
      · rename_i hbounds
        rw [← Int.add_emod_right, Int.emod_eq_of_lt hbounds.1 hbounds.2]
        exact Option.some.inj h
      · cases h
    · split at h
      · rename_i hbounds
        rw [Int.emod_eq_of_lt hbounds.1 hbounds.2]
        exact Option.some.inj h
      · cases h
  rw [Domain.elementAt, hmod]

end TableCode

end TapeStark
