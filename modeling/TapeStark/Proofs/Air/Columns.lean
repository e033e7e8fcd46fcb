import Mathlib
import TapeStark.Air.Witness
import TapeStark.Proofs.Basic
import TapeStark.Proofs.Field.Lawful

/-! Constraints on the columns of a table, and the entries of its extension columns. -/

namespace TapeStark

/-! The cells of a row as values of the columns, and how constraints evaluate on them. -/

section Cells

open ExtensionField

variable {F : Type} [ExtensionField F]

def Table.Row.cells {t : Table} (r : t.Row) (e : t.Ext → F) : t.Column → F
  | .base c => ofBase (r.get c)
  | .ext c => e c

namespace Expr

variable {κ : Type} {cur next : κ → F} {ch : Challenges F}

@[simp] theorem eval_add (x y : Expr κ) :
    (x + y).eval cur next ch = x.eval cur next ch + y.eval cur next ch := rfl

@[simp] theorem eval_sub (x y : Expr κ) :
    (x - y).eval cur next ch = x.eval cur next ch - y.eval cur next ch := rfl

@[simp] theorem eval_mul (x y : Expr κ) :
    (x * y).eval cur next ch = x.eval cur next ch * y.eval cur next ch := rfl

@[simp] theorem eval_cur (c : κ) : (Expr.cur c).eval cur next ch = cur c := rfl

@[simp] theorem eval_next (c : κ) : (Expr.next c).eval cur next ch = next c := rfl

@[simp] theorem eval_challenge (x : Challenge) :
    (Expr.challenge x : Expr κ).eval cur next ch = ch.get x := rfl

variable [LawfulExtension F]

@[simp] theorem eval_const (n : Nat) : (Expr.const n : Expr κ).eval cur next ch = n :=
  natCast_eq n

@[simp] theorem eval_zero : (0 : Expr κ).eval cur next ch = 0 :=
  (natCast_eq 0).trans Nat.cast_zero

@[simp] theorem eval_one : (1 : Expr κ).eval cur next ch = 1 :=
  (natCast_eq 1).trans Nat.cast_one

@[simp] theorem eval_two : (2 : Expr κ).eval cur next ch = 2 :=
  (natCast_eq 2).trans Nat.cast_two

end Expr

section Factors

variable [LawfulExtension F] {κ : Type} {cur next : κ → F} {ch : Challenges F}

theorem eval_instructionFactor {x y z : Expr κ} (row : InstructionRow)
    (hx : x.eval cur next ch = ofBase row.ip) (hy : y.eval cur next ch = ofBase row.ci)
    (hz : z.eval cur next ch = ofBase row.ni) :
    (Expr.instructionFactor x y z).eval cur next ch = ch.instructionFactor row := by
  simp only [Expr.instructionFactor, Expr.eval_sub, Expr.eval_mul, Expr.eval_challenge, hx, hy, hz,
    Challenges.get, Challenges.instructionFactor, Challenges.compress]
  ring

omit [LawfulExtension F] in
theorem eval_memoryFactor {x y z : Expr κ} (row : MemoryRow)
    (hx : x.eval cur next ch = ofBase row.clk) (hy : y.eval cur next ch = ofBase row.mp)
    (hz : z.eval cur next ch = ofBase row.mv) :
    (Expr.memoryFactor x y z).eval cur next ch = ch.memoryFactor row := by
  simp only [Expr.memoryFactor, Expr.eval_sub, Expr.eval_mul, Expr.eval_challenge, hx, hy, hz,
    Challenges.get, Challenges.memoryFactor]

end Factors

end Cells

/-! The columns of a table over its rows, and what it means that they satisfy a constraint. -/

section Columns

open ExtensionField

theorem lookup_zip_map {κ α : Type} [DecidableEq κ] {l : List κ} (f : κ → α) {c : κ} (h : c ∈ l) :
    (l.zip (l.map f)).lookup c = some (f c) := by
  induction l with
  | nil => simp at h
  | cons k l ih =>
    rw [List.map_cons, List.zip_cons_cons, List.lookup_cons]
    by_cases hk : c = k
    · simp [hk]
    · have : (c == k) = false := by simpa using hk
      rw [this]
      exact ih ((List.mem_cons.mp h).resolve_left hk)

def Matrix.ofColumns {κ F : Type} (names : List κ) (column : κ → Array F) : Matrix κ F :=
  ⟨names, names.map column⟩

theorem Matrix.column_ofColumns {κ F : Type} [DecidableEq κ] {names : List κ} (column : κ → Array F)
    {c : κ} (h : c ∈ names) : (Matrix.ofColumns names column).column c = column c := by
  rw [Matrix.column, Matrix.ofColumns, lookup_zip_map column h, Option.getD_some]

namespace Table

theorem column_baseMatrix {t : Table} (rows : List t.Row) (c : t.Base) :
    (t.baseMatrix rows).column c = (rows.map fun r => r.get c).toArray :=
  Matrix.column_ofColumns (F := Fp) (fun c => (rows.map fun r : t.Row => r.get c).toArray)
    (mem_base (t := t) c)

theorem height_baseMatrix {t : Table} (rows : List t.Row) :
    (t.baseMatrix rows).height = rows.length := by
  cases t <;> simp [Matrix.height, baseMatrix, ColumnSet.all]

end Table

variable {F : Type} [ExtensionField F]

def Transition.Holds {κ : Type} (c : Transition κ) (height : Nat) (cell : Nat → κ → F)
    (ch : Challenges F) : Prop :=
  ∀ i, i + 1 < height → c.expr.eval (cell i) (cell (i + 1)) ch = 0

/-- The relation holds on its row, which exists. -/
def PointConstraint.Holds {κ : Type} (p : PointConstraint κ F) (height : Nat)
    (cell : Nat → κ → F) : Prop :=
  ∃ i, position? height p.row = some i ∧ p.eval (cell i) = 0

theorem PointConstraint.holds_iff {κ : Type} {p : PointConstraint κ F} {height : Nat}
    {cell : Nat → κ → F} {k : Nat} (hrow : p.row = k) (hk : k < height) :
    p.Holds height cell ↔ p.eval (cell k) = 0 := by
  rw [Holds, hrow, position?_natCast hk]
  simp

def Table.columns (ch : Challenges F) (t : Table) (rows : List t.Row) : TableColumns t F :=
  ⟨t.baseMatrix rows, Matrix.ofColumns ColumnSet.all fun c => (t.extension ch rows c).toArray⟩

theorem Table.column_extension (ch : Challenges F) {t : Table} (rows : List t.Row) (c : t.Ext)
    (i : Nat) : ((t.columns ch rows).extension.column c).getD i 0 = (t.extension ch rows c).getD i 0 := by
  rw [columns, Matrix.column_ofColumns (F := F) (fun c => (t.extension ch rows c).toArray)
    (mem_ext (t := t) c)]
  simp

namespace TableColumns

variable {t : Table}

omit [ExtensionField F] in
theorem height_of_base {m : TableColumns t F} {rows : List t.Row} (h : m.base = t.baseMatrix rows) :
    m.height = rows.length := by
  rw [height, h, Table.height_baseMatrix]

/-- The cells at a row are those of the row with the entries of the extension columns. -/
theorem cell_of_base {m : TableColumns t F} {rows : List t.Row} (h : m.base = t.baseMatrix rows)
    (i : Nat) (hi : i < rows.length) :
    m.cell i = Table.Row.cells rows[i] fun c => (m.extension.column c).getD i 0 := by
  funext c
  cases c with
  | ext c => rfl
  | base c =>
    rw [cell, h, Table.column_baseMatrix]
    simp [Table.Row.cells, hi]

def SatisfiesTransition (m : TableColumns t F) (ch : Challenges F) (c : Transition t.Column) : Prop :=
  c.Holds m.height m.cell ch

def SatisfiesPoint (m : TableColumns t F) (p : PointConstraint t.Column F) : Prop :=
  p.Holds m.height m.cell

end TableColumns

/-- The cells of a row of the columns. -/
theorem Table.cell_columns (ch : Challenges F) {t : Table} (rows : List t.Row) {i : Nat}
    (hi : i < rows.length) : (t.columns ch rows).cell i =
      Table.Row.cells rows[i] fun c => (t.extension ch rows c).getD i 0 := by
  rw [TableColumns.cell_of_base rfl i hi]
  congr 1
  funext c
  exact Table.column_extension ch rows c i

/-- The computed columns satisfy a transition where any two consecutive rows do. -/
theorem Table.columns_satisfiesTransition_iff (ch : Challenges F) {t : Table} {rows : List t.Row}
    {c : Transition t.Column} : (t.columns ch rows).SatisfiesTransition ch c ↔
      ∀ i (_ : i < rows.length) (_ : i + 1 < rows.length),
        c.expr.eval (Table.Row.cells rows[i] fun x => (t.extension ch rows x).getD i 0)
          (Table.Row.cells rows[i + 1] fun x => (t.extension ch rows x).getD (i + 1) 0) ch = 0 := by
  rw [TableColumns.SatisfiesTransition, Transition.Holds, TableColumns.height_of_base rfl]
  constructor
  · intro h i hi hnext
    rw [← cell_columns ch rows hi, ← cell_columns ch rows hnext]
    exact h i hnext
  · intro h i hnext
    rw [cell_columns ch rows (Nat.lt_of_succ_lt hnext), cell_columns ch rows hnext]
    exact h i (Nat.lt_of_succ_lt hnext) hnext

/-- They satisfy a point constraint where its row does. -/
theorem Table.columns_satisfiesPoint_iff (ch : Challenges F) {t : Table} {rows : List t.Row}
    {p : PointConstraint t.Column F} {k : Nat} (hrow : p.row = k) (hk : k < rows.length) :
    (t.columns ch rows).SatisfiesPoint p ↔
      p.eval (Table.Row.cells rows[k] fun x => (t.extension ch rows x).getD k 0) = 0 := by
  rw [TableColumns.SatisfiesPoint, PointConstraint.holds_iff hrow
    (by rwa [TableColumns.height_of_base rfl]), cell_columns ch rows hk]

/-- Once the processor has a row, there are extension columns. -/
theorem Trace.extensionMatrices_eq (ch : Challenges F) {trace : Trace} (h : trace.processor ≠ []) :
    trace.extensionMatrices ch =
      .ok (PerTable.ofFn fun t => (t.columns ch (trace.rows t)).extension) := by
  have hpos : ¬ trace.processor.length = 0 := by simpa using h
  have ext (t : Table) : t.extensionMatrix ch (trace.rows t) =
      .ok (t.columns ch (trace.rows t)).extension := by
    refine if_neg ?_
    rintro ⟨rfl, h0⟩
    exact hpos h0
  simp only [extensionMatrices, PerTable.ofFnM, ext, ok_bind, pure_eq_ok]
  rfl

namespace Assignment

theorem ofTrace_eq (ch : Challenges F) {trace : Trace} (h : trace.processor ≠ []) :
    ofTrace ch trace = .ok (PerTable.ofFn fun t => t.columns ch (trace.rows t)) := by
  rw [ofTrace, Trace.extensionMatrices_eq ch h, ok_bind, pure_eq_ok]
  rfl

end Assignment

end Columns

/-! The entries of an extension column, each from the one before it. -/

section Scan

variable {F ρ : Type} (next : F → ρ → ρ → F)

@[simp] theorem length_scanRows (acc : F) (rows : List ρ) :
    (scanRows next acc rows).length = rows.length := by
  induction rows generalizing acc with
  | nil => rfl
  | cons r rest ih =>
    cases rest with
    | nil => rfl
    | cons r' rest => rw [scanRows, List.length_cons, ih, List.length_cons (a := r)]

theorem getD_scanRows_zero (acc d : F) {rows : List ρ} (h : rows ≠ []) :
    (scanRows next acc rows).getD 0 d = acc := by
  match rows with
  | [r] => rfl
  | r :: r' :: rest => rfl

theorem getD_scanRows_succ (acc d : F) (rows : List ρ) (k : Nat) (hk : k + 1 < rows.length) :
    (scanRows next acc rows).getD (k + 1) d =
      next ((scanRows next acc rows).getD k d) rows[k] rows[k + 1] := by
  induction rows generalizing acc k with
  | nil => simp at hk
  | cons r rest ih =>
    cases rest with
    | nil => simp at hk
    | cons r' rest =>
      cases k with
      | zero =>
        rw [scanRows, List.getD_cons_succ, List.getD_cons_zero,
          getD_scanRows_zero next _ _ (List.cons_ne_nil _ _)]
        rfl
      | succ k =>
        rw [scanRows, List.getD_cons_succ, List.getD_cons_succ, ih _ _ (by simpa using hk)]
        rfl

/-- A sequence that starts and goes on as the scan does gives its entries. -/
theorem getD_scanRows {A : Nat → F} {rows : List ρ} (d : F)
    (step : ∀ k (_ : k + 1 < rows.length), A (k + 1) = next (A k) rows[k] rows[k + 1])
    (k : Nat) (hk : k < rows.length) : (scanRows next (A 0) rows).getD k d = A k := by
  induction k with
  | zero => exact getD_scanRows_zero next _ _ (List.length_pos_iff.mp hk)
  | succ k ih => rw [getD_scanRows_succ next _ _ _ _ hk, ih (by omega), ← step k hk]

/-- A sequence gives the entries of the scan exactly if it starts and goes on as the scan does. -/
theorem forall_eq_getD_scanRows_iff (acc d : F) {rows : List ρ} (h : 0 < rows.length)
    (A : Nat → F) : (∀ k < rows.length, A k = (scanRows next acc rows).getD k d) ↔
      A 0 = acc ∧ ∀ k (_ : k + 1 < rows.length), A (k + 1) = next (A k) rows[k] rows[k + 1] := by
  constructor
  · intro hall
    refine ⟨?_, fun k hk => ?_⟩
    · rw [hall 0 h, getD_scanRows_zero next acc d (List.length_pos_iff.mp h)]
    · rw [hall (k + 1) hk, hall k (by omega), getD_scanRows_succ next acc d rows k hk]
  · rintro ⟨rfl, step⟩ k hk
    exact (getD_scanRows next d step k hk).symm

/-- A running product over all rows ends on the product of their factors. -/
theorem getLastD_scanRows_mul [Monoid F] (factor : ρ → F) (acc d : F) (r : ρ) (rest : List ρ) :
    (scanRows (fun acc _ r' => acc * factor r') acc (r :: rest)).getLastD d =
      acc * (rest.map factor).prod := by
  induction rest generalizing acc d r with
  | nil => simp [scanRows]
  | cons r' rest ih =>
    rw [scanRows, List.getLastD_cons, ih, List.map_cons, List.prod_cons, mul_assoc]

section Product

variable {F ρ : Type} [ExtensionField F] (factor : ρ → F)

theorem getLastD_eq_getD {α : Type} {l : List α} {n : Nat} (h : l.length = n) (d : α) :
    l.getLastD d = l.getD (n - 1) d := by
  rw [List.getLastD_eq_getLast?, List.getLast?_eq_getElem?, h, List.getD_eq_getElem?_getD]

/-- A running product ends on the product of all factors. -/
theorem getD_product_last [LawfulExtension F] (rows : List ρ) (hne : rows ≠ []) :
    (Witness.product factor rows).getD (rows.length - 1) 0 = (rows.map factor).prod := by
  match rows, hne with
  | r :: rest, _ =>
    rw [Witness.product, ← getLastD_eq_getD (length_scanRows _ _ _), getLastD_scanRows_mul,
      List.map_cons, List.prod_cons]

end Product

end Scan

end TapeStark
