import Mathlib
import TapeStark.Proofs.Air.Columns

/-! The memory constraints on two rows, and on a list of rows. -/

namespace TapeStark.Air.Memory

/-! What the memory constraints say about two consecutive rows, apart from the running product. -/

section Memory

open ExtensionField

/-- The relations between two rows that do not concern the running product. -/
def rowConstraints : List Cell := [pointerStep, freshCell, valueConsistency]

/-- The row `b` may stand behind the row `a`. -/
def Follows (a b : MemoryRow) : Prop :=
  ∀ c ∈ rowConstraints, ∀ ch : Challenges Fp,
    c.eval (Table.Row.cells (t := .memory) a 0) (Table.Row.cells (t := .memory) b 0) ch = 0

def Linked (rows : List MemoryRow) : Prop :=
  ∀ i (h : i + 1 < rows.length), Follows rows[i] rows[i + 1]

section Eval

variable {F : Type} [ExtensionField F] [LawfulExtension F] (a b : MemoryRow)
  (e e' : MemoryExt → F) (ch : Challenges F)

theorem eval_pointerStep :
    pointerStep.eval (Table.Row.cells (t := .memory) a e) (Table.Row.cells (t := .memory) b e') ch =
      ofBase ((b.mp - a.mp) * (b.mp - a.mp - 1)) := by
  simp [pointerStep, step, Expr.base, Expr.base', Table.Row.cells, Table.Row.get, ofBase_mul,
    ofBase_sub, ofBase_one]

theorem eval_freshCell :
    freshCell.eval (Table.Row.cells (t := .memory) a e) (Table.Row.cells (t := .memory) b e') ch =
      ofBase ((b.mp - a.mp) * b.mv) := by
  simp [freshCell, step, Expr.base, Expr.base', Table.Row.cells, Table.Row.get, ofBase_mul,
    ofBase_sub]

theorem eval_valueConsistency :
    valueConsistency.eval (Table.Row.cells (t := .memory) a e)
        (Table.Row.cells (t := .memory) b e') ch =
      ofBase ((b.mp - a.mp - 1) * (b.mv - a.mv) * (b.clk - a.clk - 1)) := by
  simp [valueConsistency, step, valueChange, clockGap, Expr.base, Expr.base', Table.Row.cells,
    Table.Row.get, ofBase_mul, ofBase_sub, ofBase_one]

end Eval

/-- A row goes on in its cell, keeping the value unless the clock goes on too, or it opens the
next cell with the value zero. -/
theorem follows_iff (a b : MemoryRow) : Follows a b ↔
    (b.mp = a.mp ∧ (b.mv = a.mv ∨ b.clk = a.clk + 1)) ∨ (b.mp = a.mp + 1 ∧ b.mv = 0) := by
  have base (x : Fp) : (ofBase x : Fp) = x := rfl
  have nontrivial : Nonempty (Challenges Fp) := ⟨.ofVector (.replicate 11 0)⟩
  simp only [Follows, rowConstraints, List.forall_mem_cons, List.not_mem_nil, false_implies,
    implies_true, and_true, eval_pointerStep a b, eval_freshCell a b, eval_valueConsistency a b,
    base, forall_const, mul_eq_zero]
  constructor
  · rintro ⟨hstep | hstep, hfresh, hvalue⟩
    · refine .inl ⟨sub_eq_zero.mp hstep, ?_⟩
      rw [hstep] at hvalue
      rcases hvalue with (h | h) | h
      · simp at h
      · exact .inl (sub_eq_zero.mp h)
      · exact .inr (by linear_combination h)
    · refine .inr ⟨by linear_combination hstep, ?_⟩
      rw [sub_eq_zero.mp hstep] at hfresh
      simpa using hfresh
  · rintro (⟨hmp, hv | hc⟩ | ⟨hmp, hv⟩)
    · simp [hmp, hv]
    · simp [hmp, hc]
    · simp [hmp, hv]

instance (a b : MemoryRow) : Decidable (Follows a b) := decidable_of_iff _ (follows_iff a b).symm

instance (rows : List MemoryRow) : Decidable (Linked rows) :=
  decidable_of_iff (∀ i (_ : i < rows.length - 1), Follows rows[i] rows[i + 1])
    ⟨fun h i hi => h i (by omega), fun h i hi => h i (by omega)⟩

end Memory

/-! What a list of memory rows that satisfies the row relations says about the order in time. The
relations leave the order inside a cell open: they speak for the run only once every cell lists its
rows by the clock. -/

/-- The first visit of a cell finds zero, and a visit after visits elsewhere finds the value of
the latest visit before. -/
def Consistent (rows : List MemoryRow) : Prop :=
  (∀ i (_ : i < rows.length),
    (∀ j (_ : j < i), rows[j].mp ≠ rows[i].mp) → rows[i].mv = 0) ∧
  (∀ i j (_ : i < rows.length) (_ : j + 1 < i), rows[j].mp = rows[i].mp →
    (∀ k (_ : j < k) (_ : k < i), rows[k].mp ≠ rows[i].mp) → rows[i].mv = rows[j].mv)

/-- The rows of a run, one for each clock cycle. -/
def Clocked (rows : List MemoryRow) : Prop :=
  ∀ i (_ : i < rows.length), rows[i].clk = Fp.ofNat i

instance (rows : List MemoryRow) : Decidable (Clocked rows) :=
  inferInstanceAs (Decidable (∀ i (_ : i < rows.length), rows[i].clk = Fp.ofNat i))

/-- By cell, then by time, strictly. -/
private def Before (a b : MemoryRow) : Prop :=
  a.mp.val < b.mp.val ∨ (a.mp.val = b.mp.val ∧ a.clk.val < b.clk.val)

private def Sorted (rows : List MemoryRow) : Prop :=
  ∀ i j (_ : j < rows.length) (_ : i < j), Before rows[i] rows[j]

/-- Consistency through the clock cells, whatever the order of the rows. -/
private def ConsistentByClock (rows : List MemoryRow) : Prop :=
  (∀ r ∈ rows, (∀ q ∈ rows, q.mp = r.mp → r.clk.val ≤ q.clk.val) → r.mv = 0) ∧
  (∀ q ∈ rows, ∀ r ∈ rows, q.mp = r.mp → q.clk.val + 1 < r.clk.val →
    (∀ s ∈ rows, s.mp = r.mp → q.clk.val < s.clk.val → r.clk.val ≤ s.clk.val) → r.mv = q.mv)

/-- No cell below one with rows is without rows. -/
def Gapless (rows : List MemoryRow) : Prop :=
  ∀ r ∈ rows, ∀ n ≤ r.mp.val, ∃ s ∈ rows, s.mp.val = n

private theorem Clocked.val {rows : List MemoryRow} (h : Clocked rows)
    (hlen : rows.length ≤ prime) (i : Nat) (hi : i < rows.length) : rows[i].clk.val = i := by
  rw [h i hi, Fp.val_ofNat, Nat.mod_eq_of_lt (by omega)]

private theorem consistent_iff_byClock {rows : List MemoryRow} (h : Clocked rows)
    (hlen : rows.length ≤ prime) : Consistent rows ↔ ConsistentByClock rows := by
  constructor
  · rintro ⟨first, back⟩
    refine ⟨fun r hr hfirst => ?_, fun q hq r hr hmp hclk hbetween => ?_⟩
    · obtain ⟨i, hi, rfl⟩ := List.getElem_of_mem hr
      refine first i hi fun j hj hmp => ?_
      have := hfirst rows[j] (List.getElem_mem _) hmp
      rw [h.val hlen, h.val hlen] at this
      omega
    · obtain ⟨i, hi, rfl⟩ := List.getElem_of_mem hr
      obtain ⟨j, hj, rfl⟩ := List.getElem_of_mem hq
      rw [h.val hlen, h.val hlen] at hclk
      refine back i j hi hclk hmp fun k hjk hki hk => ?_
      have := hbetween rows[k] (List.getElem_mem _) hk
      rw [h.val hlen, h.val hlen, h.val hlen] at this
      omega
  · rintro ⟨first, back⟩
    refine ⟨fun i hi hfirst => ?_, fun i j hi hj hmp hbetween => ?_⟩
    · refine first rows[i] (List.getElem_mem _) fun q hq hmp => ?_
      obtain ⟨k, hk, rfl⟩ := List.getElem_of_mem hq
      rw [h.val hlen, h.val hlen]
      by_contra hlt
      exact hfirst k (by omega) hmp
    · refine back rows[j] (List.getElem_mem _) rows[i] (List.getElem_mem _) hmp ?_
        fun s hs hmp' hclk => ?_
      · rw [h.val hlen, h.val hlen]
        exact hj
      · obtain ⟨k, hk, rfl⟩ := List.getElem_of_mem hs
        rw [h.val hlen, h.val hlen] at *
        by_contra hlt
        exact hbetween k hclk (by omega) hmp'

private theorem ConsistentByClock.perm {rows rows' : List MemoryRow} (h : rows.Perm rows') :
    ConsistentByClock rows ↔ ConsistentByClock rows' := by
  simp only [ConsistentByClock, h.mem_iff]

private theorem Gapless.perm {rows rows' : List MemoryRow} (h : rows.Perm rows') :
    Gapless rows → Gapless rows' := by
  simp only [Gapless, h.mem_iff, imp_self]

/-- The place of a row in a sorted list tells what stands before it. -/
private theorem Sorted.lt_of_before {rows : List MemoryRow} (h : Sorted rows) {i j : Nat}
    (hi : i < rows.length) (hj : j < rows.length) (hb : Before rows[i] rows[j]) : i < j := by
  by_contra hle
  rcases Nat.lt_or_eq_of_le (Nat.le_of_not_lt hle) with hlt | rfl
  · have := h j i hi hlt
    simp only [Before] at hb this
    omega
  · simp only [Before] at hb
    omega

private theorem val_add_one {a : Fp} {n : Nat} (h : a.val + 1 = n) (hn : n < prime) :
    (a + 1).val = n := by
  rw [Fp.val_add, Fp.val_one, h, Nat.mod_eq_of_lt hn]

/-- In a sorted list the relations say what the clock says. -/
private theorem linked_iff_byClock {rows : List MemoryRow} (sorted : Sorted rows)
    (gapless : Gapless rows) (zero : ∀ h : 0 < rows.length, rows[0].mv = 0) :
    Linked rows ↔ ConsistentByClock rows := by
  constructor
  · intro linked
    refine ⟨fun r hr hfirst => ?_, fun q hq r hr hmp hclk hbetween => ?_⟩
    · obtain ⟨i, hi, rfl⟩ := List.getElem_of_mem hr
      cases i with
      | zero => exact zero hi
      | succ k =>
        have hb := sorted k (k + 1) hi (by omega)
        rcases (follows_iff _ _).mp (linked k hi) with ⟨hmp, -⟩ | ⟨-, hv⟩
        · have := hfirst rows[k] (List.getElem_mem _) hmp.symm
          simp only [Before, hmp] at hb
          omega
        · exact hv
    · obtain ⟨i, hi, rfl⟩ := List.getElem_of_mem hr
      obtain ⟨j, hj, rfl⟩ := List.getElem_of_mem hq
      have hlt := sorted.lt_of_before hj hi (.inr ⟨congrArg Fp.val hmp, by omega⟩)
      obtain ⟨k, rfl⟩ : ∃ k, i = k + 1 := ⟨i - 1, by omega⟩
      have hbi := sorted k (k + 1) hi (by omega)
      -- The row in front can only be the latest earlier one of the cell.
      obtain rfl : j = k := by
        by_contra hne
        have hbj := sorted j k (by omega) (by omega)
        have hval := congrArg Fp.val hmp
        simp only [Before] at hbi hbj
        have := hbetween rows[k] (List.getElem_mem _) (Fp.ext (by omega)) (by omega)
        omega
      rcases (follows_iff _ _).mp (linked j hi) with ⟨-, hv | hc⟩ | ⟨hmp', -⟩
      · exact hv
      · have := val_add_one rfl (hclk.trans rows[j + 1].clk.isLt)
        rw [← hc] at this
        omega
      · rw [← hmp] at hmp'
        simp at hmp'
  · rintro ⟨first, back⟩ i hi
    have hb := sorted i (i + 1) hi (by omega)
    have behind (s : MemoryRow) (hs : s ∈ rows) (h : Before rows[i] s) :
        s = rows[i + 1] ∨ Before rows[i + 1] s := by
      obtain ⟨j, hj, rfl⟩ := List.getElem_of_mem hs
      rcases Nat.lt_or_eq_of_le (sorted.lt_of_before (by omega) hj h) with hlt | rfl
      · exact .inr (sorted (i + 1) j hj hlt)
      · exact .inl rfl
    refine (follows_iff _ _).mpr ?_
    rcases id hb with hmp | ⟨hmp, hclk⟩
    · right
      have next : rows[i + 1].mp.val = rows[i].mp.val + 1 := by
        obtain ⟨s, hs, hsn⟩ := gapless rows[i + 1] (List.getElem_mem _) (rows[i].mp.val + 1) hmp
        rcases behind s hs (.inl (by omega)) with rfl | h
        · exact hsn
        · simp only [Before] at h
          omega
      refine ⟨Fp.ext (val_add_one next.symm rows[i + 1].mp.isLt).symm, ?_⟩
      refine first rows[i + 1] (List.getElem_mem _) fun q hq hqmp => ?_
      have := congrArg Fp.val hqmp
      rcases behind q hq (.inl (by omega)) with rfl | h
      · exact Nat.le_refl _
      · simp only [Before] at h
        omega
    · left
      refine ⟨(Fp.ext hmp).symm, ?_⟩
      by_cases hone : rows[i].clk.val + 1 = rows[i + 1].clk.val
      · exact .inr (Fp.ext (val_add_one hone rows[i + 1].clk.isLt).symm)
      · refine .inl (back rows[i] (List.getElem_mem _) rows[i + 1] (List.getElem_mem _)
          (Fp.ext hmp) (by omega) fun s hs hsmp hsclk => ?_)
        have := congrArg Fp.val hsmp
        rcases behind s hs (.inr ⟨by omega, hsclk⟩) with rfl | h
        · exact Nat.le_refl _
        · simp only [Before] at h
          omega

/-- The pointers of linked rows count up from zero without a gap. -/
private theorem Linked.gapless {rows : List MemoryRow} (linked : Linked rows)
    (hlen : rows.length ≤ prime) (zero : ∀ h : 0 < rows.length, rows[0].mp = 0) :
    Gapless rows := by
  have upTo (i : Nat) (hi : i < rows.length) : rows[i].mp.val ≤ i ∧
      ∀ n ≤ rows[i].mp.val, ∃ s ∈ rows, s.mp.val = n := by
    induction i with
    | zero =>
      rw [zero hi]
      refine ⟨Nat.le_refl _, fun n hn => ⟨rows[0], List.getElem_mem _, ?_⟩⟩
      rw [zero hi]
      exact (Nat.le_zero.mp hn).symm
    | succ i ih =>
      obtain ⟨hle, hall⟩ := ih (by omega)
      rcases (follows_iff _ _).mp (linked i hi) with ⟨hmp, -⟩ | ⟨hmp, -⟩
      · rw [hmp]
        exact ⟨by omega, hall⟩
      · have hval : rows[i + 1].mp.val = rows[i].mp.val + 1 := by
          rw [hmp]
          exact val_add_one rfl (by omega)
        refine ⟨by omega, fun n hn => ?_⟩
        by_cases hlast : n = rows[i + 1].mp.val
        · exact ⟨rows[i + 1], List.getElem_mem _, hlast.symm⟩
        · exact hall n (by omega)
  intro r hr
  obtain ⟨i, hi, rfl⟩ := List.getElem_of_mem hr
  exact (upTo i hi).2

theorem memoryLe_iff (a b : MemoryRow) : Trace.memoryLe a b = true ↔
    a.mp.val < b.mp.val ∨ (a.mp.val = b.mp.val ∧ a.clk.val ≤ b.clk.val) := by
  simp [Trace.memoryLe]

/-- Rows of different times are sorted strictly. -/
private theorem sorted_of_ordered {rows : List MemoryRow}
    (ordered : rows.Pairwise fun a b => Trace.memoryLe a b = true)
    (distinct : (rows.map (·.clk)).Nodup) : Sorted rows := by
  intro i j hj hij
  have hle := (memoryLe_iff _ _).mp (List.pairwise_iff_getElem.mp ordered i j (by omega) hj hij)
  have hne : rows[i].clk ≠ rows[j].clk := by
    have := List.pairwise_iff_getElem.mp distinct i j (by simpa using hij.trans hj) (by simpa using hj)
      hij
    simpa using this
  rcases hle with hmp | ⟨hmp, hclk⟩
  · exact .inl hmp
  · exact .inr ⟨hmp, Nat.lt_of_le_of_ne hclk fun h => hne (Fp.ext h)⟩

theorem ordered_mergeSort (rows : List MemoryRow) :
    (rows.mergeSort Trace.memoryLe).Pairwise fun a b => Trace.memoryLe a b = true := by
  refine List.pairwise_mergeSort (fun a b c => ?_) (fun a b => ?_) rows
  · simp only [memoryLe_iff]
    omega
  · simp only [Bool.or_eq_true, memoryLe_iff]
    omega

private theorem Clocked.nodup {rows : List MemoryRow} (h : Clocked rows)
    (hlen : rows.length ≤ prime) : (rows.map (·.clk)).Nodup := by
  refine List.pairwise_iff_getElem.mpr fun i j hi hj hij heq => ?_
  simp only [List.getElem_map, List.length_map] at heq hi hj
  have := congrArg Fp.val heq
  rw [h.val hlen, h.val hlen] at this
  omega

/-- The rows of a run that leaves no cell out, by cell and then by time, are linked exactly when
the run shows a consistent memory. -/
theorem linked_iff_of_ordered {run rows : List MemoryRow} (hlen : run.length ≤ prime)
    (clocked : Clocked run) (start : ⟨0, 0, 0⟩ ∈ run) (gapless : Gapless run) (perm : rows.Perm run)
    (ordered : rows.Pairwise fun a b => Trace.memoryLe a b = true) :
    Linked rows ↔ Consistent run := by
  have distinct : (rows.map (·.clk)).Nodup :=
    (perm.map _).nodup_iff.mpr (clocked.nodup hlen)
  have sorted := sorted_of_ordered ordered distinct
  have zero (h : 0 < rows.length) : rows[0].mv = 0 := by
    obtain ⟨i, hi, heq⟩ := List.getElem_of_mem (perm.mem_iff.mpr start)
    cases i with
    | zero => rw [heq]
    | succ i =>
      have := sorted 0 (i + 1) hi (by omega)
      rw [heq] at this
      simp [Before, Fp.val_zero] at this
  rw [consistent_iff_byClock clocked hlen, ← ConsistentByClock.perm perm,
    linked_iff_byClock sorted (gapless.perm perm.symm) zero]

/-- Linked rows of a run show a consistent memory exactly when the rows stay linked once every
cell lists them by the clock; in particular when they are listed so from the start. -/
theorem consistent_iff_linked_mergeSort (run rows : List MemoryRow) (hlen : run.length ≤ prime)
    (clocked : Clocked run) (perm : rows.Perm run) (first : rows.head? = some ⟨0, 0, 0⟩)
    (linked : Linked rows) :
    (Consistent run ↔ Linked (rows.mergeSort Trace.memoryLe)) ∧
      (rows.Pairwise (fun a b => Trace.memoryLe a b = true) → Consistent run) := by
  have zero (h : 0 < rows.length) : rows[0] = ⟨0, 0, 0⟩ := by
    rw [List.head?_eq_getElem?, List.getElem?_eq_getElem h] at first
    exact Option.some.inj first
  have gapless := (linked.gapless (perm.length_eq.trans_le hlen) fun h => by rw [zero h]).perm perm
  have start : (⟨0, 0, 0⟩ : MemoryRow) ∈ run := perm.mem_iff.mp (List.mem_of_mem_head? first)
  have main : Consistent run ↔ Linked (rows.mergeSort Trace.memoryLe) :=
    (linked_iff_of_ordered hlen clocked start gapless ((List.mergeSort_perm rows _).trans perm)
      (ordered_mergeSort rows)).symm
  refine ⟨main, fun ordered => main.mpr ?_⟩
  rwa [List.mergeSort_of_pairwise ordered]

/-- The run of `>+<>`, which comes back to the one it left in cell 1. -/
private def honestRun : List MemoryRow :=
  [⟨0, 0, 0⟩, ⟨1, 1, 0⟩, ⟨.ofNat 2, 1, 1⟩, ⟨.ofNat 3, 0, 0⟩, ⟨.ofNat 4, 1, 1⟩]

private def honestRows : List MemoryRow :=
  [⟨0, 0, 0⟩, ⟨.ofNat 3, 0, 0⟩, ⟨1, 1, 0⟩, ⟨.ofNat 2, 1, 1⟩, ⟨.ofNat 4, 1, 1⟩]

theorem consistent_of_sorted_rows : Consistent honestRun :=
  (consistent_iff_linked_mergeSort honestRun honestRows (by decide) (by decide) (by decide) rfl
    (by decide)).2 (by decide)

/-- The same run, but it finds cell 1 empty when it comes back. -/
private def forgetfulRun : List MemoryRow :=
  [⟨0, 0, 0⟩, ⟨1, 1, 0⟩, ⟨.ofNat 2, 1, 1⟩, ⟨.ofNat 3, 0, 0⟩, ⟨.ofNat 4, 1, 0⟩]

/-- Its rows, with the last visit of cell 1 in front of the first. -/
private def forgetfulRows : List MemoryRow :=
  [⟨0, 0, 0⟩, ⟨.ofNat 3, 0, 0⟩, ⟨.ofNat 4, 1, 0⟩, ⟨1, 1, 0⟩, ⟨.ofNat 2, 1, 1⟩]

/-- Without the order by the clock the relations let a run forget what it wrote. -/
theorem exists_linked_rows_of_inconsistent_run : ∃ run rows : List MemoryRow,
    Clocked run ∧ run.head? = some ⟨0, 0, 0⟩ ∧
      run.IsChain (fun a b => b.mp = a.mp ∨ b.mp = a.mp + 1 ∨ b.mp = a.mp - 1) ∧
      rows.Perm run ∧ rows.head? = some ⟨0, 0, 0⟩ ∧ Linked rows ∧ ¬ Consistent run := by
  refine ⟨forgetfulRun, forgetfulRows, by decide, rfl, by decide, by decide, rfl, by decide, ?_⟩
  intro h
  have elsewhere : forgetfulRun[3].mp ≠ forgetfulRun[4].mp := by decide
  have back : forgetfulRun[4].mv = forgetfulRun[2].mv := by
    refine h.2 4 2 (by decide) (by decide) rfl fun k hk hk' => ?_
    obtain rfl : k = 3 := by omega
    exact elsewhere
  exact absurd back (by decide)

end TapeStark.Air.Memory
