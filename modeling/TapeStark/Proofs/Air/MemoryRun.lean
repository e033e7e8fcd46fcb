import Mathlib
import TapeStark.Proofs.Air.MemoryOrder
import TapeStark.Proofs.Air.ProcessorRun

/-! The padded memory table of a run: its rows are those of all cycles, by cell and then by time,
and they satisfy the memory constraints. -/

namespace TapeStark

open Simulator Trace ExtensionField Air.Memory

namespace Run

variable {program : Program} {input : ByteArray} (r : Run program input)

def head (k : Nat) : Nat := (r.state k).memory.head

theorem frame (k : Nat) : r.head (k + 1) ≤ r.head k + 1 ∧ r.head k ≤ r.head (k + 1) + 1 ∧
    ∀ c, c ≠ r.head k ∨ r.head (k + 1) ≠ r.head k →
      (r.state (k + 1)).memory.tape.get c = (r.state k).memory.tape.get c :=
  (r.effect k).frame

theorem head_zero : r.head 0 = 0 := by
  rw [head, r.state_zero]
  rfl

theorem head_le (k : Nat) : r.head k ≤ k := by
  induction k with
  | zero => rw [r.head_zero]
  | succ k ih =>
    have := (r.frame k).1
    omega

/-- A head that has come to a cell has visited every cell before it. -/
theorem exists_visit (k : Nat) {n : Nat} (h : n ≤ r.head k) : ∃ j ≤ k, r.head j = n := by
  induction k with
  | zero =>
    rw [r.head_zero] at h
    exact ⟨0, Nat.le_refl _, by rw [r.head_zero]; omega⟩
  | succ k ih =>
    by_cases hk : n ≤ r.head k
    · obtain ⟨j, hj, hn⟩ := ih hk
      exact ⟨j, by omega, hn⟩
    · have := (r.frame k).1
      exact ⟨k + 1, Nat.le_refl _, by omega⟩

/-- A cell that was never visited holds zero. -/
theorem get_of_unvisited {c k : Nat} (h : ∀ j < k, r.head j ≠ c) :
    (r.state k).memory.tape.get c = 0 := by
  induction k with
  | zero => rw [r.state_zero]; rfl
  | succ k ih =>
    rw [(r.frame k).2.2 c (.inl (h k (Nat.lt_succ_self k)).symm)]
    exact ih fun j hj => h j (by omega)

/-- A cell keeps its value while the head is elsewhere. -/
theorem get_of_away {c j k : Nat} (hjk : j ≤ k) (h : ∀ i, j ≤ i → i < k → r.head i ≠ c) :
    (r.state k).memory.tape.get c = (r.state j).memory.tape.get c := by
  induction k, hjk using Nat.le_induction with
  | base => rfl
  | succ k hjk ih =>
    rw [(r.frame k).2.2 c (.inl (h k hjk (Nat.lt_succ_self k)).symm)]
    exact ih fun i hi hik => h i hi (by omega)

def memoryRows : List MemoryRow := (List.range r.height).map fun k => (r.row k).memory

theorem length_memoryRows : r.memoryRows.length = r.height := by simp [memoryRows]

theorem getElem_memoryRows {k : Nat} (h : k < r.memoryRows.length) :
    r.memoryRows[k] = ⟨.ofNat k, .ofNat (r.head k), (r.state k).memory.cell⟩ := by
  simp only [memoryRows, List.getElem_map, List.getElem_range]
  rw [ProcessorRow.memory, r.row_clk]
  rfl

theorem clocked_memoryRows : Clocked r.memoryRows := by
  intro i hi
  rw [r.getElem_memoryRows hi]

section Fits

variable (hclock : r.height ≤ prime)

include hclock

theorem val_head {k : Nat} (h : k < r.height) : (Fp.ofNat (r.head k)).val = r.head k := by
  have := r.head_le k
  exact Fp.val_ofNat_of_lt (by omega)

theorem gapless_memoryRows : Gapless r.memoryRows := by
  intro row hrow n hn
  obtain ⟨k, hk, rfl⟩ := List.getElem_of_mem hrow
  have hk' : k < r.height := by rwa [r.length_memoryRows] at hk
  rw [r.getElem_memoryRows hk, r.val_head hclock hk'] at hn
  obtain ⟨j, hj, hn⟩ := r.exists_visit k hn
  have hj' : j < r.memoryRows.length := by omega
  refine ⟨_, List.getElem_mem hj', ?_⟩
  rw [r.getElem_memoryRows hj', r.val_head hclock (by omega), hn]

/-- The rows of a run are consistent: a cell is found as it was left. -/
theorem consistent_memoryRows : Consistent r.memoryRows := by
  have hlen := r.length_memoryRows
  have other {i j : Nat} (hi : i < r.memoryRows.length) (hj : j < r.memoryRows.length)
      (h : r.memoryRows[j].mp ≠ r.memoryRows[i].mp) : r.head j ≠ r.head i := by
    rw [r.getElem_memoryRows hi, r.getElem_memoryRows hj] at h
    exact fun e => h (congrArg Fp.ofNat e)
  refine ⟨fun i hi hfirst => ?_, fun i j hi hj hmp hbetween => ?_⟩
  · rw [r.getElem_memoryRows hi]
    exact r.get_of_unvisited fun j hj => other hi (by omega) (hfirst j hj)
  · have hmp' : r.head j = r.head i := by
      have h := congrArg Fp.val hmp
      rw [r.getElem_memoryRows hi, r.getElem_memoryRows (by omega)] at h
      rwa [r.val_head hclock (by omega), r.val_head hclock (by omega)] at h
    have left : r.head (j + 1) ≠ r.head j := by
      rw [hmp']
      exact other hi (by omega) (hbetween (j + 1) (by omega) hj)
    rw [r.getElem_memoryRows hi, r.getElem_memoryRows (by omega)]
    calc (r.state i).memory.tape.get (r.head i)
        = (r.state (j + 1)).memory.tape.get (r.head i) :=
          r.get_of_away (by omega) fun k hjk hki => other hi (by omega) (hbetween k (by omega) hki)
      _ = (r.state j).memory.tape.get (r.head i) := (r.frame j).2.2 _ (.inr left)
      _ = (r.state j).memory.tape.get (r.head j) := by rw [hmp']

end Fits

/-- Padding takes in the rows of the cycles behind the end. -/
theorem Padded.memory_perm {t : Trace} (h : r.Padded t) : t.memory.Perm r.memoryRows := by
  obtain ⟨before, last, after, htrace, -, -, hmemory⟩ := h.memory
  have hrun : (before ++ last :: after).Perm
      ((List.range (r.length + 1)).map fun k => (r.row k).memory) :=
    htrace ▸ List.mergeSort_perm _ _
  have hrows : r.memoryRows =
      ((List.range (r.length + 1)).map fun k => (r.row k).memory) ++ r.tail.map (·.memory) := by
    have := congrArg (List.map (·.memory)) r.rows_append_tail
    rw [List.map_append, List.map_map, List.map_map] at this
    exact this.symm
  rw [hmemory, hrows]
  calc before ++ [last] ++ r.tail.map (·.memory) ++ after
      = (before ++ [last]) ++ (r.tail.map (·.memory) ++ after) := List.append_assoc ..
    _ |>.Perm ((before ++ [last]) ++ (after ++ r.tail.map (·.memory))) :=
      List.perm_append_comm.append_left _
    _ = (before ++ last :: after) ++ r.tail.map (·.memory) := by simp
    _ |>.Perm _ := hrun.append_right _

/-- The padded rows stay sorted: those that padding takes in come last in the final cell. -/
theorem Padded.memory_ordered {t : Trace} (h : r.Padded t) (hclock : r.height ≤ prime) :
    t.memory.Pairwise fun a b => memoryLe a b = true := by
  obtain ⟨before, last, after, htrace, hlast, hafter, hmemory⟩ := h.memory
  have hlt := r.lt_height
  have ordered : (before ++ last :: after).Pairwise fun a b => memoryLe a b = true :=
    htrace ▸ ordered_mergeSort _
  have early (q : MemoryRow) (hq : q ∈ before ++ last :: after) : q.clk.val ≤ r.length := by
    rw [← htrace] at hq
    obtain ⟨k, hk, rfl⟩ := List.mem_map.mp (List.mem_mergeSort.mp hq)
    have hk := List.mem_range.mp hk
    rw [ProcessorRow.memory, r.row_clk, Fp.val_ofNat_of_lt (by omega)]
    omega
  have late (q : MemoryRow) (hq : q ∈ r.tail.map (·.memory)) :
      q.mp = last.mp ∧ r.length < q.clk.val := by
    obtain ⟨row, hrow, rfl⟩ := List.mem_map.mp hq
    obtain ⟨j, hj, rfl⟩ := List.mem_map.mp hrow
    have hj := List.mem_range.mp hj
    rw [show r.length + 1 + j = r.length + (1 + j) by omega, r.row_add, hlast]
    refine ⟨rfl, ?_⟩
    rw [ProcessorRow.memory, Fp.val_ofNat_of_lt (by omega)]
    omega
  have inside : (r.tail.map (·.memory)).Pairwise fun a b => memoryLe a b = true := by
    rw [tail, List.map_map, List.pairwise_map]
    refine List.pairwise_lt_range.imp_of_mem fun {i j} hi hj hij => (memoryLe_iff _ _).mpr ?_
    have hi := List.mem_range.mp hi
    have hj := List.mem_range.mp hj
    simp only [Function.comp_apply, Nat.add_assoc, r.row_add, ProcessorRow.memory]
    rw [Fp.val_ofNat_of_lt (by omega), Fp.val_ofNat_of_lt (by omega)]
    exact .inr ⟨trivial, by omega⟩
  have split : before ++ [last] ++ r.tail.map (·.memory) ++ after =
      (before ++ [last]) ++ (r.tail.map (·.memory) ++ after) := List.append_assoc ..
  have front : before ++ last :: after = (before ++ [last]) ++ after := by simp
  rw [front] at ordered early
  obtain ⟨hfront, hback, hcross⟩ := List.pairwise_append.mp ordered
  have upToLast (q : MemoryRow) (hq : q ∈ before ++ [last]) : q.mp.val ≤ last.mp.val := by
    rcases List.mem_append.mp hq with hq | hq
    · have := (memoryLe_iff _ _).mp ((List.pairwise_append.mp hfront).2.2 q hq last (by simp))
      omega
    · rw [List.mem_singleton.mp hq]
  rw [hmemory, split]
  refine List.pairwise_append.mpr ⟨hfront, List.pairwise_append.mpr ⟨inside, hback, ?_⟩, ?_⟩
  · intro q hq q' hq'
    have hle := (memoryLe_iff _ _).mp (hcross last (by simp) q' hq')
    have hne : last.mp.val ≠ q'.mp.val := fun e =>
      hafter q' hq' ((Fp.ext e).symm.trans hlast)
    have hmp := congrArg Fp.val (late q hq).1
    exact (memoryLe_iff _ _).mpr (.inl (by omega))
  · intro q hq q' hq'
    rcases List.mem_append.mp hq' with hq' | hq'
    · have hle := upToLast q hq
      have hearly := early q (List.mem_append_left _ hq)
      obtain ⟨hmp, hlate⟩ := late q' hq'
      rw [← hmp] at hle
      exact (memoryLe_iff _ _).mpr (by omega)
    · exact hcross q hq q' hq'

/-- The padded memory table of a run satisfies the relations between its rows. -/
theorem Padded.memory_linked {t : Trace} (h : r.Padded t) (hclock : r.height ≤ prime) :
    Linked t.memory := by
  have hpos : 0 < r.memoryRows.length := by
    have := r.lt_height
    rw [r.length_memoryRows]
    omega
  have start : (⟨0, 0, 0⟩ : MemoryRow) ∈ r.memoryRows := by
    have h0 := r.getElem_memoryRows hpos
    rw [r.head_zero, r.state_zero] at h0
    exact h0 ▸ List.getElem_mem hpos
  refine (linked_iff_of_ordered ?_ r.clocked_memoryRows start (r.gapless_memoryRows hclock)
    (h.memory_perm r) (h.memory_ordered r hclock)).mpr (r.consistent_memoryRows hclock)
  rwa [r.length_memoryRows]

section Table

variable {F : Type} [ExtensionField F] [LawfulExtension F] (ch : Challenges F) {t : Trace}
  (h : r.Padded t)

/-- The processor's memory product ends on the product over all cycles. -/
theorem processorExt_mpa : r.processorExt ch (r.height - 1) .mpa =
    (r.memoryRows.map ch.memoryFactor).prod := by
  have hlt := r.lt_height
  have hne : (List.range r.height).map r.row ≠ [] := by
    intro h0
    have := congrArg List.length h0
    simp at this
    omega
  have hlen : ((List.range r.height).map r.row).length = r.height := by simp
  have hlast := getD_product_last (fun row : ProcessorRow => ch.memoryFactor row.memory) _ hne
  rw [hlen] at hlast
  refine hlast.trans ?_
  rw [memoryRows, List.map_map, List.map_map]
  rfl

/-- Rows that may follow each other satisfy the relations at any challenges. -/
theorem eval_of_follows {a b : MemoryRow} (hab : Follows a b) (e e' : MemoryExt → F) :
    ∀ c ∈ rowConstraints, c.eval (Table.Row.cells (t := .memory) a e)
      (Table.Row.cells (t := .memory) b e') ch = 0 := by
  simp only [rowConstraints, List.forall_mem_cons, List.not_mem_nil, false_implies, implies_true,
    and_true]
  rw [eval_pointerStep, eval_freshCell, eval_valueConsistency]
  rcases (follows_iff a b).mp hab with ⟨hmp, hv | hc⟩ | ⟨hmp, hv⟩
  · simp [hmp, hv, ofBase_zero]
  · simp [hmp, hc, ofBase_zero]
  · simp [hmp, hv, ofBase_zero]

variable (hclock : r.height ≤ prime)

include h in
omit [ExtensionField F] [LawfulExtension F] in
theorem length_memory : t.memory.length = r.height := by
  rw [(h.memory_perm r).length_eq, r.length_memoryRows]

include h in
omit [ExtensionField F] [LawfulExtension F] in
theorem length_memory_pos : 0 < t.memory.length := by
  rw [r.length_memory h]
  exact Nat.zero_lt_of_lt r.lt_height

include h hclock in
theorem memory_transitions : ∀ c ∈ Table.transitions .memory,
    (Table.columns ch .memory t.memory).SatisfiesTransition ch c := by
  refine Table.columns_satisfyTransitions ch (r.length_memory_pos h) trivial fun c hc => ?_
  have hmem : c.expr ∈ rowConstraints := List.mem_map_of_mem hc
  refine (Table.columns_satisfiesTransition_iff ch).mpr fun i _ hi => ?_
  exact eval_of_follows ch (h.memory_linked r hclock i hi) _ _ c.expr hmem

include h hclock in
/-- The first row is the first cycle's. -/
theorem memory_first (hpos : 0 < t.memory.length) : t.memory[0] = ⟨0, 0, 0⟩ := by
  have hpos' : 0 < r.memoryRows.length := by rwa [← (h.memory_perm r).length_eq]
  have hzero : r.memoryRows[0] = ⟨0, 0, 0⟩ := by
    rw [r.getElem_memoryRows hpos', r.head_zero, r.state_zero]
    rfl
  obtain ⟨j, hj, hj0⟩ := List.getElem_of_mem
    ((h.memory_perm r).mem_iff.mpr (hzero ▸ List.getElem_mem hpos'))
  obtain ⟨k, hk, hk0⟩ := List.getElem_of_mem
    ((h.memory_perm r).mem_iff.mp (List.getElem_mem hpos))
  have hclk : t.memory[0].clk.val = 0 := by
    cases j with
    | zero => rw [hj0]; rfl
    | succ j =>
      have hle := (memoryLe_iff _ _).mp
        (List.pairwise_iff_getElem.mp (h.memory_ordered r hclock) 0 (j + 1) hpos hj (by omega))
      rw [hj0] at hle
      simp only [Fp.val_zero] at hle
      omega
  have hk' : k < r.height := by rwa [r.length_memoryRows] at hk
  rw [← hk0, r.getElem_memoryRows hk] at hclk
  rw [Fp.val_ofNat_of_lt (by omega)] at hclk
  subst hclk
  rw [← hk0, hzero]

include h hclock in
theorem memory_boundary : ∀ p ∈ Table.boundary ch .memory,
    (Table.columns ch .memory t.memory).SatisfiesPoint p := by
  have hpos := r.length_memory_pos h
  refine Table.columns_satisfyBoundary ch hpos trivial ?_
  have first (p : PointConstraint (Table.Column .memory) F) (hrow : p.row = 0)
      (hp : p.eval (Table.Row.cells (t := .memory) (⟨0, 0, 0⟩ : MemoryRow)
        fun c => (Table.extension ch .memory t.memory c).getD 0 0) = 0) :
      (Table.columns ch .memory t.memory).SatisfiesPoint p := by
    rw [Table.columns_satisfiesPoint_iff ch (t := .memory) (k := 0) hrow hpos,
      r.memory_first h hclock hpos]
    exact hp
  change ∀ p ∈ (boundary ch).take 3, _
  simp only [boundary, List.take_succ_cons, List.take_zero, List.forall_mem_cons,
    List.not_mem_nil, false_implies, implies_true, and_true]
  refine ⟨first _ rfl ?_, first _ rfl ?_, first _ rfl ?_⟩
  all_goals simp [PointConstraint.eval, Table.Row.cells, Table.Row.get, ofBase_zero]

include h in
theorem memory_terminal (terminals : Terminals F)
    (hpm : terminals.processorMemory = r.processorExt ch (r.height - 1) .mpa) :
    ∀ p ∈ terminal terminals r.height, (Table.columns ch .memory t.memory).SatisfiesPoint p := by
  have hlen := r.length_memory h
  have hpos := r.length_memory_pos h
  simp only [terminal, List.forall_mem_singleton]
  rw [Table.columns_satisfiesPoint_iff ch (t := .memory) (k := r.height - 1) (by simp; omega)
    (by omega)]
  have hend : (Table.extension ch .memory t.memory .ppa).getD (r.height - 1) 0 =
      (t.memory.map ch.memoryFactor).prod := by
    rw [← hlen]
    exact getD_product_last _ _ (List.length_pos_iff.mp hpos)
  simp only [PointConstraint.eval, Table.Row.cells, List.foldl_cons, List.foldl_nil, one_mul]
  rw [hend, hpm, r.processorExt_mpa ch, neg_add_eq_zero]
  exact (((h.memory_perm r).map ch.memoryFactor).prod_eq).symm

end Table

end Run

end TapeStark
