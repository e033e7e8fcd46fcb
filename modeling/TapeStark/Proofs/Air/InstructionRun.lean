import Mathlib
import TapeStark.Proofs.Air.Columns
import TapeStark.Proofs.Air.Evaluation
import TapeStark.Proofs.Air.ProcessorRun
import TapeStark.Proofs.Machine.Compiled

/-! The padded instruction table of a run. -/

namespace TapeStark

/-! Lists of rows sorted by a key: the rows at which the key is new and those that repeat it, and
the columns that take in the one kind or the other. -/

section Keys

variable {ρ κ : Type} [DecidableEq κ] (key : ρ → κ)

/-- The rows behind `r` whose key is the one of the row before. -/
def repeats : ρ → List ρ → List ρ
  | _, [] => []
  | r, r' :: rest => if key r' = key r then r' :: repeats r' rest else repeats r' rest

/-- The rows behind `r` whose key is not the one of the row before. -/
def firsts : ρ → List ρ → List ρ
  | _, [] => []
  | r, r' :: rest => if key r' = key r then firsts r' rest else r' :: firsts r' rest

theorem repeats_append_firsts_perm (r : ρ) (rest : List ρ) :
    (repeats key r rest ++ firsts key r rest).Perm rest := by
  induction rest generalizing r with
  | nil => exact List.Perm.refl _
  | cons r' rest ih =>
    rw [repeats, firsts]
    split
    · exact (ih r').cons r'
    · exact List.perm_middle.trans ((ih r').cons r')

/-- Rows that a function gives repeat the key where its arguments repeat theirs, and have it new where
these are new. -/
theorem repeats_firsts_map {α : Type} [DecidableEq α] {f : α → ρ} {a : α} {as : List α}
    (h : ∀ x ∈ a :: as, ∀ y ∈ a :: as, key (f x) = key (f y) → x = y) :
    repeats key (f a) (as.map f) = (repeats id a as).map f ∧
      firsts key (f a) (as.map f) = (firsts id a as).map f := by
  induction as generalizing a with
  | nil => exact ⟨rfl, rfl⟩
  | cons b bs ih =>
    obtain ⟨hrepeats, hfirsts⟩ :=
      ih fun x hx y hy => h x (List.mem_cons_of_mem _ hx) y (List.mem_cons_of_mem _ hy)
    have hkey : key (f b) = key (f a) ↔ id b = id a :=
      ⟨h b (by simp) a (by simp), fun e => congrArg (key ∘ f) e⟩
    simp only [List.map_cons, repeats, firsts, hkey, hrepeats, hfirsts]
    split
    · exact ⟨rfl, rfl⟩
    · exact ⟨rfl, rfl⟩

variable {F : Type}

/-- A running product over the repeats ends on the product of their factors. -/
theorem getLastD_scanRows_repeats [Monoid F] (factor : ρ → F) (acc d : F) (r : ρ) (rest : List ρ) :
    (scanRows (fun acc r r' => if key r' = key r then acc * factor r' else acc) acc
      (r :: rest)).getLastD d = acc * ((repeats key r rest).map factor).prod := by
  induction rest generalizing acc d r with
  | nil => simp [scanRows, repeats]
  | cons r' rest ih =>
    rw [scanRows, List.getLastD_cons, ih, repeats]
    split
    · rw [List.map_cons, List.prod_cons, mul_assoc]
    · rfl

/-- An evaluation over the first rows ends on their fold. -/
theorem getLastD_scanRows_firsts (step : F → ρ → F) (acc d : F) (r : ρ) (rest : List ρ) :
    (scanRows (fun acc r r' => if key r' = key r then acc else step acc r') acc
      (r :: rest)).getLastD d = (firsts key r rest).foldl step acc := by
  induction rest generalizing acc d r with
  | nil => simp [scanRows, firsts]
  | cons r' rest ih =>
    rw [scanRows, List.getLastD_cons, ih, firsts]
    split
    · rfl
    · rw [List.foldl_cons]

end Keys

section Addresses

variable {a : Nat} {as : List Nat}

theorem mem_of_mem_firsts {x : Nat} (h : x ∈ firsts id a as) : x ∈ as :=
  (repeats_append_firsts_perm id a as).mem_iff.mp (List.mem_append_right _ h)

private theorem mem_cons_firsts {x : Nat} (h : x ∈ as) : x ∈ a :: firsts id a as := by
  induction as generalizing a with
  | nil => simp at h
  | cons b bs ih =>
    have hb : x ∈ b :: firsts id b bs := by
      rcases List.mem_cons.mp h with rfl | h
      · exact List.mem_cons_self ..
      · exact ih h
    rw [firsts]
    split
    · rename_i hab
      rwa [← show b = a from hab]
    · exact List.mem_cons_of_mem _ hb

private theorem pairwise_firsts (h : (a :: as).Pairwise (· ≤ ·)) :
    (a :: firsts id a as).Pairwise (· < ·) := by
  induction as generalizing a with
  | nil => exact List.pairwise_singleton _ _
  | cons b bs ih =>
    obtain ⟨ha, hbs⟩ := List.pairwise_cons.mp h
    have hrest := ih hbs
    rw [firsts]
    split
    · rename_i hab
      rwa [← show b = a from hab]
    · rename_i hab
      have hlt : a < b := Nat.lt_of_le_of_ne (ha b (by simp)) (Ne.symm hab)
      refine List.pairwise_cons.mpr ⟨?_, hrest⟩
      intro x hx
      rcases List.mem_cons.mp hx with rfl | hx
      · exact hlt
      · exact hlt.trans_le ((List.pairwise_cons.mp hbs).1 x (mem_of_mem_firsts hx))

/-- Sorted addresses that leave none out have each address below their bound as a first. -/
theorem cons_firsts_eq_range {n : Nat} (h : (a :: as).Pairwise (· ≤ ·))
    (hmem : ∀ x, x ∈ a :: as ↔ x < n) : a :: firsts id a as = List.range n := by
  have hfirst := pairwise_firsts h
  refine List.Perm.eq_of_pairwise (fun x y _ _ hxy hyx => absurd hyx (lt_asymm hxy)) hfirst
    List.pairwise_lt_range ((List.perm_ext_iff_of_nodup ?_ List.nodup_range).mpr fun x => ?_)
  · exact hfirst.imp fun hlt => hlt.ne
  · rw [List.mem_range, ← hmem]
    refine ⟨fun hx => ?_, fun hx => ?_⟩
    · rcases List.mem_cons.mp hx with rfl | hx
      · exact List.mem_cons_self ..
      · exact List.mem_cons_of_mem _ (mem_of_mem_firsts hx)
    · rcases List.mem_cons.mp hx with rfl | hx
      · exact List.mem_cons_self ..
      · exact mem_cons_firsts hx

/-- What is listed besides one entry for each address are the repeats. -/
theorem repeats_perm {n : Nat} {ps : List Nat} (h : (a :: as).Pairwise (· ≤ ·))
    (hmem : ∀ x, x ∈ a :: as ↔ x < n) (hperm : (a :: as).Perm (List.range n ++ ps)) :
    (repeats id a as).Perm ps := by
  have split : (repeats id a as ++ List.range n).Perm (a :: as) := by
    rw [← cons_firsts_eq_range h hmem]
    exact List.perm_middle.trans ((repeats_append_firsts_perm id a as).cons a)
  exact List.perm_append_right_iff (List.range n) |>.mp
    (split.trans (hperm.trans List.perm_append_comm))

/-- Sorted addresses that leave none out go on by at most one. -/
theorem getElem_succ_of_sorted {xs : List Nat} {n : Nat} (h : xs.Pairwise (· ≤ ·))
    (hmem : ∀ x, x ∈ xs ↔ x < n) {i : Nat} (hi : i + 1 < xs.length) :
    xs[i + 1] = xs[i] ∨ xs[i + 1] = xs[i] + 1 := by
  have le {i j : Nat} (hij : i < j) (hj : j < xs.length) : xs[i] ≤ xs[j] :=
    List.pairwise_iff_getElem.mp h i j (by omega) hj hij
  by_contra hne
  have hstep := le (show i < i + 1 by omega) hi
  have hbound : xs[i] + 1 < n := by
    have := (hmem xs[i + 1]).mp (List.getElem_mem _)
    omega
  obtain ⟨j, hj, hval⟩ := List.getElem_of_mem ((hmem _).mpr hbound)
  rcases Nat.lt_trichotomy j i with hlt | rfl | hgt
  · have := le hlt (by omega)
    omega
  · omega
  · rcases Nat.lt_or_eq_of_le (show i + 1 ≤ j from hgt) with hlt | rfl
    · have := le hlt hj
      omega
    · omega

end Addresses

/-! The padded instruction table of a run of a compiled program: the words of the program by
address, one row for each address and one for each cycle. It satisfies the instruction constraints.
-/

section InstructionRun

open Simulator Trace Program ExtensionField

namespace Air.Instruction

/-- The relations between two rows that do not concern the extension columns. -/
def rowConstraints : List Cell := [pointerStep, instructionConsistency, nextConsistency]

variable {F : Type} [ExtensionField F] [LawfulExtension F] (ch : Challenges F)

/-- They hold exactly where a row is repeated or followed by one at the next address. -/
theorem rowConstraints_iff {a b : InstructionRow} (e e' : InstructionExt → F) :
    (∀ c ∈ rowConstraints, c.eval (Table.Row.cells (t := .instruction) a e)
      (Table.Row.cells (t := .instruction) b e') ch = 0) ↔ b = a ∨ b.ip = a.ip + 1 := by
  have hstep : step.eval (Table.Row.cells (t := .instruction) a e)
      (Table.Row.cells (t := .instruction) b e') ch = ofBase (b.ip - a.ip) := (ofBase_sub ..).symm
  simp only [rowConstraints, List.forall_mem_cons, List.not_mem_nil, false_implies, implies_true,
    and_true, pointerStep, instructionConsistency, nextConsistency, Expr.eval_sub, Expr.eval_mul,
    Expr.eval_one, hstep]
  change _ ∧ _ * (ofBase b.ci - ofBase a.ci) = 0 ∧ _ * (ofBase b.ni - ofBase a.ni) = 0 ↔ _
  constructor
  · rintro ⟨hpointer, hci, hni⟩
    rcases mul_eq_zero.mp hpointer with hsame | hnext
    · rw [hsame] at hci hni
      have hip : b.ip = a.ip := sub_eq_zero.mp (ofBase_injective (hsame.trans ofBase_zero.symm))
      have hci : b.ci = a.ci := ofBase_injective (F := F) (by linear_combination -hci)
      have hni : b.ni = a.ni := ofBase_injective (F := F) (by linear_combination -hni)
      left
      cases a
      cases b
      cases hip
      cases hci
      cases hni
      rfl
    · have hip : b.ip - a.ip = 1 :=
        ofBase_injective ((sub_eq_zero.mp hnext).trans ofBase_one.symm)
      exact .inr (by linear_combination hip)
  · rintro (rfl | hip)
    · simp [ofBase_zero]
    · rw [hip, add_sub_cancel_left, ofBase_one, sub_self]
      simp

/-- The two extension columns end on the product over the copies and on the fold of the rows that
open an address. -/
theorem extension_ends (first : InstructionRow) (rest : List InstructionRow) :
    (Table.extension ch .instruction (first :: rest) .ppa).getD rest.length 0 =
        ((repeats InstructionRow.ip first rest).map ch.instructionFactor).prod ∧
      (Table.extension ch .instruction (first :: rest) .pea).getD rest.length 0 =
        foldRows ch (first :: firsts InstructionRow.ip first rest) := by
  constructor
  · have hend := getLastD_scanRows_repeats InstructionRow.ip ch.instructionFactor (1 : F) 0 first
      rest
    rwa [getLastD_eq_getD (length_scanRows _ _ _), one_mul] at hend
  · have hend := getLastD_scanRows_firsts InstructionRow.ip
      (fun acc row => acc * ch.eta + ch.compress row) (ch.compress first) 0 first rest
    rw [getLastD_eq_getD (length_scanRows _ _ _)] at hend
    rw [foldRows, List.foldl_cons, zero_mul, zero_add]
    exact hend

end Air.Instruction

namespace Run

variable {program : Program} {input : ByteArray} (r : Run program input)

def address (k : Nat) : Nat := (r.state k).ip.toNat

def addresses : List Nat :=
  (List.range (program.size + 1) ++ (List.range (r.length + 1)).map r.address).mergeSort
      (fun x y => decide (x ≤ y)) ++
    (List.range (r.height - (r.length + 1))).map (fun j => r.address (r.length + 1 + j)) ++
    (List.range r.emptied).map (program.size + 1 + ·)

/-- The number of addresses in the padded instruction table. -/
def reach : Nat := program.size + 1 + r.emptied

section Layout

variable {starts : Nat → Prop} (hlayout : Layout program [] starts)

include hlayout

theorem ip_eq_address (k : Nat) : (r.state k).ip = r.address k := by
  obtain ⟨a, -, hip⟩ := r.exists_start hlayout k
  rw [address, hip]
  rfl

theorem address_le (k : Nat) : r.address k ≤ program.size := by
  obtain ⟨a, ha, hip⟩ := r.exists_start hlayout k
  rw [address, hip]
  exact hlayout.le ha

theorem address_behind {k : Nat} (h : r.length ≤ k) : r.address k = program.size := by
  obtain ⟨j, rfl⟩ := Nat.exists_eq_add_of_le h
  rw [address, r.state_add, r.ip_length hlayout]
  rfl

/-- The instruction row of a cycle is the program's row at its address. -/
theorem instruction_row (k : Nat) : (r.row k).instruction = wordRow program (r.address k) := by
  have hip := r.ip_eq_address hlayout k
  simp only [row, rowOf, State.seen, State.observe, ProcessorRow.instruction, wordRow]
  rw [word_natCast hip, hip, following_natCast, Fp.ofInt_natCast]

theorem pairwise_addresses : r.addresses.Pairwise (· ≤ ·) := by
  have sorted : ((List.range (program.size + 1) ++
      (List.range (r.length + 1)).map r.address).mergeSort
        (fun x y => decide (x ≤ y))).Pairwise (· ≤ ·) := by
    refine (List.pairwise_mergeSort (fun x y z => ?_) (fun x y => ?_) _).imp of_decide_eq_true
    · simp only [decide_eq_true_eq]
      exact Nat.le_trans
    · simp only [Bool.or_eq_true, decide_eq_true_eq]
      exact Nat.le_total x y
  refine List.pairwise_append.mpr ⟨List.pairwise_append.mpr ⟨sorted, ?_, ?_⟩, ?_, ?_⟩
  · refine List.pairwise_map.mpr (List.pairwise_lt_range.imp fun {i j} _ => ?_)
    rw [r.address_behind hlayout (by omega), r.address_behind hlayout (by omega)]
  · intro x hx y hy
    obtain ⟨j, -, rfl⟩ := List.mem_map.mp hy
    rw [r.address_behind hlayout (by omega)]
    rcases List.mem_append.mp (List.mem_mergeSort.mp hx) with hx | hx
    · exact Nat.le_of_lt_succ (List.mem_range.mp hx)
    · obtain ⟨k, -, rfl⟩ := List.mem_map.mp hx
      exact r.address_le hlayout k
  · exact List.pairwise_map.mpr (List.pairwise_lt_range.imp fun h => by omega)
  · intro x hx y hy
    obtain ⟨j, -, rfl⟩ := List.mem_map.mp hy
    have hx : x ≤ program.size := by
      rcases List.mem_append.mp hx with hx | hx
      · rcases List.mem_append.mp (List.mem_mergeSort.mp hx) with hx | hx
        · exact Nat.le_of_lt_succ (List.mem_range.mp hx)
        · obtain ⟨k, -, rfl⟩ := List.mem_map.mp hx
          exact r.address_le hlayout k
      · obtain ⟨k, -, rfl⟩ := List.mem_map.mp hx
        exact r.address_le hlayout _
    omega

omit hlayout in
/-- Every address once, and the address of every cycle. -/
theorem addresses_perm :
    r.addresses.Perm (List.range r.reach ++ (List.range r.height).map r.address) := by
  have hlt := r.lt_height
  have cycles : (List.range r.height).map r.address =
      (List.range (r.length + 1)).map r.address ++
        (List.range (r.height - (r.length + 1))).map fun j => r.address (r.length + 1 + j) := by
    have := List.range_add (n := r.length + 1) (m := r.height - (r.length + 1))
    rw [show r.length + 1 + (r.height - (r.length + 1)) = r.height by omega] at this
    rw [this, List.map_append, List.map_map]
    rfl
  have all : List.range r.reach =
      List.range (program.size + 1) ++ (List.range r.emptied).map (program.size + 1 + ·) := by
    rw [reach, List.range_add]
  rw [addresses, cycles, all]
  generalize (List.range r.emptied).map (program.size + 1 + ·) = empty
  generalize (List.range (r.height - (r.length + 1))).map
    (fun j => r.address (r.length + 1 + j)) = extra
  refine (((List.mergeSort_perm _ _).append_right extra).append_right empty).trans ?_
  calc List.range (program.size + 1) ++ (List.range (r.length + 1)).map r.address ++ extra ++ empty
      = List.range (program.size + 1) ++
        (((List.range (r.length + 1)).map r.address ++ extra) ++ empty) := by
          simp only [List.append_assoc]
    _ |>.Perm (List.range (program.size + 1) ++
        (empty ++ ((List.range (r.length + 1)).map r.address ++ extra))) :=
      List.perm_append_comm.append_left _
    _ = _ := by simp only [List.append_assoc]

theorem mem_addresses (x : Nat) : x ∈ r.addresses ↔ x < r.reach := by
  rw [r.addresses_perm.mem_iff, List.mem_append, List.mem_range]
  refine ⟨fun h => h.elim id fun hx => ?_, .inl⟩
  obtain ⟨k, -, rfl⟩ := List.mem_map.mp hx
  have := r.address_le hlayout k
  rw [reach]
  omega

/-- The padded instruction table lists the program's rows at the addresses. -/
theorem Padded.instruction_eq {t : Trace} (h : r.Padded t) (hsize : program.size < prime) :
    t.instruction = r.addresses.map (wordRow program) := by
  have table : r.trace.instruction = ((List.range (program.size + 1) ++
      (List.range (r.length + 1)).map r.address).mergeSort
        (fun x y => decide (x ≤ y))).map (wordRow program) := by
    have low (x : Nat) (hx : x ∈ List.range (program.size + 1) ++
        (List.range (r.length + 1)).map r.address) : x < prime := by
      rcases List.mem_append.mp hx with hx | hx
      · have := List.mem_range.mp hx
        omega
      · obtain ⟨k, -, rfl⟩ := List.mem_map.mp hx
        have := r.address_le hlayout k
        omega
    rw [trace, List.map_mergeSort (s := instructionLe), List.map_append, List.map_map]
    · simp only [Function.comp_def, r.instruction_row hlayout]
    · intro x hx y hy
      simp only [instructionLe, wordRow, Fp.val_ofNat_of_lt (low x hx),
        Fp.val_ofNat_of_lt (low y hy)]
  have tail : r.tail.map (·.instruction) =
      ((List.range (r.height - (r.length + 1))).map
        fun j => r.address (r.length + 1 + j)).map (wordRow program) := by
    rw [tail, List.map_map, List.map_map]
    exact List.map_congr_left fun j _ => r.instruction_row hlayout _
  have empty : ((List.range r.emptied).map fun j => (⟨.ofNat (program.size + 1 + j), 0, 0⟩ :
      InstructionRow)) = ((List.range r.emptied).map (program.size + 1 + ·)).map
        (wordRow program) := by
    rw [List.map_map]
    refine List.map_congr_left fun j _ => ?_
    have none (a : Nat) (ha : program.size ≤ a) : program.getD a 0 = 0 := by
      rw [Array.getD_eq_getD_getElem?, Array.getElem?_eq_none ha, Option.getD_none]
    rw [Function.comp_apply, wordRow, none _ (by omega), none _ (by omega)]
    rfl
  rw [h.instruction, table, tail, empty, addresses, List.map_append, List.map_append]

end Layout

section Table

variable {F : Type} [ExtensionField F] [LawfulExtension F] (ch : Challenges F) {t : Trace}
  (h : r.Padded t)

/-- The processor's instruction product ends on the product over all cycles. -/
theorem processorExt_ipa : r.processorExt ch (r.height - 1) .ipa =
    ((List.range r.height).map fun k => ch.instructionFactor (r.row k).instruction).prod := by
  have hlt := r.lt_height
  have hne : (List.range r.height).map r.row ≠ [] := by
    intro h0
    have := congrArg List.length h0
    simp at this
    omega
  have hlen : ((List.range r.height).map r.row).length = r.height := by simp
  have hlast := getD_product_last
    (fun row : ProcessorRow => ch.instructionFactor row.instruction) _ hne
  rw [hlen] at hlast
  refine hlast.trans ?_
  rw [List.map_map]
  rfl

theorem length_addresses : r.addresses.length = r.reach + r.height := by
  rw [r.addresses_perm.length_eq, List.length_append, List.length_map, List.length_range,
    List.length_range]

/-- Padding fills the instruction table up to a power of two. -/
theorem reach_add_height : r.reach + r.height = nextPowerOfTwo r.filled := by
  have := le_nextPowerOfTwo r.filled
  have hfilled : r.filled = program.size + 1 + r.height := rfl
  rw [reach, emptied]
  omega

variable {starts : Nat → Prop} (hlayout : Layout program [] starts) (hpad : r.PadFits)

include hlayout hpad

omit [ExtensionField F] [LawfulExtension F] hlayout in
theorem size_lt_prime : program.size < prime := by
  have := hpad.address
  omega

theorem exists_addresses : ∃ as, r.addresses = 0 :: as ∧
    0 :: firsts id 0 as = List.range r.reach ∧
    (repeats id 0 as).Perm ((List.range r.height).map r.address) ∧
    ∀ x ∈ 0 :: as, ∀ y ∈ 0 :: as,
      (wordRow program x).ip = (wordRow program y).ip → x = y := by
  have hpos : 0 < r.reach := by
    rw [reach]
    omega
  have sorted := r.pairwise_addresses hlayout
  have hmem := r.mem_addresses hlayout
  have hperm := r.addresses_perm
  have inj (x : Nat) (hx : x ∈ r.addresses) (y : Nat) (hy : y ∈ r.addresses)
      (hxy : (wordRow program x).ip = (wordRow program y).ip) : x = y := by
    have hx := (hmem x).mp hx
    have hy := (hmem y).mp hy
    have hreach : r.reach ≤ prime := hpad.address
    have hval := congrArg Fp.val hxy
    rwa [wordRow, wordRow, Fp.val_ofNat_of_lt (by omega), Fp.val_ofNat_of_lt (by omega)] at hval
  cases hcases : r.addresses with
  | nil =>
    have := r.length_addresses
    rw [hcases, List.length_nil] at this
    omega
  | cons a as =>
    rw [hcases] at sorted hperm inj
    simp only [hcases] at hmem
    have hzero : a = 0 := by
      rcases List.mem_cons.mp ((hmem 0).mpr hpos) with h0 | h0
      · exact h0.symm
      · exact Nat.le_zero.mp ((List.pairwise_cons.mp sorted).1 0 h0)
    subst hzero
    exact ⟨as, rfl, cons_firsts_eq_range sorted hmem, repeats_perm sorted hmem hperm, inj⟩

include h

omit [ExtensionField F] [LawfulExtension F] in
theorem exists_instruction_cons : ∃ as, t.instruction = wordRow program 0 ::
      as.map (wordRow program) ∧ 0 :: firsts id 0 as = List.range r.reach ∧
    (repeats id 0 as).Perm ((List.range r.height).map r.address) ∧
    ∀ x ∈ 0 :: as, ∀ y ∈ 0 :: as,
      (wordRow program x).ip = (wordRow program y).ip → x = y := by
  obtain ⟨as, haddresses, hrest⟩ := r.exists_addresses hlayout hpad
  refine ⟨as, ?_, hrest⟩
  rw [h.instruction_eq r hlayout (r.size_lt_prime hpad), haddresses, List.map_cons]

omit [ExtensionField F] [LawfulExtension F] in
/-- Every row repeats the one before it or stands at the next address. -/
theorem instruction_step {i : Nat} (hi : i + 1 < t.instruction.length) :
    t.instruction[i + 1] = t.instruction[i] ∨
      t.instruction[i + 1].ip = t.instruction[i].ip + 1 := by
  have heq := h.instruction_eq r hlayout (r.size_lt_prime hpad)
  have hi' : i + 1 < r.addresses.length := by rwa [heq, List.length_map] at hi
  simp only [heq, List.getElem_map]
  rcases getElem_succ_of_sorted (r.pairwise_addresses hlayout) (r.mem_addresses hlayout) hi'
    with hsame | hnext
  · exact .inl (by rw [hsame])
  · right
    rw [hnext, wordRow, wordRow, ← Fp.natCast_eq_ofNat, ← Fp.natCast_eq_ofNat]
    push_cast
    rfl

omit [ExtensionField F] [LawfulExtension F] in
theorem regular_instruction : Table.Regular .instruction t.instruction := by
  refine List.isChain_iff_getElem.mpr fun i hi => ?_
  rcases r.instruction_step h hlayout hpad hi with hsame | hnext
  · exact .inl (by rw [hsame, sub_self])
  · exact .inr (by rw [hnext, add_sub_cancel_left])

omit [ExtensionField F] [LawfulExtension F] in
theorem length_instruction_pos : 0 < t.instruction.length := by
  obtain ⟨as, hrows, -⟩ := r.exists_instruction_cons h hlayout hpad
  rw [hrows]
  exact Nat.succ_pos _

theorem instruction_transitions : ∀ c ∈ Table.transitions .instruction,
    (Table.columns ch .instruction t.instruction).SatisfiesTransition ch c := by
  refine Table.columns_satisfyTransitions ch (r.length_instruction_pos h hlayout hpad)
    (r.regular_instruction h hlayout hpad) fun c hc => ?_
  have hmem : c.expr ∈ Air.Instruction.rowConstraints := List.mem_map_of_mem hc
  refine (Table.columns_satisfiesTransition_iff ch).mpr fun i _ hi => ?_
  exact (Air.Instruction.rowConstraints_iff ch _ _).mpr
    (r.instruction_step h hlayout hpad hi) c.expr hmem

theorem instruction_boundary : ∀ p ∈ Table.boundary ch .instruction,
    (Table.columns ch .instruction t.instruction).SatisfiesPoint p := by
  have hpos := r.length_instruction_pos h hlayout hpad
  refine Table.columns_satisfyBoundary ch hpos (r.regular_instruction h hlayout hpad) ?_
  obtain ⟨as, hrows, -⟩ := r.exists_instruction_cons h hlayout hpad
  have start : t.instruction[0] = wordRow program 0 := by simp [hrows]
  change ∀ p ∈ (Air.Instruction.boundary ch).take 1, _
  simp only [Air.Instruction.boundary, List.take_succ_cons, List.take_zero,
    List.forall_mem_singleton]
  rw [Table.columns_satisfiesPoint_iff ch (t := .instruction) (k := 0) rfl hpos, start]
  simp only [PointConstraint.eval, List.foldl_cons, List.foldl_nil, neg_zero, zero_add, one_mul]
  exact ofBase_zero

/-- The ends of the two extension columns: the product over all cycles and the program's fold. -/
theorem instruction_ends :
    (Table.extension ch .instruction t.instruction .ppa).getD (t.instruction.length - 1) 0 =
        r.processorExt ch (r.height - 1) .ipa ∧
      (Table.extension ch .instruction t.instruction .pea).getD (t.instruction.length - 1) 0 =
        foldProgram ch program r.reach := by
  obtain ⟨as, hrows, hfirsts, hrepeats, hinj⟩ := r.exists_instruction_cons h hlayout hpad
  obtain ⟨hppa, hpea⟩ :=
    Air.Instruction.extension_ends ch (wordRow program 0) (as.map (wordRow program))
  obtain ⟨hcopies, hleaders⟩ := repeats_firsts_map InstructionRow.ip hinj
  rw [hrows, List.length_cons, Nat.add_sub_cancel, hppa, hpea, hcopies, hleaders, ← List.map_cons,
    hfirsts, foldProgram_eq, r.processorExt_ipa ch]
  refine ⟨?_, rfl⟩
  rw [((hrepeats.map _).map _).prod_eq, List.map_map, List.map_map]
  refine congrArg List.prod (List.map_congr_left fun k _ => ?_)
  rw [r.instruction_row hlayout]
  rfl

theorem instruction_terminal (terminals : Terminals F)
    (hpi : terminals.processorInstruction = r.processorExt ch (r.height - 1) .ipa)
    (hprogram : terminals.programEvaluation = foldProgram ch program r.reach) :
    ∀ p ∈ Air.Instruction.terminal terminals t.instruction.length,
      (Table.columns ch .instruction t.instruction).SatisfiesPoint p := by
  have hpos := r.length_instruction_pos h hlayout hpad
  obtain ⟨hppa, hpea⟩ := r.instruction_ends ch h hlayout hpad
  have hlt : t.instruction.length - 1 < t.instruction.length := Nat.sub_one_lt_of_lt hpos
  have hrow : (t.instruction.length : Int) - 1 = (t.instruction.length - 1 : Nat) := by omega
  simp only [Air.Instruction.terminal, List.forall_mem_cons, List.not_mem_nil, false_implies,
    implies_true, and_true]
  refine ⟨(Table.columns_satisfiesPoint_iff ch (t := .instruction) hrow hlt).mpr ?_,
    (Table.columns_satisfiesPoint_iff ch (t := .instruction) hrow hlt).mpr ?_⟩
  all_goals simp only [PointConstraint.eval, List.foldl_cons, List.foldl_nil, one_mul]
  · exact neg_add_eq_zero.mpr (hpi.trans hppa.symm)
  · exact neg_add_eq_zero.mpr (hprogram.trans hpea.symm)

end Table

end Run

end InstructionRun

end TapeStark
