import Mathlib
import TapeStark.Merkle
import TapeStark.Proofs.Basic

/-! A built tree authenticates its rows: the siblings of a leaf lead back to the root. -/

namespace TapeStark

private theorem flatMap_batches (batch n m : Nat) : ((List.range m).flatMap fun i =>
    List.range' (batch * i) (min (batch * i + batch) n - batch * i)) =
    List.range (min (batch * m) n) := by
  induction m with
  | zero => simp
  | succ m ih =>
    rw [List.range_succ, List.flatMap_append, ih, List.flatMap_singleton, mul_add_one]
    rcases Nat.le_total (batch * m) n with hle | hge
    · rw [min_eq_left hle, List.range_eq_range', List.range_eq_range']
      have happend := List.range'_append_1 (s := 0) (m := batch * m)
        (n := min (batch * m + batch) n - batch * m)
      rw [Nat.zero_add] at happend
      rw [happend]
      congr 1
      omega
    · rw [min_eq_right hge, min_eq_right (hge.trans (Nat.le_add_right _ _)),
        Nat.sub_eq_zero_of_le hge, List.range'_zero, List.append_nil]

/-- Batches only split the range up. -/
theorem batched_eq {α : Type} (workers n : Nat) (f : Nat → α) :
    batched workers n f = ((List.range n).map f).toArray := by
  rw [batched]
  have hpos : 0 < max 256 ((n + workers - 1) / workers) :=
    (show 0 < 256 by decide).trans_le (le_max_left _ _)
  generalize max 256 ((n + workers - 1) / workers) = batch at hpos
  have hcover : n ≤ batch * ((n + batch - 1) / batch) := by
    have := Nat.div_add_mod (n + batch - 1) batch
    have := Nat.mod_lt (n + batch - 1) hpos
    omega
  have hbatches := congrArg (List.map f) (flatMap_batches batch n ((n + batch - 1) / batch))
  rw [min_eq_right hcover, List.map_flatMap] at hbatches
  dsimp only
  rw [List.flatMap_map]
  exact congrArg List.toArray hbatches

namespace MerkleTree

variable (H : Hash) (workers : Nat)

theorem size_node (left right : ByteArray) : (H.node left right).size = Hash.size :=
  H.size_digest _

theorem parents_eq (level : Array ByteArray) : parents H workers level =
    ((List.range (level.size / 2)).map fun i => H.node (level.getD (2 * i) ByteArray.empty)
      (level.getD (2 * i + 1) ByteArray.empty)).toArray := batched_eq _ _ _

theorem size_parents (level : Array ByteArray) :
    (parents H workers level).size = level.size / 2 := by
  simp [parents_eq]

theorem getD_parents {level : Array ByteArray} {i : Nat} (hi : i < level.size / 2) (d : ByteArray) :
    (parents H workers level).getD i d = H.node (level.getD (2 * i) ByteArray.empty)
      (level.getD (2 * i + 1) ByteArray.empty) := by
  simp [parents_eq, hi]

/-- A node and its sibling are the two below their parent, in the order that the index tells. -/
theorem pair_sibling {α : Type} (f : ByteArray → ByteArray → α) (level : Array ByteArray) (i : Nat) :
    (if i % 2 = 1
      then f (level.getD (i ^^^ 1) ByteArray.empty) (level.getD i ByteArray.empty)
      else f (level.getD i ByteArray.empty) (level.getD (i ^^^ 1) ByteArray.empty)) =
      f (level.getD (2 * (i / 2)) ByteArray.empty)
        (level.getD (2 * (i / 2) + 1) ByteArray.empty) := by
  rcases Nat.mod_two_eq_zero_or_one i with heven | hodd
  · have hsibling : i ^^^ 1 = i + 1 := Nat.xor_one_of_even (Nat.even_iff.mpr heven)
    rw [if_neg (by omega), hsibling, show 2 * (i / 2) = i by omega]
  · have hsibling : i ^^^ 1 = i - 1 := Nat.xor_one_of_odd (Nat.odd_iff.mpr hodd)
    rw [if_pos hodd, hsibling, show 2 * (i / 2) = i - 1 by omega, show i - 1 + 1 = i by omega]

/-- The levels are the same however many workers hash them. -/
theorem levelsFrom_workers (workers' k : Nat) (level : Array ByteArray) :
    levelsFrom H workers k level = levelsFrom H workers' k level := by
  induction k generalizing level with
  | zero => rfl
  | succ k ih => rw [levelsFrom, levelsFrom, ih, parents_eq, parents_eq]

theorem levelsFrom_ne_nil (k : Nat) (level : Array ByteArray) : levelsFrom H workers k level ≠ [] := by
  cases k <;> exact List.cons_ne_nil _ _

theorem siblings_levelsFrom_succ (k : Nat) (level : Array ByteArray) (i : Nat) :
    siblings (levelsFrom H workers (k + 1) level) i = level.getD (i ^^^ 1) ByteArray.empty ::
      siblings (levelsFrom H workers k (parents H workers level)) (i / 2) := by
  obtain ⟨next, above, habove⟩ := List.exists_cons_of_ne_nil
    (levelsFrom_ne_nil H workers k (parents H workers level))
  rw [levelsFrom, habove, siblings]
  simp

/-- The root of the levels above is the root. -/
theorem getLastD_levelsFrom_succ (k : Nat) (level : Array ByteArray) :
    (levelsFrom H workers (k + 1) level).getLastD #[] =
      (levelsFrom H workers k (parents H workers level)).getLastD #[] := by
  obtain ⟨next, above, habove⟩ := List.exists_cons_of_ne_nil
    (levelsFrom_ne_nil H workers k (parents H workers level))
  rw [levelsFrom, habove]
  simp

theorem size_parents_two_pow {level : Array ByteArray} {k : Nat} (h : level.size = 2 ^ (k + 1)) :
    (parents H workers level).size = 2 ^ k := by
  rw [size_parents, h, pow_succ, Nat.mul_div_cancel _ (by decide)]

def Digests (level : Array ByteArray) : Prop := ∀ d ∈ level, d.size = Hash.size

theorem digests_parents (level : Array ByteArray) : Digests (parents H workers level) := by
  intro d hd
  rw [parents_eq, List.mem_toArray] at hd
  obtain ⟨i, -, rfl⟩ := List.mem_map.mp hd
  exact size_node H _ _

theorem Digests.size_getD {level : Array ByteArray} (h : Digests level) {i : Nat}
    (hi : i < level.size) : (level.getD i ByteArray.empty).size = Hash.size := by
  rw [Array.getD_eq_getD_getElem?, Array.getElem?_eq_getElem hi]
  exact h _ (Array.getElem_mem hi)

/-- The siblings of a node lead to the root, one for each level below it. -/
theorem climb_siblings {k : Nat} {level : Array ByteArray} (hsize : level.size = 2 ^ k)
    (hlevel : Digests level) {i : Nat} (hi : i < 2 ^ k) :
    (siblings (levelsFrom H workers k level) i).length = k ∧
      (∀ d ∈ siblings (levelsFrom H workers k level) i, d.size = Hash.size) ∧
      climb H (level.getD i ByteArray.empty) i (siblings (levelsFrom H workers k level) i) =
        some (((levelsFrom H workers k level).getLastD #[]).getD 0 ByteArray.empty) := by
  induction k generalizing level i with
  | zero =>
    obtain rfl : i = 0 := by simpa using hi
    refine ⟨rfl, ?_, rfl⟩
    simp [levelsFrom, siblings]
  | succ k ih =>
    have hparents := size_parents_two_pow H workers hsize
    have hparent : i / 2 < 2 ^ k := by rw [pow_succ] at hi; omega
    obtain ⟨hlength, hdigests, hclimb⟩ := ih hparents (digests_parents H workers level) hparent
    have hsibling : (level.getD (i ^^^ 1) ByteArray.empty).size = Hash.size :=
      hlevel.size_getD (hsize ▸ Nat.xor_lt_two_pow hi (Nat.one_lt_two_pow (Nat.succ_ne_zero k)))
    rw [size_parents] at hparents
    rw [siblings_levelsFrom_succ, getLastD_levelsFrom_succ, climb, if_pos hsibling,
      pair_sibling H.node, ← getD_parents H workers (hparents ▸ hparent)]
    refine ⟨by rw [List.length_cons, hlength], ?_, hclimb⟩
    exact List.forall_mem_cons.mpr ⟨hsibling, hdigests⟩

theorem size_root {k : Nat} {level : Array ByteArray} (hsize : level.size = 2 ^ k)
    (hlevel : Digests level) :
    (((levelsFrom H workers k level).getLastD #[]).getD 0 ByteArray.empty).size = Hash.size := by
  induction k generalizing level with
  | zero => exact hlevel.size_getD (by rw [hsize]; decide)
  | succ k ih =>
    rw [getLastD_levelsFrom_succ]
    exact ih (size_parents_two_pow H workers hsize) (digests_parents H workers level)

theorem digests_leaves (rows : Array ByteArray) : Digests (rows.map H.leaf) := by
  intro d hd
  obtain ⟨row, -, rfl⟩ := Array.mem_map.mp hd
  exact H.size_digest _

def ofRows (k : Nat) (rows : Array ByteArray) : MerkleTree := ⟨levelsFrom H 1 k (rows.map H.leaf)⟩

section Rows

variable {rows : Array ByteArray} {k : Nat} (hrows : rows.size = 2 ^ k)

include hrows

/-- Any number of workers builds the same tree. -/
theorem build_eq (workers : Int) : build H workers rows = .ok (ofRows H k rows) := by
  have hlog : rows.size.log2 = k := by rw [hrows, Nat.log2_two_pow]
  have hleaves : (batched (max workers 1).toNat rows.size fun i =>
      H.leaf (rows.getD i ByteArray.empty)) = rows.map H.leaf := by
    rw [batched_eq]
    apply Array.ext
    · simp
    · intro i hi hi'
      have : i < rows.size := by simpa using hi'
      simp [this]
  rw [build, hlog, Nat.pow_eq, if_pos hrows.symm, hleaves]
  exact congrArg (fun levels => Except.ok (MerkleTree.mk levels)) (levelsFrom_workers H _ 1 k _)

theorem path_ofRows (i : Int) : (ofRows H k rows).path i = if 0 ≤ i ∧ i < (2 ^ k : Nat)
    then .ok (siblings (ofRows H k rows).levels i.toNat) else .error (.leafIndex i (2 ^ k)) := by
  have hheight : (ofRows H k rows).height = 2 ^ k := by
    rw [← hrows, ← Array.size_map (f := H.leaf)]
    cases k <;> rfl
  rw [path, hheight]

/-- A row's own path leads to the root. -/
theorem climb_ofRows {i : Nat} (hi : i < 2 ^ k) :
    (siblings (ofRows H k rows).levels i).length = k ∧
      (∀ d ∈ siblings (ofRows H k rows).levels i, d.size = Hash.size) ∧
      climb H (H.leaf (rows.getD i ByteArray.empty)) i (siblings (ofRows H k rows).levels i) =
        some (ofRows H k rows).root := by
  have hleaf : (rows.map H.leaf).getD i ByteArray.empty = H.leaf (rows.getD i ByteArray.empty) := by
    simp [hrows, hi]
  rw [← hleaf]
  exact climb_siblings H 1 (by rw [Array.size_map, hrows]) (digests_leaves H rows) hi

theorem verify_ofRows {i : Nat} (hi : i < 2 ^ k) : verify H (ofRows H k rows).root
    (siblings (ofRows H k rows).levels i) i (rows.getD i ByteArray.empty) = true := by
  obtain ⟨hlength, -, hclimb⟩ := climb_ofRows H hrows hi
  simp only [verify, Int.toNat_natCast, hlength, hclimb, Nat.pow_eq, Nat.div_eq_of_lt hi]
  simp

/-- Over a power of two of rows a tree is built, and its paths authenticate them. -/
theorem exists_build (workers : Int) :
    ∃ t, build H workers rows = .ok t ∧ t.root.size = Hash.size ∧ ∀ i : Nat, i < 2 ^ k →
      ∃ path, t.path i = .ok path ∧ path.length = k ∧ (∀ d ∈ path, d.size = Hash.size) ∧
        verify H t.root path i (rows.getD i ByteArray.empty) = true := by
  refine ⟨_, build_eq H hrows workers,
    size_root H 1 (by rw [Array.size_map, hrows]) (digests_leaves H rows), fun i hi => ?_⟩
  obtain ⟨hlength, hpath, -⟩ := climb_ofRows H hrows hi
  have hindex : (0 : Int) ≤ i ∧ (i : Int) < (2 ^ k : Nat) := by omega
  exact ⟨_, (path_ofRows H hrows i).trans (if_pos hindex), hlength, hpath, verify_ofRows H hrows hi⟩

end Rows

end MerkleTree

end TapeStark
