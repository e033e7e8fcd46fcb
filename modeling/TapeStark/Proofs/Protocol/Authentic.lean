import Mathlib
import TapeStark.Proofs.Merkle
import TapeStark.Proofs.Protocol.Binding

/-!
What a tree that was built vouches for: a row at an index over a path leads to its root only if it
is the row it was built over, and the path its own, unless a message hashed for the check collides
with one hashed for the build. The tree is the one that the last successful build left behind.
-/

namespace TapeStark

namespace MerkleTree

variable (H : Hash)

def parentMessages (level : Array ByteArray) : List ByteArray :=
  (List.range (level.size / 2)).map fun i => Hash.nodeMessage
    (level.getD (2 * i) ByteArray.empty) (level.getD (2 * i + 1) ByteArray.empty)

def levelMessages : Nat → Array ByteArray → List ByteArray
  | 0, _ => []
  | k + 1, level => parentMessages level ++ levelMessages k (parents H 1 level)

/-- The messages hashed to build a tree: those of the leaves, and of the nodes above them. -/
def buildMessages (rows : Array ByteArray) : List ByteArray :=
  rows.toList.map Hash.leafMessage ++ levelMessages H rows.size.log2 (rows.map H.leaf)

theorem mem_parentMessages {level : Array ByteArray} {i : Nat} (hi : i / 2 < level.size / 2) :
    parentMessage (level.getD i ByteArray.empty) i (level.getD (i ^^^ 1) ByteArray.empty) ∈
      parentMessages level := by
  rw [parentMessage, pair_sibling Hash.nodeMessage]
  exact List.mem_map_of_mem (List.mem_range.mpr hi)

/-- The way from a node up its own path only hashes what was hashed for the levels above. -/
theorem climbMessages_siblings {k : Nat} {level : Array ByteArray} (hsize : level.size = 2 ^ k)
    {i : Nat} (hi : i < 2 ^ k) : climbMessages H (level.getD i ByteArray.empty) i
      (siblings (levelsFrom H 1 k level) i) ⊆ levelMessages H k level := by
  induction k generalizing level i with
  | zero => simp [levelsFrom, siblings, climbMessages]
  | succ k ih =>
    have hparents := size_parents_two_pow H 1 hsize
    have hparent : i / 2 < 2 ^ k := by rw [pow_succ] at hi; omega
    have habove := ih hparents hparent
    rw [size_parents] at hparents
    have hnode : H.digest (parentMessage (level.getD i ByteArray.empty) i
        (level.getD (i ^^^ 1) ByteArray.empty)) =
        (parents H 1 level).getD (i / 2) ByteArray.empty := by
      rw [parentMessage, pair_sibling Hash.nodeMessage, getD_parents H 1 (hparents ▸ hparent)]
      rfl
    rw [siblings_levelsFrom_succ, climbMessages, levelMessages, hnode]
    exact List.cons_subset.mpr ⟨List.mem_append_left _ (mem_parentMessages (hparents ▸ hparent)),
      List.subset_append_of_subset_right _ habove⟩

section Rows

variable {rows : Array ByteArray} {k : Nat} (hrows : rows.size = 2 ^ k)

include hrows

/-- The check of a row over its own path hashes nothing new. -/
theorem messages_siblings {i : Nat} (hi : i < 2 ^ k) :
    messages H (rows.getD i ByteArray.empty) i (siblings (ofRows H k rows).levels i) ⊆
      buildMessages H rows := by
  have hsize : (rows.map H.leaf).size = 2 ^ k := by rw [Array.size_map, hrows]
  have hleaf : (rows.map H.leaf).getD i ByteArray.empty = H.leaf (rows.getD i ByteArray.empty) := by
    simp [hrows, hi]
  have hmem : rows.getD i ByteArray.empty ∈ rows.toList := by
    simp [hrows, hi]
  rw [messages, buildMessages, hrows, Nat.log2_two_pow, ← hleaf]
  exact List.cons_subset.mpr ⟨List.mem_append_left _ (List.mem_map_of_mem hmem),
    List.subset_append_of_subset_right _ (climbMessages_siblings H hsize hi)⟩

/-- The way up a path is compared with a leaf's own way: a path that is too short starts above that
leaf, and one that is too long below it. -/
private theorem exists_own_or_collision {path : List ByteArray} {i : Nat} {leaf : ByteArray}
    (hfits : i < 2 ^ path.length)
    (hclimb : climb H (H.leaf leaf) i path = some (ofRows H k rows).root) :
    ∃ j < 2 ^ k, (path.length = k → j = i) ∧
      ((leaf = rows.getD j ByteArray.empty ∧ path = siblings (ofRows H k rows).levels j) ∨
        Collision H (messages H (rows.getD j ByteArray.empty) j
          (siblings (ofRows H k rows).levels j)) (messages H leaf i path)) := by
  rcases Nat.le_total path.length k with hle | hle
  · have hj : i * 2 ^ (k - path.length) < 2 ^ k := by
      calc i * 2 ^ (k - path.length)
          < 2 ^ path.length * 2 ^ (k - path.length) :=
            Nat.mul_lt_mul_of_pos_right hfits (Nat.two_pow_pos _)
        _ = 2 ^ k := by rw [← pow_add, Nat.add_sub_cancel' hle]
    obtain ⟨hlength, -, hown⟩ := climb_ofRows H hrows hj
    have hmeet := Nat.mul_div_cancel i (Nat.two_pow_pos (k - path.length))
    refine ⟨_, hj, fun hk => by rw [hk, Nat.sub_self, pow_zero, Nat.mul_one], ?_⟩
    exact (climb_leaf_binding (hlength.symm ▸ hle) (hlength.symm ▸ hmeet.symm) hclimb
      hown).imp_right Collision.symm
  · have hj : i / 2 ^ (path.length - k) < 2 ^ k := by
      rw [Nat.div_lt_iff_lt_mul (Nat.two_pow_pos _), ← pow_add, Nat.add_sub_cancel' hle]
      exact hfits
    obtain ⟨hlength, -, hown⟩ := climb_ofRows H hrows hj
    refine ⟨_, hj, fun hk => by rw [hk, Nat.sub_self, pow_zero, Nat.div_one], ?_⟩
    refine (climb_leaf_binding (hlength.symm ▸ hle) (by rw [hlength]) hown hclimb).imp_left ?_
    exact fun heq => ⟨heq.1.symm, heq.2.symm⟩

/-- What is verified below the root is a row over its own path, unless messages collide. -/
theorem eq_or_collision_of_verify {path : List ByteArray} {index : Int} {leaf : ByteArray}
    (h : verify H (ofRows H k rows).root path index leaf = true) :
    ((0 ≤ index ∧ index < (2 ^ k : Nat)) ∧ leaf = rows.getD index.toNat ByteArray.empty ∧
      path = siblings (ofRows H k rows).levels index.toNat) ∨
      Collision H (buildMessages H rows) (messages H leaf index.toNat path) := by
  obtain ⟨hindex, hfits, hclimb⟩ := (verify_iff H).mp h
  obtain ⟨j, hj, hplace, ⟨rfl, hpath⟩ | hcollision⟩ :=
    exists_own_or_collision H hrows hfits hclimb
  · have hlength : path.length = k := by rw [hpath, (climb_ofRows H hrows hj).1]
    obtain rfl := hplace hlength
    exact .inl ⟨by omega, rfl, hpath⟩
  · exact .inr (hcollision.mono (messages_siblings H hrows hj) (List.Subset.refl _))

end Rows

end MerkleTree

/-- The sources that no tree is built over, with the error they meet. -/
inductive LeafSource.Refused : LeafSource → Error → Prop
  | shape (shape : List Nat) (axes : shape.length ≠ 2) :
    Refused (.other shape axes) (.leafShape shape)
  | height (rows : Array (List Nat)) (h : ∀ k, rows.size ≠ 2 ^ k) :
    Refused (.rows rows) (.size (.treeHeight rows.size))

namespace WordTree

variable (H : Hash)

/-- What a sequence of builds leaves, each with a number of workers of its own. -/
def builds (calls : List (Int × LeafSource)) : Option WordTree :=
  calls.foldl (fun t call => (rebuild H call.1 t call.2).2) none

/-- A tree with this root has a path for each of its rows, and for nothing else unless messages
collide. -/
structure Authenticates (t : Option WordTree) (root : ByteArray) (rows : Array (List Nat))
    (k : Nat) : Prop where
  root_eq : root? t = .ok root
  own : ∀ i : Nat, i < 2 ^ k → ∃ path, path? t i = .ok path ∧
    MerkleTree.verify H root path i (rowBytes (rows.getD i [])) = true
  outside : ∀ i : Int, ¬ (0 ≤ i ∧ i < (2 ^ k : Nat)) → path? t i = .error (.leafIndex i (2 ^ k))
  only : ∀ (path : List ByteArray) (index : Int) (leaf : ByteArray),
    MerkleTree.verify H root path index leaf = true →
      ((0 ≤ index ∧ index < (2 ^ k : Nat)) ∧ leaf = rowBytes (rows.getD index.toNat []) ∧
        path? t index = .ok path) ∨
        Collision H (MerkleTree.buildMessages H (rows.map rowBytes))
          (MerkleTree.messages H leaf index.toNat path)

variable {H} in
/-- A build fails on what is refused alone. -/
theorem build_eq_error {workers : Int} {source : LeafSource} {e : Error} :
    build H workers source = .error e ↔ source.Refused e := by
  cases source with
  | other shape axes =>
    rw [build]
    constructor
    · rintro h
      obtain rfl := Except.error.inj h
      exact .shape shape axes
    · rintro ⟨⟩
      rfl
  | rows rows =>
    by_cases hrows : ∃ k, rows.size = 2 ^ k
    · obtain ⟨k, hk⟩ := hrows
      have hbytes : (rows.map rowBytes).size = 2 ^ k := by rw [Array.size_map, hk]
      rw [build, MerkleTree.build_eq H hbytes, ok_bind]
      constructor
      · exact fun h => nomatch h
      · rintro ⟨⟩
        rename_i h
        exact absurd hk (h k)
    · have hlog : ¬ Nat.pow 2 (rows.map rowBytes).size.log2 = (rows.map rowBytes).size := by
        rw [Array.size_map]
        exact fun h => hrows ⟨_, h.symm⟩
      rw [build, MerkleTree.build]
      dsimp only
      rw [if_neg hlog, error_bind, Array.size_map]
      constructor
      · intro h
        obtain rfl := Except.error.inj h
        exact .height rows (not_exists.mp hrows)
      · rintro ⟨⟩
        rfl

/-- A build that fails keeps the tree. -/
theorem rebuild_of_error {workers : Int} {source : LeafSource} {e : Error}
    (h : build H workers source = .error e) (old : Option WordTree) :
    rebuild H workers old source = (.error e, old) := by
  rw [rebuild, h]

theorem fst_rebuild_eq_error {workers : Int} {old : Option WordTree} {source : LeafSource}
    {e : Error} : (rebuild H workers old source).1 = .error e ↔
      build H workers source = .error e := by
  rw [rebuild]
  cases build H workers source <;> simp

section Rows

variable {rows : Array (List Nat)} {k : Nat} (hrows : rows.size = 2 ^ k)

include hrows

theorem rebuild_rows (workers : Int) (old : Option WordTree) :
    rebuild H workers old (.rows rows) = (.ok (MerkleTree.ofRows H k (rows.map rowBytes)).root,
      some ⟨MerkleTree.ofRows H k (rows.map rowBytes), rows⟩) := by
  have hbytes : (rows.map rowBytes).size = 2 ^ k := by rw [Array.size_map, hrows]
  rw [rebuild, build, MerkleTree.build_eq H hbytes]
  rfl

/-- The tree is the one of the last build that did not fail. -/
theorem builds_eq {later : List (Int × LeafSource)}
    (hlater : ∀ call ∈ later, ∃ e, build H call.1 call.2 = .error e)
    (earlier : List (Int × LeafSource)) (workers : Int) :
    builds H (earlier ++ (workers, .rows rows) :: later) =
      some ⟨MerkleTree.ofRows H k (rows.map rowBytes), rows⟩ := by
  rw [builds, List.foldl_append, List.foldl_cons, rebuild_rows H hrows]
  induction later with
  | nil => rfl
  | cons call later ih =>
    obtain ⟨⟨e, hfirst⟩, hrest⟩ := List.forall_mem_cons.mp hlater
    rw [List.foldl_cons, rebuild_of_error H hfirst]
    exact ih hrest

theorem authenticates_ofRows :
    Authenticates H (some ⟨MerkleTree.ofRows H k (rows.map rowBytes), rows⟩)
      (MerkleTree.ofRows H k (rows.map rowBytes)).root rows k := by
  have hbytes : (rows.map rowBytes).size = 2 ^ k := by rw [Array.size_map, hrows]
  have hrow {i : Nat} (hi : i < 2 ^ k) :
      (rows.map rowBytes).getD i ByteArray.empty = rowBytes (rows.getD i []) := by
    simp [hrows, hi]
  refine ⟨rfl, fun i hi => ?_, fun i hi => ?_, fun path index leaf h => ?_⟩
  · have hindex : (0 : Int) ≤ i ∧ (i : Int) < (2 ^ k : Nat) := by omega
    refine ⟨_, (MerkleTree.path_ofRows H hbytes i).trans (if_pos hindex), ?_⟩
    rw [← hrow hi]
    exact MerkleTree.verify_ofRows H hbytes hi
  · exact (MerkleTree.path_ofRows H hbytes i).trans (if_neg hi)
  · refine (MerkleTree.eq_or_collision_of_verify H hbytes h).imp_left ?_
    rintro ⟨hindex, rfl, rfl⟩
    refine ⟨hindex, hrow (by omega), ?_⟩
    exact (MerkleTree.path_ofRows H hbytes index).trans (if_pos hindex)

end Rows

/-- After any builds the tree authenticates exactly the rows of the last one that did not fail, with
a root that any number of workers computes. A build fails on what is refused alone, and then keeps
the tree. -/
theorem authenticates_of_builds {rows : Array (List Nat)} {k : Nat} (hrows : rows.size = 2 ^ k)
    {later : List (Int × LeafSource)}
    (hlater : ∀ call ∈ later, ∃ e, build H call.1 call.2 = .error e)
    (earlier : List (Int × LeafSource)) :
    (∃ root, ∀ workers : Int, (∀ old, (rebuild H workers old (.rows rows)).1 = .ok root) ∧
      Authenticates H (builds H (earlier ++ (workers, .rows rows) :: later)) root rows k) ∧
    ∀ (workers : Int) (old : Option WordTree) (source : LeafSource) (e : Error),
      ((rebuild H workers old source).1 = .error e ↔ source.Refused e) ∧
      ((rebuild H workers old source).1 = .error e → (rebuild H workers old source).2 = old) := by
  refine ⟨⟨(MerkleTree.ofRows H k (rows.map rowBytes)).root, fun workers => ⟨fun old => ?_, ?_⟩⟩,
    fun workers old source e => ⟨?_, fun h => ?_⟩⟩
  · rw [rebuild_rows H hrows]
  · rw [builds_eq H hrows hlater]
    exact authenticates_ofRows H hrows
  · rw [fst_rebuild_eq_error, build_eq_error]
  · rw [rebuild_of_error H ((fst_rebuild_eq_error H).mp h)]

/-- Two rows, after a vector that was refused and before three rows that are. -/
theorem authenticates_of_builds_of_pair : ∃ root, Authenticates .blake2b
    (builds .blake2b [(3, .other [8] (by decide)), (4, .rows #[[1], [2]]),
      (1, .rows #[[1], [2], [3]])]) root #[[1], [2]] 1 := by
  have hpair : (#[[1], [2]] : Array (List Nat)).size = 2 ^ 1 := rfl
  have hthree : ∀ k, (#[[1], [2], [3]] : Array (List Nat)).size ≠ 2 ^ k := by
    intro k
    cases k with
    | zero => decide
    | succ k =>
      simp only [List.size_toArray, List.length_cons, List.length_nil, pow_succ]
      omega
  have hlater : ∀ call ∈ [((1 : Int), LeafSource.rows #[[1], [2], [3]])],
      ∃ e, build .blake2b call.1 call.2 = .error e := by
    rintro call hcall
    obtain rfl := List.mem_singleton.mp hcall
    exact ⟨_, build_eq_error.mpr (.height _ hthree)⟩
  obtain ⟨⟨root, hroot⟩, -⟩ := authenticates_of_builds .blake2b hpair hlater
    [(3, .other [8] (by decide))]
  exact ⟨root, (hroot 4).2⟩

end WordTree

end TapeStark
