import Mathlib
import TapeStark.Merkle
import TapeStark.Proofs.Stream.Action
import TapeStark.Proofs.Stream.Replay

/-! What a root binds. Two openings of one index that both lead to the root agree, or messages
hashed for them collide, if their paths are equally long or the index is zero. No other openings
are bound: a path says nothing about the height of the tree, and at two lengths the bits of one
index turn off to two leaves. -/

namespace TapeStark

/-- Two different messages, one of each list, with the same digest. -/
def Collision (H : Hash) (ms ms' : List ByteArray) : Prop :=
  ∃ m ∈ ms, ∃ m' ∈ ms', m ≠ m' ∧ H.digest m = H.digest m'

instance (H : Hash) (ms ms' : List ByteArray) : Decidable (Collision H ms ms') :=
  inferInstanceAs (Decidable (∃ m ∈ ms, ∃ m' ∈ ms', m ≠ m' ∧ H.digest m = H.digest m'))

namespace Collision

variable {H : Hash} {ms ms' ns ns' : List ByteArray}

theorem symm (h : Collision H ms ms') : Collision H ms' ms := by
  obtain ⟨m, hm, m', hm', hne, heq⟩ := h
  exact ⟨m', hm', m, hm, hne.symm, heq.symm⟩

theorem mono (h : Collision H ms ms') (hms : ms ⊆ ns) (hms' : ms' ⊆ ns') : Collision H ns ns' := by
  obtain ⟨m, hm, m', hm', hdiffer⟩ := h
  exact ⟨m, hms hm, m', hms' hm', hdiffer⟩

/-- Messages with the same digest are the same, or collide. -/
theorem eq_or {m m' : ByteArray} (h : H.digest m = H.digest m') (hm : m ∈ ms) (hm' : m' ∈ ms') :
    m = m' ∨ Collision H ms ms' :=
  or_iff_not_imp_left.mpr fun hne => ⟨m, hm, m', hm', hne, h⟩

end Collision

namespace Hash

def constant : Hash where
  digest _ := (List.replicate 32 0).toByteArray
  work _ := (List.replicate 32 0).toByteArray
  size_digest _ := by simp
  size_work _ := by simp

theorem leafMessage_injective {row row' : ByteArray} (h : leafMessage row = leafMessage row') :
    row = row' := (ByteArray.append_right_inj _).mp h

theorem nodeMessage_inj {left right left' right' : ByteArray} (hsize : left.size = left'.size)
    (h : nodeMessage left right = nodeMessage left' right') : left = left' ∧ right = right' := by
  rw [nodeMessage, nodeMessage, ByteArray.append_assoc, ByteArray.append_assoc,
    ByteArray.append_right_inj, ByteArray.ext_iff, ByteArray.data_append, ByteArray.data_append] at h
  obtain ⟨hleft, hright⟩ := Array.append_inj h hsize
  exact ⟨ByteArray.ext hleft, ByteArray.ext hright⟩

theorem leafMessage_ne_nodeMessage (row left right : ByteArray) :
    leafMessage row ≠ nodeMessage left right := by
  intro h
  have first := congrArg (fun m : ByteArray => m.data.toList.head?) h
  simp [leafMessage, nodeMessage] at first

end Hash

namespace MerkleTree

variable (H : Hash)

def parentMessage (node : ByteArray) (i : Nat) (sibling : ByteArray) : ByteArray :=
  if i % 2 = 1 then Hash.nodeMessage sibling node else Hash.nodeMessage node sibling

/-- The messages hashed on the way from a node up a path. -/
def climbMessages : ByteArray → Nat → List ByteArray → List ByteArray
  | _, _, [] => []
  | node, i, sibling :: rest =>
    let message := parentMessage node i sibling
    message :: climbMessages (H.digest message) (i / 2) rest

/-- The messages hashed to check a row: its leaf, and the nodes above it. -/
def messages (row : ByteArray) (i : Nat) (path : List ByteArray) : List ByteArray :=
  Hash.leafMessage row :: climbMessages H (H.leaf row) i path

theorem climb_cons (node : ByteArray) (i : Nat) (sibling : ByteArray) (rest : List ByteArray) :
    climb H node i (sibling :: rest) =
      if sibling.size = Hash.size then climb H (H.digest (parentMessage node i sibling)) (i / 2) rest
      else none := by
  rw [climb, parentMessage, apply_ite H.digest]
  rfl

theorem climb_append (node : ByteArray) (i : Nat) (path rest : List ByteArray) :
    climb H node i (path ++ rest) =
      (climb H node i path).bind fun above => climb H above (i / 2 ^ path.length) rest := by
  induction path generalizing node i with
  | nil => simp [climb]
  | cons sibling path ih =>
    rw [List.cons_append, climb_cons, climb_cons]
    split
    · rw [ih, List.length_cons, Nat.div_div_eq_div_mul, pow_succ']
    · rfl

theorem climbMessages_append {node above : ByteArray} {i : Nat} {path : List ByteArray}
    (h : climb H node i path = some above) (rest : List ByteArray) :
    climbMessages H node i (path ++ rest) =
      climbMessages H node i path ++ climbMessages H above (i / 2 ^ path.length) rest := by
  induction path generalizing node i with
  | nil =>
    obtain rfl := Option.some.inj h
    simp [climbMessages]
  | cons sibling path ih =>
    rw [climb_cons] at h
    split at h
    · simp only [List.cons_append, climbMessages]
      rw [ih h, List.length_cons, Nat.div_div_eq_div_mul, pow_succ']
    · cases h

theorem verify_iff {root row : ByteArray} {path : List ByteArray} {i : Int} :
    verify H root path i row = true ↔
      0 ≤ i ∧ i.toNat < 2 ^ path.length ∧ climb H (H.leaf row) i.toNat path = some root := by
  have hpos : 0 < 2 ^ path.length := Nat.two_pow_pos _
  simp only [verify, Bool.and_eq_true, decide_eq_true_eq, and_assoc, Nat.pow_eq,
    Nat.div_eq_zero_iff, hpos.ne', false_or, Option.any_eq_true, ByteArray.ext_iff.symm]
  constructor
  · rintro ⟨h0, hlt, node, hclimb, rfl⟩
    exact ⟨h0, hlt, hclimb⟩
  · rintro ⟨h0, hlt, hclimb⟩
    exact ⟨h0, hlt, root, hclimb, rfl⟩

section Bound

variable {H} {root : ByteArray}

theorem parentMessage_inj {node node' sibling sibling' : ByteArray} {i : Nat}
    (hnode : node.size = node'.size) (hsibling : sibling.size = sibling'.size)
    (h : parentMessage node i sibling = parentMessage node' i sibling') :
    node = node' ∧ sibling = sibling' := by
  rw [parentMessage, parentMessage] at h
  split at h
  · exact (Hash.nodeMessage_inj hsibling h).symm
  · exact Hash.nodeMessage_inj hnode h

/-- Nodes with one root above them, over paths of one length, are the same and so are their paths,
unless messages on the way collide. -/
theorem climb_binding {node node' : ByteArray} {i : Nat} {path path' : List ByteArray}
    (hnode : node.size = Hash.size) (hnode' : node'.size = Hash.size)
    (hlength : path.length = path'.length) (h : climb H node i path = some root)
    (h' : climb H node' i path' = some root) : (node = node' ∧ path = path') ∨
      Collision H (climbMessages H node i path) (climbMessages H node' i path') := by
  induction path generalizing node node' i path' with
  | nil =>
    obtain rfl := List.length_eq_zero_iff.mp hlength.symm
    exact .inl ⟨Option.some.inj (h.trans h'.symm), rfl⟩
  | cons sibling path ih =>
    obtain ⟨sibling', path', rfl⟩ := List.exists_cons_of_length_eq_add_one hlength.symm
    rw [climb_cons] at h h'
    split at h
    · split at h'
      · rename_i hs hs'
        rcases ih (H.size_digest _) (H.size_digest _) (Nat.succ.inj hlength) h h' with
          ⟨heq, rfl⟩ | hcollision
        · refine (Collision.eq_or heq (List.mem_cons_self ..) (List.mem_cons_self ..)).imp_left
            fun hmessage => ?_
          obtain ⟨rfl, rfl⟩ := parentMessage_inj (hnode.trans hnode'.symm) (hs.trans hs'.symm)
            hmessage
          exact ⟨rfl, rfl⟩
        · exact .inr (hcollision.mono (List.subset_cons_self _ _) (List.subset_cons_self _ _))
      · cases h'
    · cases h

/-- What is above a node by at least one step is the digest of two nodes. -/
theorem exists_nodeMessage {node above : ByteArray} {i : Nat} {path : List ByteArray}
    (hpath : path ≠ []) (h : climb H node i path = some above) :
    ∃ left right, Hash.nodeMessage left right ∈ climbMessages H node i path ∧
      above = H.digest (Hash.nodeMessage left right) := by
  induction path generalizing node i with
  | nil => exact absurd rfl hpath
  | cons sibling path ih =>
    rw [climb_cons] at h
    split at h
    · by_cases hempty : path = []
      · subst hempty
        obtain rfl := Option.some.inj h
        refine ⟨if i % 2 = 1 then sibling else node, if i % 2 = 1 then node else sibling, ?_⟩
        split <;> simp_all [climbMessages, parentMessage]
      · obtain ⟨left, right, hmem, heq⟩ := ih hempty h
        exact ⟨left, right, List.mem_cons_of_mem _ hmem, heq⟩
    · cases h

/-- A path that joins a longer one joins it at a node, but starts from a leaf itself. -/
private theorem collision_of_shorter {row row' : ByteArray} {i i' : Nat}
    {path path' : List ByteArray} (hshorter : path.length < path'.length)
    (hindex : i = i' / 2 ^ (path'.length - path.length))
    (h : climb H (H.leaf row) i path = some root)
    (h' : climb H (H.leaf row') i' path' = some root) :
    Collision H (messages H row i path) (messages H row' i' path') := by
  obtain ⟨low, high, rfl, hhigh⟩ : ∃ low high, path' = low ++ high ∧ path.length = high.length :=
    ⟨path'.take (path'.length - path.length), path'.drop (path'.length - path.length),
      (List.take_append_drop ..).symm, by rw [List.length_drop]; omega⟩
  have hlow : low ≠ [] := by
    rintro rfl
    simp [hhigh] at hshorter
  have hmeet : i' / 2 ^ low.length = i := by
    rw [hindex, List.length_append, hhigh, Nat.add_sub_cancel]
  rw [climb_append, hmeet] at h'
  obtain ⟨above, habove, h'⟩ := Option.bind_eq_some_iff.mp h'
  obtain ⟨left, right, hmem, rfl⟩ := exists_nodeMessage hlow habove
  rw [messages, messages, climbMessages_append H habove high, hmeet]
  rcases climb_binding (H.size_digest _) (H.size_digest _) hhigh h h' with ⟨heq, -⟩ | hcollision
  · exact ⟨Hash.leafMessage row, List.mem_cons_self .., Hash.nodeMessage left right,
      List.mem_cons_of_mem _ (List.mem_append_left _ hmem),
      Hash.leafMessage_ne_nodeMessage _ _ _, heq⟩
  · exact hcollision.mono (List.subset_cons_self _ _)
      (List.subset_cons_of_subset _ (List.subset_append_right _ _))

/-- Two paths from leaves to one root, one of them from below the place of the other one, are the
same and so are their rows, unless messages hashed for them collide. -/
theorem climb_leaf_binding {row row' : ByteArray} {i i' : Nat} {path path' : List ByteArray}
    (hle : path.length ≤ path'.length) (hindex : i = i' / 2 ^ (path'.length - path.length))
    (h : climb H (H.leaf row) i path = some root)
    (h' : climb H (H.leaf row') i' path' = some root) :
    (row = row' ∧ path = path') ∨
      Collision H (messages H row i path) (messages H row' i' path') := by
  rcases hle.lt_or_eq with hlt | hlength
  · exact .inr (collision_of_shorter hlt hindex h h')
  · obtain rfl : i = i' := by rw [hindex, hlength, Nat.sub_self, pow_zero, Nat.div_one]
    rcases climb_binding (H.size_digest _) (H.size_digest _) hlength h h' with
      ⟨heq, rfl⟩ | hcollision
    · exact (Collision.eq_or heq (List.mem_cons_self ..) (List.mem_cons_self ..)).imp_left
        fun hmessage => ⟨Hash.leafMessage_injective hmessage, rfl⟩
    · exact .inr (hcollision.mono (List.subset_cons_self _ _) (List.subset_cons_self _ _))

/-- Rows verified at one index, over paths of one length or at index zero, are the same unless
messages hashed for them collide. -/
theorem verify_binding {row row' : ByteArray} {path path' : List ByteArray} {i : Int}
    (hpaths : path.length = path'.length ∨ i = 0) (h : verify H root path i row = true)
    (h' : verify H root path' i row' = true) :
    row = row' ∨ Collision H (messages H row i.toNat path) (messages H row' i.toNat path') := by
  obtain ⟨-, -, h⟩ := (verify_iff H).mp h
  obtain ⟨-, -, h'⟩ := (verify_iff H).mp h'
  have hindex (d : Nat) (hd : path.length = path'.length → d = 0) :
      i.toNat = i.toNat / 2 ^ d := by
    rcases hpaths with hlength | rfl
    · rw [hd hlength, pow_zero, Nat.div_one]
    · simp
  rcases Nat.le_total path.length path'.length with hle | hle
  · exact (climb_leaf_binding hle (hindex _ (by omega)) h h').imp_left And.left
  · refine (climb_leaf_binding hle (hindex _ (by omega)) h' h).imp (fun heq => heq.1.symm) ?_
    exact Collision.symm

end Bound

section Unbound

private def blank : ByteArray := (List.replicate Hash.size 0).toByteArray

private theorem exists_climb (node : ByteArray) (i n : Nat) :
    ∃ above, climb H node i (List.replicate n blank) = some above ∧
      (node.size = Hash.size → above.size = Hash.size) := by
  induction n generalizing node i with
  | zero => exact ⟨node, rfl, id⟩
  | succ n ih =>
    obtain ⟨above, habove, hsize⟩ := ih (H.digest (parentMessage node i blank)) (i / 2)
    refine ⟨above, ?_, fun _ => hsize (H.size_digest _)⟩
    rw [List.replicate_succ, climb_cons, if_pos (by decide), habove]

private theorem climb_fork {node below sibling : ByteArray} {i a b : Nat}
    (h : climb H node i (List.replicate a blank) = some below) (hsibling : sibling.size = Hash.size) :
    climb H node i (List.replicate a blank ++ sibling :: List.replicate b blank) =
      climb H (H.digest (parentMessage below (i / 2 ^ a) sibling)) (i / 2 ^ a / 2)
        (List.replicate b blank) := by
  rw [climb_append, h, Option.bind_some, List.length_replicate, climb_cons, if_pos hsibling]

/-- Any two rows are verified at any other index, over paths of any two lengths that the index
fits, below a root made for them. -/
theorem exists_verify_of_length_ne {i m n : Nat} (hi : i ≠ 0) (hm : i < 2 ^ m) (hmn : m < n)
    (row row' : ByteArray) : ∃ root path path', path.length = m ∧ path'.length = n ∧
      verify H root path i row = true ∧ verify H root path' i row' = true := by
  -- Above the highest bit of the index both paths turn left. At that bit the shorter one comes
  -- from the right child of a node, and the longer one still from the left child.
  have hlog : i.log2 < m := (Nat.log2_lt hi).mpr hm
  have hbit : i / 2 ^ i.log2 = 1 := by
    have hle := Nat.log2_self_le hi
    have hlt := Nat.lt_log2_self (n := i)
    rw [pow_succ] at hlt
    exact Nat.div_eq_of_lt_le (by omega) (by omega)
  have hhigh : i / 2 ^ (i.log2 + (n - m)) = 0 :=
    Nat.div_eq_of_lt (Nat.lt_log2_self.trans_le (Nat.pow_le_pow_right (by decide) (by omega)))
  obtain ⟨right, hright, hrightsize⟩ := exists_climb H (H.leaf row) i i.log2
  obtain ⟨left, hleft, hleftsize⟩ := exists_climb H (H.leaf row') i (i.log2 + (n - m))
  obtain ⟨root, hroot, -⟩ :=
    exists_climb H (H.digest (Hash.nodeMessage left right)) 0 (m - i.log2 - 1)
  have hfork := climb_fork H (b := m - i.log2 - 1) hright (hleftsize (H.size_digest _))
  have hfork' := climb_fork H (b := m - i.log2 - 1) hleft (hrightsize (H.size_digest _))
  rw [hbit] at hfork
  rw [hhigh] at hfork'
  have hlength : (List.replicate i.log2 blank ++
      left :: List.replicate (m - i.log2 - 1) blank).length = m := by
    simp
    omega
  have hlength' : (List.replicate (i.log2 + (n - m)) blank ++
      right :: List.replicate (m - i.log2 - 1) blank).length = n := by
    simp
    omega
  have hn : i < 2 ^ n := hm.trans (Nat.pow_lt_pow_right (by decide) hmn)
  exact ⟨root, _, _, hlength, hlength',
    (verify_iff H).mpr ⟨Int.natCast_nonneg i, by rwa [hlength], hfork.trans hroot⟩,
    (verify_iff H).mpr ⟨Int.natCast_nonneg i, by rwa [hlength'], hfork'.trans hroot⟩⟩

end Unbound

end MerkleTree

section Values

variable {F : Type} [ExtensionField F] [LawfulExtension F] {k : Kind} {vs ws : List (Tagged F)}

theorem Tagged.limbBytes_injective {v w : Tagged F} (hkind : TaggedValue.kind v = TaggedValue.kind w)
    (h : TaggedValue.limbBytes v = TaggedValue.limbBytes w) : v = w := by
  have hencode : TaggedValue.encode v = TaggedValue.encode w := by
    rw [TaggedValue.encode, TaggedValue.encode, hkind, h]
  have hv := read_encode v ByteArray.empty ByteArray.empty
  rw [hencode, read_encode w] at hv
  exact (Prod.mk.inj (Except.ok.inj hv)).1.symm

/-- A leaf holds the values of an opening, if their number and their kind are known. -/
theorem Commitment.leafBytes_injective (hv : ∀ v ∈ vs, TaggedValue.kind v = k)
    (hw : ∀ w ∈ ws, TaggedValue.kind w = k) (hlength : vs.length = ws.length)
    (h : leafBytes vs = leafBytes ws) : vs = ws := by
  have size {us : List (Tagged F)} (hu : ∀ u ∈ us, TaggedValue.kind u = k) :
      ∀ p ∈ us.map TaggedValue.limbBytes, p.size = 8 * Tagged.width F k := by
    intro p hp
    obtain ⟨u, hmem, rfl⟩ := List.mem_map.mp hp
    rw [Tagged.size_limbBytes, hu u hmem]
  have hparts := Bytes.concat_inj (size hv) (size hw) (by simpa using hlength) h
  apply List.ext_getElem hlength
  intro j hj hj'
  apply Tagged.limbBytes_injective
  · rw [hv _ (List.getElem_mem hj), hw _ (List.getElem_mem hj')]
  · simpa [hj, hj'] using congrArg (·[j]?) hparts

end Values

namespace Opening

/-- The messages hashed to check an opening. -/
def messages {V : Type} [TaggedValue V] (H : Hash) (o : Opening V) : List ByteArray :=
  MerkleTree.messages H (Commitment.leafBytes o.values) o.index.toNat o.path

theorem check_eq_ok {V : Type} [TaggedValue V] {H : Hash} {root : ByteArray} {o : Opening V}
    {kind : Kind} {what : String} : o.check H root kind what = .ok () ↔
      (∀ v ∈ o.values, TaggedValue.kind v = kind) ∧
        MerkleTree.verify H root o.path o.index (Commitment.leafBytes o.values) = true := by
  rw [check, verify]
  split
  · rename_i hkind
    simp only [List.any_eq_true, decide_eq_true_eq] at hkind
    obtain ⟨v, hv, hne⟩ := hkind
    simp only [reduceCtorEq, false_iff, not_and]
    exact fun hall => absurd (hall v hv) hne
  · rename_i hkind
    simp only [List.any_eq_true, decide_eq_true_eq, not_exists, not_and, not_not] at hkind
    split
    · rename_i hverify
      exact ⟨fun _ => ⟨hkind, hverify⟩, fun _ => rfl⟩
    · rename_i hverify
      exact ⟨fun h => (nomatch h), fun h => absurd h.2 hverify⟩

section Pulled

variable {F : Type} [ExtensionField F] [LawfulExtension F] (H : Hash)

/-- An opening of the right shape is read from some bytes. -/
theorem exists_pullOpening {o : Opening (Tagged F)} {i : Nat} (hindex : o.index = i)
    (hi : i < 2 ^ 32) {width height : Int} (hheight : o.index < height)
    (hwidth : o.values.length = width) (hcount : o.values.length < 2 ^ 32)
    (hdepth : o.path.length ≤ ProofStream.maxPathLength) (hpath : ∀ d ∈ o.path, d.size = Hash.size) :
    ∃ data, (ProofStream.pullOpening H F width height (.reader H data)).1 = .ok o := by
  rcases ProofStream.replays_opening (T := fun _ => True) (E := fun _ _ => False) H hindex hi hheight
    hwidth (fun hle => absurd hcount (not_lt.mpr hle)) hdepth hpath (.writer H) rfl with
    ⟨_, _, -, hfalse⟩ | ⟨_, _, data, -, -, -, hread⟩
  · exact hfalse.elim
  · obtain ⟨_, rfl, h⟩ := hread ByteArray.empty ByteArray.empty trivial
    rw [ByteArray.empty_append, ByteArray.append_empty] at h
    exact ⟨data, congrArg Prod.fst h⟩

variable {root : ByteArray} {k : Nat} {width : Int} {kind : Kind} {what what' : String}

/-- Two openings of one index that are read from proofs and pass the check against one root carry
the same values unless messages hashed for them collide, if their paths are equally long or the
index is zero. -/
theorem values_eq_or_collision {s s' : ProofStream} (hs : s.reading = true)
    (hs' : s'.reading = true) {o o' : Opening (Tagged F)}
    (hpull : (ProofStream.pullOpening H F width (2 ^ k) s).1 = .ok o)
    (hpull' : (ProofStream.pullOpening H F width (2 ^ k) s').1 = .ok o')
    (hcheck : o.check H root kind what = .ok ()) (hcheck' : o'.check H root kind what' = .ok ())
    (hindex : o.index = o'.index) (hpaths : o.path.length = o'.path.length ∨ o.index = 0) :
    o.values = o'.values ∨ Collision H (o.messages H) (o'.messages H) := by
  have width_of {s : ProofStream} {o : Opening (Tagged F)} (hs : s.reading = true)
      (h : (ProofStream.pullOpening H F width (2 ^ k) s).1 = .ok o) :
      (o.values.length : Int) = width := by
    have hsafe := (ProofStream.reads_pullOpening H F width (2 ^ k) s hs).2
    rw [h] at hsafe
    exact hsafe.2.2
  obtain ⟨hkind, hverify⟩ := check_eq_ok.mp hcheck
  obtain ⟨hkind', hverify'⟩ := check_eq_ok.mp hcheck'
  have hlength : o.values.length = o'.values.length :=
    Int.ofNat.inj ((width_of hs hpull).trans (width_of hs' hpull').symm)
  rw [← hindex] at hverify'
  rw [messages, messages, ← hindex]
  exact (MerkleTree.verify_binding hpaths hverify hverify').imp_left
    (Commitment.leafBytes_injective hkind hkind' hlength)

end Pulled

private def repeated (b : UInt8) : ByteArray := (List.replicate 32 b).toByteArray

/-- Under a hash with one digest for all strings, two rows open at one index, and they collide. -/
theorem collision_of_constant : ∃ (H : Hash) (s s' : ProofStream) (o o' : Opening (Tagged Fp))
    (root : ByteArray), s.reading = true ∧ s'.reading = true ∧
    (ProofStream.pullOpening H Fp 1 (2 ^ 1) s).1 = .ok o ∧
    (ProofStream.pullOpening H Fp 1 (2 ^ 1) s').1 = .ok o' ∧
    o.check H root .fp "trace" = .ok () ∧ o'.check H root .fp "trace" = .ok () ∧
    o.index = o'.index ∧ o.path.length = o'.path.length ∧ o.values ≠ o'.values ∧
    Collision H (o.messages H) (o'.messages H) := by
  let o : Opening (Tagged Fp) := ⟨1, [.fp 5], [repeated 0]⟩
  let o' : Opening (Tagged Fp) := ⟨1, [.fp 6], [repeated 7]⟩
  obtain ⟨data, hpull⟩ : ∃ data,
      (ProofStream.pullOpening .constant Fp 1 (2 ^ 1) (.reader .constant data)).1 = .ok o :=
    exists_pullOpening .constant (i := 1) rfl (by decide) (by decide) rfl (by decide) (by decide)
      (by decide)
  obtain ⟨data', hpull'⟩ : ∃ data,
      (ProofStream.pullOpening .constant Fp 1 (2 ^ 1) (.reader .constant data)).1 = .ok o' :=
    exists_pullOpening .constant (i := 1) rfl (by decide) (by decide) rfl (by decide) (by decide)
      (by decide)
  have hcheck : o.check .constant (repeated 0) .fp "trace" = .ok () :=
    check_eq_ok.mpr ⟨by simp [o, TaggedValue.kind], by decide +kernel⟩
  have hcheck' : o'.check .constant (repeated 0) .fp "trace" = .ok () :=
    check_eq_ok.mpr ⟨by simp [o', TaggedValue.kind], by decide +kernel⟩
  have hvalues : o.values ≠ o'.values := by
    simp [o, o']
    decide
  exact ⟨.constant, _, _, o, o', repeated 0, rfl, rfl, hpull, hpull', hcheck, hcheck', rfl, rfl,
    hvalues, (values_eq_or_collision .constant rfl rfl hpull hpull' hcheck hcheck' rfl
      (.inl rfl)).resolve_left hvalues⟩

private def checksum : Hash where
  digest m := (List.replicate 32 (m.data.toList.foldl (· + ·) 0)).toByteArray
  work m := (List.replicate 32 (m.data.toList.foldl (· + ·) 0)).toByteArray
  size_digest m := by simp
  size_work m := by simp

/-- At index one a path of one digest and a path of two lead from different values to one root,
without a collision. -/
theorem exists_values_ne : ∃ (H : Hash) (root data data' : ByteArray) (o o' : Opening (Tagged Fp)),
    (ProofStream.pullOpening H Fp 1 (2 ^ 1) (.reader H data)).1 = .ok o ∧
    (ProofStream.pullOpening H Fp 1 (2 ^ 1) (.reader H data')).1 = .ok o' ∧
    o.check H root .fp "" = .ok () ∧ o'.check H root .fp "" = .ok () ∧ o.index = o'.index ∧
    o.values ≠ o'.values ∧
    ¬ Collision H (o.messages H ++ o'.messages H) (o.messages H ++ o'.messages H) := by
  let o : Opening (Tagged Fp) := ⟨1, [.fp 1], [repeated 97]⟩
  let o' : Opening (Tagged Fp) := ⟨1, [.fp 2], [repeated 1, repeated 1]⟩
  obtain ⟨data, hpull⟩ : ∃ data,
      (ProofStream.pullOpening checksum Fp 1 (2 ^ 1) (.reader checksum data)).1 = .ok o :=
    exists_pullOpening checksum (i := 1) rfl (by decide) (by decide) rfl (by decide) (by decide)
      (by decide)
  obtain ⟨data', hpull'⟩ : ∃ data,
      (ProofStream.pullOpening checksum Fp 1 (2 ^ 1) (.reader checksum data)).1 = .ok o' :=
    exists_pullOpening checksum (i := 1) rfl (by decide) (by decide) rfl (by decide) (by decide)
      (by decide)
  refine ⟨checksum, repeated 65, data, data', o, o', hpull, hpull', ?_, ?_, rfl, ?_, ?_⟩
  · exact check_eq_ok.mpr ⟨by simp [o, TaggedValue.kind], by decide +kernel⟩
  · exact check_eq_ok.mpr ⟨by simp [o', TaggedValue.kind], by decide +kernel⟩
  · simp [o, o']
    decide
  · decide +kernel

end Opening

end TapeStark
