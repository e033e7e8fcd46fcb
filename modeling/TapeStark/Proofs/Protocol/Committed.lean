import Mathlib
import TapeStark.Proofs.Protocol.Opened
import TapeStark.Proofs.Stream.Action
import TapeStark.Proofs.Vanishing

/-!
From columns to the values that an opening of them is read as. The prover writes the coordinates of
every column over a buffer, a block beside the other, and hashes its rows; a reader has the tagged
values of one row. Both have the same bytes. An opening is written if its index and the number of its
values fit their four bytes, and read back if its path is none of those that are too long to be read.
It is authentic, and gives each key its column's value.
-/

namespace TapeStark

open ExtensionField

section Kind

variable {F : Type}

abbrev Kind.Carrier (F : Type) : Kind → Type
  | .fp => Fp
  | .fx => F

instance Kind.instExtension [ExtensionField F] : (kind : Kind) → ExtensionField (kind.Carrier F)
  | .fp => inferInstanceAs (ExtensionField Fp)
  | .fx => inferInstanceAs (ExtensionField F)

def Tagged.of : (kind : Kind) → kind.Carrier F → Tagged F
  | .fp => .fp
  | .fx => .fx

variable [ExtensionField F] {kind : Kind}

@[simp] theorem Tagged.kind_of (a : kind.Carrier F) : TaggedValue.kind (Tagged.of kind a) = kind := by
  cases kind <;> rfl

theorem Tagged.limbs_of (a : kind.Carrier F) :
    TaggedValue.limbs (Tagged.of kind a) = (limbs a).toList := by
  cases kind <;> rfl

end Kind

namespace Leaves

section Pack

variable {A : Type} [ExtensionField A]

def words (a : A) : List Nat := (limbs a).toList.map (·.val)

/-- Writes the values of a row side by side, from `position` on. -/
def packRow : List A → (position : Nat) → (row : Array Nat) → Array Nat
  | [], _, row => row
  | a :: as, position, row => packRow as (position + degree A) (Vanishing.writeFrom row position (words a))

/-- Writes columns side by side over the rows of a buffer, each as a block of its coordinates. -/
def pack : List (Array A) → (position : Nat) → (leaves : Array (Array Nat)) → Array (Array Nat)
  | [], _, leaves => leaves
  | column :: columns, position, leaves =>
    pack columns (position + degree A)
      (Array.zipWith (fun row a => Vanishing.writeFrom row position (words a)) leaves column)

theorem length_words (a : A) : (words a).length = degree A := by
  rw [words, List.length_map, Vector.length_toList]

theorem take_writeFrom (row : Array Nat) {position : Nat} {ws : List Nat}
    (h : position + ws.length ≤ row.size) :
    (Vanishing.writeFrom row position ws).toList.take (position + ws.length) =
      row.toList.take position ++ ws := by
  have hlength : row.toList.length = row.size := Array.length_toList
  have hwritten : (Vanishing.writeFrom row position ws).toList.length = row.size :=
    Vanishing.size_writeFrom row position ws
  refine List.ext_getElem? fun j => ?_
  rw [List.getElem?_append, List.length_take, hlength, min_eq_left (by omega)]
  rcases Nat.lt_or_ge j (position + ws.length) with hj | hj
  · rw [List.getElem?_take_of_lt hj, Array.getElem?_toList,
      Vanishing.getElem?_writeFrom row position ws (by omega)]
    rcases Nat.lt_or_ge j position with hlt | hge
    · rw [if_neg (by omega), if_pos hlt, List.getElem?_take_of_lt hlt, Array.getElem?_toList]
    · rw [if_pos ⟨hge, hj⟩, if_neg (by omega)]
  · rw [if_neg (by omega), List.getElem?_eq_none (by rw [List.length_take, hwritten]; omega),
      List.getElem?_eq_none (by omega)]

@[simp] theorem size_packRow (as : List A) (position : Nat) (row : Array Nat) :
    (packRow as position row).size = row.size := by
  induction as generalizing position row with
  | nil => rfl
  | cons a as ih => rw [packRow, ih, Vanishing.size_writeFrom]

/-- What stands before the values is kept. -/
theorem take_packRow (as : List A) {position : Nat} {row : Array Nat}
    (h : position + as.length * degree A ≤ row.size) :
    (packRow as position row).toList.take (position + as.length * degree A) =
      row.toList.take position ++ as.flatMap words := by
  induction as generalizing position row with
  | nil => simp [packRow]
  | cons a as ih =>
    have hsplit : position + (a :: as).length * degree A =
        position + degree A + as.length * degree A := by
      rw [List.length_cons, add_one_mul]
      omega
    rw [hsplit] at h
    have hfirst := take_writeFrom row (show position + (words a).length ≤ row.size by
      rw [length_words]
      omega)
    rw [length_words] at hfirst
    rw [hsplit, packRow, ih (by rwa [Vanishing.size_writeFrom]), hfirst, List.flatMap_cons,
      List.append_assoc]

/-- Values that fill a row overwrite it. -/
theorem toList_packRow {as : List A} {row : Array Nat} (h : row.size = as.length * degree A) :
    (packRow as 0 row).toList = as.flatMap words := by
  have hall := take_packRow as (show 0 + as.length * degree A ≤ row.size by omega)
  rwa [List.take_zero, List.nil_append, Nat.zero_add, ← h, ← size_packRow as 0 row,
    ← Array.length_toList, List.take_length] at hall

/-- Every row of the buffer is packed by itself. -/
theorem getElem?_pack {columns : List (Array A)} {position : Nat} {leaves : Array (Array Nat)}
    (hsize : ∀ column ∈ columns, column.size = leaves.size) (i : Nat) :
    (pack columns position leaves)[i]? =
      leaves[i]?.map (packRow (columns.filterMap (·[i]?)) position) := by
  induction columns generalizing position leaves with
  | nil => simp [pack, packRow]
  | cons column columns ih =>
    obtain ⟨hcolumn, hcolumns⟩ := List.forall_mem_cons.mp hsize
    have hblock : (Array.zipWith (fun row a => Vanishing.writeFrom row position (words a)) leaves
        column).size = leaves.size := by
      rw [Array.size_zipWith, hcolumn, min_self]
    rw [pack, ih (by simpa only [hblock] using hcolumns), Array.getElem?_zipWith]
    rcases Nat.lt_or_ge i leaves.size with hi | hi
    · have hvalue : column[i]? = some column[i] := Array.getElem?_eq_getElem (hcolumn ▸ hi)
      have hrow : (column :: columns).filterMap (fun x => x[i]?) =
          column[i] :: columns.filterMap fun x => x[i]? := List.filterMap_cons_some hvalue
      rw [Array.getElem?_eq_getElem hi, hvalue, hrow]
      rfl
    · rw [Array.getElem?_eq_none hi]
      rfl

end Pack

section Bytes

variable {F : Type} [ExtensionField F] {kind : Kind}

/-- The words of values are the bytes of the values when they are tagged. -/
theorem rowBytes_flatMap_words (as : List (kind.Carrier F)) :
    WordTree.rowBytes (as.flatMap words) = Commitment.leafBytes (as.map (Tagged.of kind)) := by
  induction as with
  | nil => rfl
  | cons a as ih =>
    have hfirst : WordTree.rowBytes (words a) = TaggedValue.limbBytes (Tagged.of kind a) := by
      rw [WordTree.rowBytes, words, List.map_map, TaggedValue.limbBytes, Tagged.limbs_of]
      rfl
    rw [List.flatMap_cons, WordTree.rowBytes, List.map_append, Bytes.concat_append, List.map_cons,
      Commitment.leafBytes, List.map_cons, Bytes.concat_cons, ← hfirst]
    exact congrArg _ ih

variable {columns : List (Array (kind.Carrier F))} {height : Nat}
  (hcolumns : ∀ column ∈ columns, column.size = height)

include hcolumns

theorem rowBytes_tagged {i : Nat} (hi : i < height) :
    Commitment.rowBytes (columns.map (·.map (Tagged.of kind))) i =
      Commitment.leafBytes ((columns.filterMap (·[i]?)).map (Tagged.of kind)) := by
  rw [Commitment.rowBytes, List.filterMap_map, List.map_filterMap]
  congr 1
  refine List.filterMap_congr fun column hcolumn => ?_
  have hsize := hcolumns column hcolumn
  rw [Function.comp_apply, Commitment.valueAt, Array.size_map]
  split
  · obtain rfl : i = 0 := by omega
    rw [Array.getElem?_map]
  · rw [Array.getElem?_map]

omit [ExtensionField F] in
theorem length_filterMap_getElem? {i : Nat} (hi : i < height) :
    (columns.filterMap (·[i]?)).length = columns.length := by
  rw [List.length_filterMap_eq_countP, List.countP_eq_length]
  intro column hcolumn
  rw [Array.getElem?_eq_getElem (by rw [hcolumns column hcolumn]; exact hi)]
  rfl

/-- The rows of the buffer have the bytes of the rows of tagged values. -/
theorem map_rowBytes_pack {leaves : Array (Array Nat)} (hheight : leaves.size = height)
    (hwidth : ∀ row ∈ leaves, row.size = columns.length * degree (kind.Carrier F)) :
    ((pack columns 0 leaves).map Array.toList).map WordTree.rowBytes =
      ((List.range height).map
        (Commitment.rowBytes (columns.map (·.map (Tagged.of kind))))).toArray := by
  refine Array.ext_getElem? fun i => ?_
  have hleaves : (pack columns 0 leaves)[i]? =
      leaves[i]?.map (packRow (columns.filterMap (·[i]?)) 0) :=
    getElem?_pack (fun column hcolumn => (hcolumns column hcolumn).trans hheight.symm) i
  have htagged (f : Nat → ByteArray) :
      ((List.range height).map f).toArray[i]? = (List.range height)[i]?.map f := by
    rw [List.getElem?_toArray, List.getElem?_map]
  rw [Array.getElem?_map, Array.getElem?_map, hleaves, htagged]
  rcases Nat.lt_or_ge i height with hi | hi
  · have hlt : i < leaves.size := by rwa [hheight]
    have hrow := hwidth leaves[i] (Array.getElem_mem hlt)
    rw [← length_filterMap_getElem? hcolumns hi] at hrow
    rw [Array.getElem?_eq_getElem hlt, List.getElem?_range hi, Option.map_some, Option.map_some,
      Option.map_some, Option.map_some, toList_packRow hrow, rowBytes_flatMap_words,
      rowBytes_tagged hcolumns hi]
  · rw [Array.getElem?_eq_none (by rwa [hheight]), List.getElem?_eq_none (by rwa [List.length_range])]
    rfl

end Bytes

end Leaves

section Dictionary

variable {F κ : Type} [ExtensionField F] [DecidableEq κ]

def store (values : κ → Option F) (p : κ × Tagged F) : κ → Option F :=
  Function.update values p.1 (some p.2.lift)

/-- The values of an opening under the keys of its columns; of equal keys the last one counts. -/
def openedValues (layout : List κ) (o : Opening (Tagged F)) : κ → Option F :=
  (layout.zip o.values).foldl store fun _ => none

theorem foldl_store_of_notMem {ps : List (κ × Tagged F)} {values : κ → Option F} {key : κ}
    (h : key ∉ ps.map Prod.fst) : (ps.foldl store values) key = values key := by
  induction ps generalizing values with
  | nil => rfl
  | cons p ps ih =>
    rw [List.map_cons, List.mem_cons, not_or] at h
    rw [List.foldl_cons, ih h.2, store, Function.update_of_ne h.1]

theorem foldl_store_last {front behind : List (κ × Tagged F)} {key : κ} {v : Tagged F}
    {values : κ → Option F} (h : key ∉ behind.map Prod.fst) :
    ((front ++ (key, v) :: behind).foldl store values) key = some v.lift := by
  rw [List.foldl_append, List.foldl_cons, foldl_store_of_notMem h, store, Function.update_self]

end Dictionary

/-- What an opening of keyed columns of `2 ^ k` values at index `i` is good for. It is written and read
back, unless its index or the number of its values needs more than four bytes or its path is longer
than any that is read; it is authentic for its own kind and for no other; and it has the value of each
column under its key. -/
structure Opening.OpensColumns {F κ : Type} [ExtensionField F] [DecidableEq κ] (H : Hash)
    (root : ByteArray) (kind : Kind) (keyed : List (κ × Array (kind.Carrier F))) (k i : Nat)
    (o : Opening (Tagged F)) : Prop where
  index : o.index = i
  replayed (T : ByteArray → Prop) (hindex : i < 2 ^ 32) (hcount : keyed.length < 2 ^ 32)
    (hdepth : k ≤ ProofStream.maxPathLength) :
    Replays T (fun _ _ => False) (ProofStream.push H (.opening o))
      (ProofStream.pullOpening H F keyed.length (2 ^ k : Nat)) fun _ b => b = o
  unwritten (h : 2 ^ 32 ≤ i ∨ 2 ^ 32 ≤ keyed.length) (w : ProofStream) (hw : w.reading = false) :
    ∃ w', ProofStream.push H (.opening o) w = (.error .integerWidth, w')
  unread (hdepth : ProofStream.maxPathLength < k) (width height : Int) :
    Reads (ProofStream.pullOpening H F width height) fun b => b ≠ o
  authentic (what : String) : o.check H root kind what = .ok ()
  refused (other : Kind) (hother : other ≠ kind) (what : String) :
    o.check H root other what = .error (.malformed (.openingKind what i))
  value {front behind : List (κ × Array (kind.Carrier F))} {key : κ}
    {column : Array (kind.Carrier F)} (hkeyed : keyed = front ++ (key, column) :: behind)
    (hlast : key ∉ behind.map Prod.fst) : openedValues (keyed.map Prod.fst) o key =
      column[i]?.map fun a => (Tagged.of kind a).lift
  absent {key : κ} (hkey : key ∉ keyed.map Prod.fst) : openedValues (keyed.map Prod.fst) o key = none

namespace ProofStream

section Wide

variable {V : Type} [TaggedValue V] (H : Hash)

theorem pushAtom_of_wide {n : Nat} (h : 2 ^ 32 ≤ n) (w : ProofStream) :
    pushAtom H (.u32 n : Atom V) w = (.error .integerWidth, w) := by
  have hpack : (.u32 n : Atom V).encode = .error .integerWidth := Bytes.pack_of_le h
  rw [pushAtom, hpack]
  exact bind_of_error (lift_apply _ w)

/-- An opening whose index or number of values is too wide is not written to its end. -/
theorem push_opening_of_wide {o : Opening V} {i : Nat} (hindex : o.index = i)
    (h : 2 ^ 32 ≤ i ∨ 2 ^ 32 ≤ o.values.length) {w : ProofStream} (hw : w.reading = false) :
    ∃ w', push H (.opening o) w = (.error .integerWidth, w') := by
  have hatoms : push H (.opening o) = pushAtom H (.u32 i : Atom V) >>= fun _ =>
      pushAtom H (.u32 o.values.length : Atom V) >>= fun _ => pushAtoms H (o.values.map .element ++
        .u32 o.path.length :: o.path.flatMap (Item.digestAtoms (V := V))) := by
    rw [← hindex]
    rfl
  rw [hatoms]
  -- An index that fits is written before the number of values fails.
  rcases Nat.lt_or_ge i (2 ^ 32) with hlt | hge
  · have hcount := h.resolve_left (by omega)
    have hfirst : pushAtom H (.u32 i : Atom V) w = write H (Bytes.little 4 i) w := by
      rw [pushAtom, show (.u32 i : Atom V).encode = .ok (Bytes.little 4 i) from Bytes.pack_natCast hlt]
      exact bind_of_ok (lift_apply _ w)
    rw [write_apply H hw] at hfirst
    exact ⟨_, (bind_of_ok hfirst).trans (bind_of_error (pushAtom_of_wide H hcount _))⟩
  · exact ⟨w, bind_of_error (pushAtom_of_wide H hge w)⟩

end Wide

section Depth

variable {F : Type} [ExtensionField F] (H : Hash)

theorem reads_depth_pullOpening (width height : Int) :
    Reads (pullOpening H F width height) fun o => o.path.length ≤ maxPathLength := by
  refine (reads_pullU32 H).bind fun index _ => Reads.check fun _ => ?_
  refine (reads_pullElements H F width).bind fun values _ => Reads.check fun _ => ?_
  refine (reads_pullU32 H).bind fun depth _ => Reads.check fun hdepth => ?_
  refine (reads_pullDigest H).pullMany.bind fun path hpath => Reads.pure ?_
  exact hpath.1.trans_le (not_lt.mp hdepth)

end Depth

end ProofStream

namespace Commitment

section Columns

variable {F κ : Type} [ExtensionField F] {kind : Kind} {keyed : List (κ × Array (kind.Carrier F))}
  {k : Nat}

def taggedColumns (kind : Kind) (keyed : List (κ × Array (kind.Carrier F))) :
    List (Array (Tagged F)) :=
  keyed.map fun p => p.2.map (Tagged.of kind)

omit [ExtensionField F] in
theorem size_taggedColumns (hsize : ∀ p ∈ keyed, p.2.size = 2 ^ k) :
    ∀ column ∈ taggedColumns kind keyed, column.size = 2 ^ k := by
  intro column hcolumn
  obtain ⟨p, hp, rfl⟩ := List.mem_map.mp hcolumn
  rw [Array.size_map, hsize p hp]

/-- An opening has the tagged value of every column. -/
theorem values_of_taggedColumns {o : Opening (Tagged F)} {i : Nat}
    (h : o.Of (taggedColumns kind keyed) k i) (hsize : ∀ p ∈ keyed, p.2.size = 2 ^ k)
    (hi : i < 2 ^ k) : o.values = keyed.map fun p => Tagged.of kind (p.2.getD i 0) := by
  refine h.values_eq ?_
  rw [taggedColumns, List.map_map, List.map_map]
  refine List.map_congr_left fun p hp => ?_
  have hlt : i < p.2.size := by rwa [hsize p hp]
  rw [Function.comp_apply, Function.comp_apply, Array.getElem?_map, Array.getElem?_eq_getElem hlt,
    Array.getD_eq_getD_getElem?, Array.getElem?_eq_getElem hlt]
  rfl

/-- The tree over the packed buffer is the one over the rows of tagged values. -/
theorem build_pack (H : Hash) (workers : Int) (hsize : ∀ p ∈ keyed, p.2.size = 2 ^ k)
    {leaves : Array (Array Nat)} (hheight : leaves.size = 2 ^ k)
    (hwidth : ∀ row ∈ leaves, row.size = keyed.length * degree (kind.Carrier F)) :
    ∃ t, WordTree.build H workers
        (.rows ((Leaves.pack (keyed.map Prod.snd) 0 leaves).map Array.toList)) = .ok t ∧
      t.tree = MerkleTree.ofRows H k
        ((List.range (2 ^ k)).map (rowBytes (taggedColumns kind keyed))).toArray := by
  have hcolumns : ∀ column ∈ keyed.map Prod.snd, column.size = 2 ^ k := by
    intro column hcolumn
    obtain ⟨p, hp, rfl⟩ := List.mem_map.mp hcolumn
    exact hsize p hp
  have hpacked := Leaves.map_rowBytes_pack hcolumns hheight (by rwa [List.length_map])
  rw [List.map_map] at hpacked
  refine ⟨⟨_, (Leaves.pack (keyed.map Prod.snd) 0 leaves).map Array.toList⟩, ?_, rfl⟩
  rw [WordTree.build, hpacked]
  exact congrArg (· >>= _) (MerkleTree.build_eq H (by simp) workers)

theorem openAt_of_not_lt {V : Type} [TaggedValue V] (H : Hash) {rows : Array ByteArray}
    (hrows : rows.size = 2 ^ k) (columns : List (Array V)) {i : Int}
    (hi : ¬ (0 ≤ i ∧ i < (2 ^ k : Nat))) :
    ∃ err, openAt ⟨columns, MerkleTree.ofRows H k rows⟩ i = .error err := by
  rw [openAt]
  cases columns.mapM fun column => entryAt column i with
  | error err => exact ⟨err, rfl⟩
  | ok values =>
    refine ⟨.leafIndex i (2 ^ k), ?_⟩
    rw [ok_bind, MerkleTree.path_ofRows H hrows, if_neg hi]
    rfl

variable [LawfulExtension F] [DecidableEq κ] {H : Hash} {c : Commitment (Tagged F)}

theorem Opens.opensColumns (h : c.Opens H (taggedColumns kind keyed) k) (hne : keyed ≠ [])
    (hsize : ∀ p ∈ keyed, p.2.size = 2 ^ k) {i : Nat} (hi : i < 2 ^ k) :
    ∃ o, c.openAt i = .ok o ∧ o.OpensColumns H c.root kind keyed k i := by
  obtain ⟨o, hopen, hof, hcheck⟩ := h.opened i hi
  have hvalues := values_of_taggedColumns hof hsize hi
  have hlength : o.values.length = keyed.length := by rw [hvalues, List.length_map]
  have hkinds : ∀ v ∈ o.values, TaggedValue.kind v = kind := by
    intro v hv
    rw [hvalues] at hv
    obtain ⟨p, -, rfl⟩ := List.mem_map.mp hv
    exact Tagged.kind_of _
  have hdict : openedValues (keyed.map Prod.fst) o =
      (keyed.map fun p => (p.1, Tagged.of kind (p.2.getD i 0))).foldl store fun _ => none := by
    rw [openedValues, hvalues, List.zip_map']
  refine ⟨o, hopen, ?_⟩
  constructor
  case index => exact hof.index
  case replayed =>
    intro T hindex hcount hdepth
    refine ProofStream.replays_opening H hof.index hindex ?_ (congrArg Nat.cast hlength) ?_
      (hof.depth.trans_le hdepth) hof.digests
    · rw [hof.index]
      exact_mod_cast hi
    · intro hwide
      omega
  case unwritten =>
    intro hwide w hw
    exact ProofStream.push_opening_of_wide H hof.index (by rwa [hlength]) hw
  case unread =>
    intro hdepth width height
    refine (ProofStream.reads_depth_pullOpening H width height).mono fun b hb heq => ?_
    rw [heq, hof.depth] at hb
    omega
  case authentic => exact fun what => hcheck kind what hkinds
  case refused =>
    intro other hother what
    obtain ⟨p, rest, hkeyed⟩ := List.exists_cons_of_ne_nil hne
    have hfirst : Tagged.of kind (p.2.getD i 0) ∈ o.values := by
      rw [hvalues, hkeyed]
      exact List.mem_cons_self
    rw [Opening.check, if_pos, hof.index]
    refine List.any_eq_true.mpr ⟨_, hfirst, decide_eq_true ?_⟩
    rw [Tagged.kind_of]
    exact hother.symm
  case value =>
    intro front behind key column hkeyed hlast
    have hlt : i < column.size := by
      rwa [hsize (key, column) (by rw [hkeyed]; simp)]
    rw [hdict, hkeyed, List.map_append, List.map_cons, foldl_store_last]
    · rw [Array.getD_eq_getD_getElem?, Array.getElem?_eq_getElem hlt]
      rfl
    · rwa [List.map_map]
  case absent =>
    intro key hkey
    rw [hdict, foldl_store_of_notMem]
    rwa [List.map_map]

/-- Columns of a kind are committed to by the tree over the buffer that their coordinates are packed
into, whatever it held, and open to themselves at every index they have. -/
theorem columns_open_to_themselves (H : Hash) (workers : Int) (kind : Kind)
    {keyed : List (κ × Array (kind.Carrier F))} (hne : keyed ≠ []) {k : Nat}
    (hsize : ∀ p ∈ keyed, p.2.size = 2 ^ k) {leaves : Array (Array Nat)}
    (hheight : leaves.size = 2 ^ k)
    (hwidth : ∀ row ∈ leaves, row.size = keyed.length * degree (kind.Carrier F)) :
    ∃ c t, commit H workers (taggedColumns kind keyed) = .ok c ∧
      WordTree.build H workers
        (.rows ((Leaves.pack (keyed.map Prod.snd) 0 leaves).map Array.toList)) = .ok t ∧
      t.tree = c.tree ∧
      (∀ i : Nat, i < 2 ^ k →
        ∃ o, c.openAt i = .ok o ∧ o.OpensColumns H c.root kind keyed k i) ∧
      ∀ i : Int, ¬ (0 ≤ i ∧ i < (2 ^ k : Nat)) → ∃ err, c.openAt i = .error err := by
  have hne' : taggedColumns kind keyed ≠ [] := by rwa [taggedColumns, Ne, List.map_eq_nil_iff]
  have hcommit := commit_eq H workers hne' (size_taggedColumns hsize)
  obtain ⟨c, hc, hopens⟩ := exists_commit H workers hne' (size_taggedColumns hsize)
  obtain rfl := Except.ok.inj (hcommit.symm.trans hc)
  obtain ⟨t, hbuild, htree⟩ := build_pack H workers hsize hheight hwidth
  refine ⟨_, t, hc, hbuild, htree, fun i hi => hopens.opensColumns hne hsize hi, fun i hi => ?_⟩
  exact openAt_of_not_lt H (by simp) _ hi

end Columns

theorem columns_open_of_pairs :
    let keyed : List (String × Array (Kind.fx.Carrier Fp3)) :=
      [("a", #[⟨1, 2, 3⟩, ⟨4, 5, 6⟩]), ("b", #[0, ⟨7, 8, 9⟩])]
    ∃ c o s s', commit Hash.blake2b 1 (taggedColumns .fx keyed) = .ok c ∧ c.openAt 1 = .ok o ∧
      ProofStream.push Hash.blake2b (.opening o) (.writer Hash.blake2b) = (.ok (), s) ∧
      ProofStream.pullOpening Hash.blake2b Fp3 2 2 (.reader Hash.blake2b s.buffer) = (.ok o, s') ∧
      o.check Hash.blake2b c.root .fx "trace" = .ok () ∧
      o.check Hash.blake2b c.root .fp "trace" = .error (.malformed (.openingKind "trace" 1)) ∧
      openedValues ["a", "b"] o "b" = some ⟨7, 8, 9⟩ := by
  intro keyed
  have hne : keyed ≠ [] := List.cons_ne_nil _ _
  have hsize : ∀ p ∈ keyed, p.2.size = 2 ^ 1 := by simp [keyed]
  have hheight : (#[#[9, 9, 9, 9, 9, 9], #[0, 0, 0, 0, 0, 0]] : Array (Array Nat)).size = 2 ^ 1 := rfl
  have hwidth : ∀ row ∈ (#[#[9, 9, 9, 9, 9, 9], #[0, 0, 0, 0, 0, 0]] : Array (Array Nat)),
      row.size = keyed.length * degree (Kind.fx.Carrier Fp3) := by decide
  obtain ⟨c, -, hcommit, -, -, hopens, -⟩ :=
    columns_open_to_themselves Hash.blake2b 1 .fx hne hsize hheight hwidth
  obtain ⟨o, hopen, ho⟩ := hopens 1 (by decide)
  have hkeyed : keyed = [("a", #[⟨1, 2, 3⟩, ⟨4, 5, 6⟩])] ++ ("b", #[0, ⟨7, 8, 9⟩]) :: [] := rfl
  have hvalue : openedValues ["a", "b"] o "b" = some ⟨7, 8, 9⟩ := ho.value hkeyed List.not_mem_nil
  rcases (ho.replayed _ (by decide) (by decide) (by decide)).run Hash.blake2b with
    ⟨_, _, _, h⟩ | ⟨_, s, b, s', hpush, hpull, hb⟩
  · exact h.elim
  · rw [hb] at hpull
    exact ⟨c, o, s, s', hcommit, hopen, hpush, hpull, ho.authentic _, ho.refused .fp (by decide) _,
      hvalue⟩

/-- The bytes of an opening have no room for its index, if that is `2 ^ 32`. -/
theorem exists_opening_unwritten : ∃ c o w,
    commit Hash.blake2b 1 (taggedColumns (F := Fp3) .fp [("a", .replicate (2 ^ 33) 0)]) = .ok c ∧
    c.openAt (2 ^ 32 : Nat) = .ok o ∧
    ProofStream.push Hash.blake2b (.opening o) (.writer Hash.blake2b) =
      (.error .integerWidth, w) := by
  have hne : [("a", Array.replicate (2 ^ 33) (0 : Fp))] ≠ [] := List.cons_ne_nil _ _
  have hsize : ∀ p ∈ [("a", Array.replicate (2 ^ 33) (0 : Fp))], p.2.size = 2 ^ 33 := by
    intro p hp
    rw [List.mem_singleton.mp hp, Array.size_replicate]
  have hne' : taggedColumns (F := Fp3) .fp [("a", Array.replicate (2 ^ 33) (0 : Fp))] ≠ [] := by
    rwa [taggedColumns, Ne, List.map_eq_nil_iff]
  obtain ⟨c, hcommit, hopens⟩ := exists_commit Hash.blake2b 1 hne' (size_taggedColumns hsize)
  obtain ⟨o, hopen, ho⟩ := hopens.opensColumns hne hsize (show 2 ^ 32 < 2 ^ 33 by decide)
  obtain ⟨w, hpush⟩ := ho.unwritten (.inl le_rfl) (.writer Hash.blake2b) rfl
  exact ⟨c, o, w, hcommit, hopen, hpush⟩

end Commitment

end TapeStark
