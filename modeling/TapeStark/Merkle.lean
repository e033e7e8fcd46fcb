import TapeStark.Field.Tagged
import TapeStark.Grid
import TapeStark.Hash

/-! Binary hash trees, and the commitments to codewords that are made of them. -/

namespace TapeStark

/-! Binary hash trees over the rows of a matrix of 64-bit words. Leaf `i` is the hash of row `i`; a
path holds the siblings from the leaf up to the root. -/

/-- The value of `f` at `0, …, n - 1`, computed in batches: at least 256 to a batch, and no more
batches than workers. -/
def batched {α : Type} (workers n : Nat) (f : Nat → α) : Array α :=
  let batch := max 256 ((n + workers - 1) / workers)
  let bounds := (List.range ((n + batch - 1) / batch)).map fun i =>
    (batch * i, min (batch * i + batch) n)
  (bounds.flatMap fun (lo, hi) => (List.range' lo (hi - lo)).map f).toArray

/-- A tree as its levels, the leaves first and the root last. -/
structure MerkleTree where
  levels : List (Array ByteArray)

namespace MerkleTree

variable (H : Hash)

/-- The level above: every two neighbours under one node. -/
def parents (workers : Nat) (level : Array ByteArray) : Array ByteArray :=
  batched workers (level.size / 2) fun i =>
    H.node (level.getD (2 * i) ByteArray.empty) (level.getD (2 * i + 1) ByteArray.empty)

/-- A level and the `k` levels above it. -/
def levelsFrom (workers : Nat) : Nat → Array ByteArray → List (Array ByteArray)
  | 0, level => [level]
  | k + 1, level => level :: levelsFrom workers k (parents H workers level)

/-- Builds the tree over rows of bytes; their number must be a power of two. -/
def build (workers : Int) (rows : Array ByteArray) : Except Error MerkleTree :=
  let workers := (max workers 1).toNat
  if Nat.pow 2 rows.size.log2 = rows.size then
    let leaves := batched workers rows.size fun i => H.leaf (rows.getD i ByteArray.empty)
    .ok ⟨levelsFrom H workers rows.size.log2 leaves⟩
  else .error (.size (.treeHeight rows.size))

variable (t : MerkleTree)

/-- The number of leaves. -/
def height : Nat := (t.levels.headD #[]).size

def root : ByteArray := (t.levels.getLastD #[]).getD 0 ByteArray.empty

/-- The siblings of the nodes above position `i`, in every level but the last. -/
def siblings : List (Array ByteArray) → Nat → List ByteArray
  | [], _ => []
  | [_], _ => []
  | level :: rest, i => level.getD (i ^^^ 1) ByteArray.empty :: siblings rest (i / 2)

def path (i : Int) : Except Error (List ByteArray) :=
  if 0 ≤ i ∧ i < t.height then .ok (siblings t.levels i.toNat)
  else .error (.leafIndex i t.height)

/-- The root above a node at position `i`; none if a sibling is no digest. -/
def climb : ByteArray → Nat → List ByteArray → Option ByteArray
  | node, _, [] => some node
  | node, i, sibling :: rest =>
    if sibling.size = Hash.size then
      climb (if i % 2 = 1 then H.node sibling node else H.node node sibling) (i / 2) rest
    else none

/-- Whether the row of bytes stands at index `i` below the root. -/
def verify (root : ByteArray) (path : List ByteArray) (i : Int) (row : ByteArray) : Bool :=
  0 ≤ i && i.toNat / Nat.pow 2 path.length = 0 &&
    (climb H (H.leaf row) i.toNat path).any (·.data = root.data)

end MerkleTree

/-- An opened leaf: its index, its values, and its path. -/
structure Opening (V : Type) where
  index : Int
  values : List V
  path : List ByteArray

namespace Opening

variable {V : Type}

def map {W : Type} (f : V → W) (o : Opening V) : Opening W := ⟨o.index, o.values.map f, o.path⟩

/-- Rejects an opening whose row does not stand at its index below the root. -/
def verify (H : Hash) (root : ByteArray) (o : Opening V) (row : ByteArray) (what : String) :
    Except Error Unit :=
  if MerkleTree.verify H root o.path o.index row then .ok ()
  else .error (.rejected (.commitment what o.index))

end Opening

/-- What a tree is asked to be built over: rows of words, or an array with another number of axes,
which is refused. -/
inductive LeafSource
  | rows (rows : Array (List Nat))
  | other (shape : List Nat) (axes : shape.length ≠ 2)

namespace LeafSource

/-- The numbers `0, 1, …` in rows, as many as the product of the sizes. One negative size stands for
whatever the numbers are enough for. -/
def counting (height width : Int) : Except Error LeafSource :=
  if (height < 0 ∧ width ≤ 0) ∨ (width < 0 ∧ height ≤ 0) then .error .shapeMismatch
  else
    let w := width.toNat
    .ok (.rows ((Array.range height.toNat).map fun i => List.range' (i * w) w))

/-- A word of 64 bits. -/
def word (n : Int) : Except Error Nat :=
  if 0 ≤ n ∧ n < Nat.pow 2 64 then .ok n.toNat else .error .wordOverflow

/-- The rows must all have the same length. -/
def ofRows (rows : List (List Int)) : Except Error LeafSource :=
  match rows with
  | [] => .ok (other [0] (by decide))
  | first :: rest => do
    if rest.any fun r => r.length ≠ first.length then throw .raggedRows
    let words ← rows.mapM fun r => r.mapM word
    return .rows words.toArray

def ofList (entries : List Int) : Except Error LeafSource := do
  let words ← entries.mapM word
  return other [words.length] (by simp)

end LeafSource

/-- A tree together with the rows of words it was built over. -/
structure WordTree where
  tree : MerkleTree
  rows : Array (List Nat)

namespace WordTree

def rowBytes (row : List Nat) : ByteArray := Bytes.concat (row.map (Bytes.little 8))

def build (H : Hash) (workers : Int) : LeafSource → Except Error WordTree
  | .other shape _ => .error (.leafShape shape)
  | .rows rows => do
    let tree ← MerkleTree.build H workers (rows.map rowBytes)
    return ⟨tree, rows⟩

/-- Builds over a source and keeps the earlier tree when that fails. -/
def rebuild (H : Hash) (workers : Int) (old : Option WordTree) (source : LeafSource) :
    Except Error ByteArray × Option WordTree :=
  match build H workers source with
  | .ok t => (.ok t.tree.root, some t)
  | .error e => (.error e, old)

def openAt (t : WordTree) (i : Int) : Except Error (Opening Nat) := do
  let values ← entryAt t.rows i
  let path ← t.tree.path i
  return ⟨i, values, path⟩

/-- The root of the latest tree. -/
def root? : Option WordTree → Except Error ByteArray
  | some t => .ok t.tree.root
  | none => .error .unbuiltTree

/-- Before the first build the tree has no leaves, so that every index is out of range. -/
def path? (t : Option WordTree) (i : Int) : Except Error (List ByteArray) :=
  match t with
  | some t => t.tree.path i
  | none => .error (.leafIndex i 0)

def open? (t : Option WordTree) (i : Int) : Except Error (Opening Nat) :=
  match t with
  | some t => t.openAt i
  | none => .error .noTree

end WordTree

/-! Commitments to codewords. Leaf `i` holds the coordinates of every column's value at `i`, and an
opening answers with those values. -/

structure Commitment (V : Type) where
  columns : List (Array V)
  tree : MerkleTree

namespace Commitment

variable {V : Type} [TaggedValue V]

/-- The bytes of a leaf, from its values. -/
def leafBytes (values : List V) : ByteArray := Bytes.concat (values.map TaggedValue.limbBytes)

/-- The value of a column at `i`; a column of one value has it everywhere. -/
def valueAt (column : Array V) (i : Nat) : Option V :=
  if column.size = 1 then column[0]? else column[i]?

def rowBytes (columns : List (Array V)) (i : Nat) : ByteArray :=
  leafBytes (columns.filterMap fun c => valueAt c i)

/-- The first column gives the height, and the others have to fit it. -/
def commit (H : Hash) (workers : Int) (columns : List (Array V)) :
    Except Error (Commitment V) := do
  let first :: _ := columns | throw .nothingToCommit
  let height := first.size
  if columns.any fun c => c.size ≠ height ∧ c.size ≠ 1 then throw .shapeMismatch
  let rows := ((List.range height).map (rowBytes columns)).toArray
  let tree ← MerkleTree.build H workers rows
  return ⟨columns, tree⟩

variable (c : Commitment V)

def root : ByteArray := c.tree.root

/-- The same tree, its values seen in another way. -/
def map {W : Type} (f : V → W) : Commitment W := ⟨c.columns.map (·.map f), c.tree⟩

def openAt (i : Int) : Except Error (Opening V) := do
  let values ← c.columns.mapM fun column => entryAt column i
  let path ← c.tree.path i
  return ⟨i, values, path⟩

end Commitment

/-- Rejects an opening whose values are not all of the kind, or not below the root. -/
def Opening.check {V : Type} [TaggedValue V] (H : Hash) (root : ByteArray) (o : Opening V)
    (kind : Kind) (what : String) : Except Error Unit :=
  if o.values.any fun v => TaggedValue.kind v ≠ kind then
    .error (.malformed (.openingKind what o.index))
  else o.verify H root (Commitment.leafBytes o.values) what

end TapeStark
