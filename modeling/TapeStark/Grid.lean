import TapeStark.Error
import TapeStark.Field.Extension
import TapeStark.Text

/-! Positions in lists, arrays of one or two dimensions, and matrices with named columns. -/

namespace TapeStark

/-! Positions that may count from the end. -/

section Position

/-- The place that an index names among `n` entries; below zero it counts from the end. -/
def position? (n : Nat) (i : Int) : Option Nat :=
  let j := if i < 0 then i + n else i
  if 0 ≤ j ∧ j < n then some j.toNat else none

theorem position?_lt {n k : Nat} {i : Int} (h : position? n i = some k) : k < n := by
  simp only [position?] at h
  split at h <;> simp at h <;> omega

@[simp] theorem position?_natCast {n k : Nat} (h : k < n) : position? n k = some k := by
  have : ¬ (k : Int) < 0 := by omega
  simp [position?, this, h]

variable {α : Type}

/-- The entry that an index names. -/
def entryAt (xs : Array α) (i : Int) : Except Error α :=
  match (position? xs.size i).bind (xs[·]?) with
  | some x => .ok x
  | none => .error .indexOutOfRange

/-- Changes the entry that an index names. -/
def modifyAt (xs : List α) (i : Int) (f : α → Except Error α) : Except Error (List α) :=
  match position? xs.length i with
  | none => .error .indexOutOfRange
  | some k =>
    match xs[k]? with
    | none => .error .indexOutOfRange
    | some x => do
      let y ← f x
      return xs.set k y

/-- The entries before a position; below zero it counts from the end. -/
def takeTo (xs : List α) (i : Int) : List α :=
  xs.take (if i < 0 then i + xs.length else i).toNat

end Position

/-! Arrays of one or two dimensions, on which transforms act column by column. -/

/-- A single column, or the columns of a matrix, of `height` entries each. -/
structure Grid (α : Type) where
  flat : Bool
  height : Nat
  columns : List (Array α)

namespace Grid

variable {α β : Type}

def ofArray (xs : Array α) : Grid α := ⟨true, xs.size, [xs]⟩

/-- The matrix with these rows. Without rows there is a single empty column. -/
def ofRows (rows : List (List α)) : Except Error (Grid α) :=
  match rows with
  | [] => .ok (ofArray #[])
  | first :: _ =>
    if rows.all fun r => r.length = first.length then
      .ok ⟨false, rows.length,
        (List.range first.length).map fun k => (rows.filterMap (·[k]?)).toArray⟩
    else .error .raggedRows

def rows (g : Grid α) : List (List α) :=
  (List.range g.height).map fun i => g.columns.filterMap (·[i]?)

/-- Checks that rows have one entry for each of `width` columns. In a single column, rows of
different lengths pass for cells that are lists themselves. -/
def checkRows (width : Nat) (rows : List (List α)) : Except Error Unit :=
  if rows.all fun r => r.length = width then .ok ()
  else if width = 1 ∧ rows.any fun r => r.length ≠ (rows.headD []).length then .error .nestedCell
  else .error .raggedRows

/-- Maps every column. Where there is none, a column of zeros tells the height of the result. -/
def mapM [Zero α] (f : Array α → Except Error (Array β)) (g : Grid α) : Except Error (Grid β) := do
  match g.columns with
  | [] =>
    let zeros ← f (.replicate g.height 0)
    return ⟨g.flat, zeros.size, []⟩
  | first :: rest =>
    let first ← f first
    let rest ← rest.mapM f
    return ⟨g.flat, first.size, first :: rest⟩

end Grid

/-! Tables of field elements as named columns of one length. -/

/-- Columns with their names, in order; `of?` makes them equally many and equally long. -/
structure Matrix (κ F : Type) where
  names : List κ
  columns : List (Array F)

namespace Matrix

variable {κ F : Type}

/-- The different lengths, in ascending order. -/
def lengths (columns : List (Array F)) : List Nat :=
  ((columns.map Array.size).eraseDups).mergeSort

def of? (names : List κ) (columns : List (Array F)) : Except Error (Matrix κ F) :=
  if names.length ≠ columns.length then
    .error (.length (.columnCount names.length columns.length))
  else if (lengths columns).length > 1 then
    .error (.length (.columnLengths (lengths columns)))
  else .ok ⟨names, columns⟩

/-- Reads rows of integers; each row has one cell for each name. -/
def ofRows? (names : List κ) (rows : List (List Int)) : Except Error (Matrix κ Fp) := do
  Grid.checkRows names.length rows
  match rows.mapM fun r => r.mapM Fp.ofInt? with
  | some cells =>
    return ⟨names, (List.range names.length).map fun k =>
      (cells.map fun r => r.getD k 0).toArray⟩
  | none => throw .outOfField

/-- Columns of any fields, as the integers that their entries stand for. -/
def ofElements? (names : List κ) (columns : List ElementArray) : Except Error (Matrix κ Nat) :=
  of? names (columns.map fun c => c.values.map ExtensionField.toNat)

/-- Columns side by side in the field of the first; without columns there is no field. -/
def stackColumns : List ElementArray → Except Error ((d : Degree) × List (Array d.Carrier))
  | [] => .error .indexOutOfRange
  | first :: rest => do
    let stored ← (first :: rest).mapM fun c => c.store first.degree
    return ⟨first.degree, stored⟩

variable (m : Matrix κ F)

def width : Nat := m.columns.length

def height : Nat := (m.columns.headD #[]).size

variable [DecidableEq κ]

/-- The first column of that name. -/
def lookup {C : Type} (names : List κ) (columns : List C) (k : κ) : Except Error C :=
  match (names.zip columns).lookup k with
  | some c => .ok c
  | none => .error .unknownColumn

/-- The first column of that name, empty if there is none. -/
def column (k : κ) : Array F := ((m.names.zip m.columns).lookup k).getD #[]

/-- The last entry of a column. -/
def last [Zero F] (k : κ) : F := (m.column k).toList.getLastD 0

/-- Changes one entry of a column; the row may count from the end. -/
def modify (k : κ) (row : Int) (f : F → F) : Except Error (Matrix κ F) := do
  let some i := position? (m.column k).size row | throw .indexOutOfRange
  return ⟨m.names, (m.names.zip m.columns).map fun (k', c) =>
    if k' = k then c.modify i f else c⟩

/-- The cells of row `i`, one for each column. -/
def row [Zero F] (i : Nat) : List F := m.columns.map fun c => c.getD i 0

def rows [Zero F] : List (List F) := (List.range m.height).map m.row

end Matrix

/-- The height and the quoted names. -/
def Matrix.text {F : Type} (m : Matrix String F) : String :=
  s!"Matrix(height={m.height}, columns=" ++ Text.bracketed (m.names.map Text.quoted) ++ ")"

end TapeStark
