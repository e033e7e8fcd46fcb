import TapeStark.Domain
import TapeStark.Error

/-! Integers as little-endian bytes, and the sizes of the buffers that hold them. -/

namespace TapeStark

/-! Integers as little-endian bytes. -/

namespace Bytes

/-- The low `width` bytes of `n`, the lowest first. -/
def digits : Nat → Nat → List UInt8
  | 0, _ => []
  | width + 1, n => UInt8.ofNat n :: digits width (n / 256)

/-- The number with these digits to base 256, the lowest first. -/
def value : List UInt8 → Nat
  | [] => 0
  | b :: r => b.toNat + 256 * value r

def little (width n : Nat) : ByteArray := (digits width n).toByteArray

def number (b : ByteArray) : Nat := value b.data.toList

/-- The `count` bytes from `start` on. -/
def slice (b : ByteArray) (start count : Nat) : ByteArray := b.extract start (start + count)

/-- Refuses an integer that does not fit the unsigned width. -/
def pack (width : Nat) (n : Int) : Except Error ByteArray :=
  if 0 ≤ n ∧ n < Nat.pow 256 width then .ok (little width n.toNat) else .error .integerWidth

/-- The word of eight bytes at an offset. Below zero it counts from the end, and then the word may
not cross either end; from zero on there have to be eight bytes. -/
def wordAt (b : ByteArray) (offset : Int) : Except Error Nat :=
  let start := if offset < 0 then offset + b.size else offset
  if 0 ≤ start ∧ start + 8 ≤ b.size then .ok (number (slice b start.toNat 8))
  else .error .wordBounds

def concat (parts : List ByteArray) : ByteArray :=
  parts.foldl (· ++ ·) ByteArray.empty

@[simp] theorem length_digits (width n : Nat) : (digits width n).length = width := by
  induction width generalizing n with
  | zero => rfl
  | succ w ih => simp [digits, ih]

@[simp] theorem size_little (width n : Nat) : (little width n).size = width := by
  simp [little]

/-- Reading back the low bytes gives the number modulo the width. -/
theorem value_digits (width n : Nat) : value (digits width n) = n % Nat.pow 256 width := by
  induction width generalizing n with
  | zero => exact (Nat.mod_one n).symm
  | succ w ih =>
    simp only [digits, value, ih, UInt8.toNat_ofNat']
    have h : Nat.pow 256 (w + 1) = 256 * Nat.pow 256 w := Nat.mul_comm _ _
    rw [h, Nat.mod_mul]

theorem number_little {width n : Nat} (h : n < Nat.pow 256 width) :
    number (little width n) = n := by
  show value (digits width n).toByteArray.data.toList = n
  have e : (digits width n).toByteArray.data.toList = digits width n := by simp
  rw [e, value_digits, Nat.mod_eq_of_lt h]

end Bytes

/-! Sizes of buffers that start on a page and fill whole pages. -/

/-- How a buffer is laid out: as it comes, or in pages of a power-of-two size. -/
inductive Buffer
  | plain
  | paged (pageSize : Nat)
  deriving DecidableEq

namespace Buffer

def paged? (pageSize : Int) : Except Error Buffer :=
  if isPowerOfTwo pageSize then .ok (paged pageSize.toNat) else .error (.pageSize pageSize)

/-- The bytes of the pages that hold so many bytes, at least one page. -/
def paddedSize (pageSize : Nat) (bytes : Int) : Nat :=
  (max ((bytes + pageSize - 1) / pageSize) 1).toNat * pageSize

def text : Buffer → String
  | plain => "DefaultAllocator()"
  | paged pageSize => s!"PageAlignedAllocator(page_size={pageSize})"

/-- The words that a buffer has for an array of this many. A negative number is taken off the only
page of a paged buffer. -/
def capacity (pageSize : Nat) (words : Int) : Nat :=
  (if words < 0 then (pageSize + 8 * words) / 8 else words).toNat

/-- The sizes that an array of a given shape has. In a paged buffer one negative size stands for
what the words are enough for. -/
def sizes (b : Buffer) (shape : List Int) : Except Error (List Nat) :=
  match b, shape.filter (· < 0) with
  | _, [] => .ok (shape.map Int.toNat)
  | paged pageSize, [_] =>
    let known := ((shape.filter (0 ≤ ·)).foldl (· * ·) 1).toNat
    let words := capacity pageSize (shape.foldl (· * ·) 1)
    if known = 0 ∨ words % known ≠ 0 then .error .shapeMismatch
    else .ok (shape.map fun n => if n < 0 then words / known else n.toNat)
  | _, _ => .error .shapeMismatch

/-- A buffer of zeros for an array of these sizes. -/
def zeros (sizes : List Nat) : Array Nat := Array.replicate (sizes.foldl (· * ·) 1) 0

end Buffer

end TapeStark
