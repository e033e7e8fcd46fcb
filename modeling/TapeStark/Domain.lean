import TapeStark.Field.Extension

/-! Evaluation domains, and the values of their vanishing polynomials. -/

namespace TapeStark

/-! Evaluation domains: subgroups of roots of unity of power-of-two order, and their cosets. -/

def isPowerOfTwo (n : Int) : Bool := 0 < n && Nat.pow 2 n.toNat.log2 == n.toNat

/-- The exponent of a power of two. -/
def exactLog2 (n : Int) : Except Error Nat :=
  if isPowerOfTwo n then .ok n.toNat.log2 else .error (.size (.notPowerOfTwo n))

/-- The least power of two that is at least `n`. -/
def nextPowerOfTwo (n : Int) : Nat := if n ≤ 1 then 1 else Nat.pow 2 ((n.toNat - 1).log2 + 1)

/-- The coset of the subgroup of order `2^logSize` by `offset`. -/
@[ext] structure Domain where
  logSize : Nat
  offset : Fp
  logSize_le : logSize ≤ Fp.twoAdicity
  deriving DecidableEq

namespace Domain

/-- The exponent of a size that has a primitive root of unity. -/
def logSize? (n : Int) : Except Error { k : Nat // k ≤ Fp.twoAdicity } :=
  if isPowerOfTwo n then
    if h : n.toNat.log2 ≤ Fp.twoAdicity then .ok ⟨n.toNat.log2, h⟩
    else .error (.size (.noRoot n))
  else .error (.size (.noRoot n))

def ofSize? (n : Int) (offset : Fp) : Except Error Domain := do
  let k ← logSize? n
  return ⟨k.val, offset, k.property⟩

/-- The domain of a table of this height. -/
def subgroup? (n : Int) : Except Error Domain := ofSize? n 1

/-- The coset by the generator of the multiplicative group, apart from every subgroup. -/
def coset? (n : Int) : Except Error Domain := ofSize? n Fp.generator

variable (d : Domain)

def size : Nat := Nat.pow 2 d.logSize

def generator : Fp := Fp.rootOfUnity d.logSize

def element (i : Nat) : Fp := d.offset * power d.generator (i % d.size)

/-- Indices count modulo the size, also below zero. -/
def elementAt (i : Int) : Fp := d.element (i % d.size).toNat

def elements : List Fp := (powers d.generator d.size).map (d.offset * ·)

/-- The constant term of the vanishing polynomial, up to its sign. -/
def offsetPower : Fp := power d.offset d.size

/-- The image under squaring, half the size. -/
def squared : Except Error Domain :=
  match d with
  | ⟨0, _, _⟩ => .error (.size .squareOfOne)
  | ⟨k + 1, offset, h⟩ => .ok ⟨k, offset * offset, by omega⟩

/-- The polynomial with the domain's points as its roots, at a point of any extension. -/
def vanishingAt {F : Type} [ExtensionField F] (x : F) : F :=
  power x d.size - ExtensionField.ofBase d.offsetPower

end Domain

/-! The values of a vanishing polynomial over a domain, filled chunk by chunk. Each chunk starts
from a power of its own, so chunks may be filled in any order. -/

namespace Vanishing

/-- Writes the values to consecutive slots from `start` on. -/
def writeFrom {α : Type} (target : Array α) (start : Nat) : List α → Array α
  | [] => target
  | v :: r => writeFrom (target.setIfInBounds start v) (start + 1) r

def chunkSize (length : Nat) (workers : Int) : Nat :=
  max (length / (max workers 1).toNat) 1024

def chunkStarts (length chunk : Nat) : List Nat :=
  (List.range ((length + chunk - 1) / chunk)).map (chunk * ·)

/-- The values of the vanishing polynomial of `v` at the points `start, …, stop - 1` of `e`. -/
def chunkValues (v e : Domain) (start stop : Nat) : List Fp :=
  let g := power e.generator v.size
  let first := power e.offset v.size * power g start
  (powersFrom first g (stop - start)).map (· - v.offsetPower)

def fillChunk (v e : Domain) (chunk : Nat) (target : Array Fp) (start : Nat) : Array Fp :=
  writeFrom target start (chunkValues v e start (min (start + chunk) target.size))

/-- Fills the chunks in the given order. -/
def fillChunks (v e : Domain) (chunk : Nat) (target : Array Fp) (starts : List Nat) : Array Fp :=
  starts.foldl (fillChunk v e chunk) target

def fill (target : Array Fp) (v e : Domain) (workers : Int) : Except Error (Array Fp) :=
  if target.size = e.size then
    let chunk := chunkSize target.size workers
    .ok (fillChunks v e chunk target (chunkStarts target.size chunk))
  else .error (.length (.slots target.size e.size))

/-- Fills an array of zeros, whose length may not be negative. -/
def filled (length : Int) (v e : Domain) (workers : Int) : Except Error (Array Fp) :=
  if length < 0 then .error .shapeMismatch else fill (.replicate length.toNat 0) v e workers

end Vanishing

end TapeStark
