/-! Powers, and the field of integers modulo a prime. -/

namespace TapeStark

/-! Powers in anything with a one and a product. -/

section Power

variable {α : Type}

/-- The `n`-th power, by squaring. -/
def power [One α] [Mul α] (x : α) (n : Nat) : α :=
  if n = 0 then 1
  else
    let half := power (x * x) (n / 2)
    if n % 2 = 0 then half else x * half
termination_by n

/-- `acc, acc * x, acc * x^2, …`, with `n` entries. -/
def powersFrom [Mul α] (acc x : α) : Nat → List α
  | 0 => []
  | n + 1 => acc :: powersFrom (acc * x) x n

/-- `1, x, x^2, …`, with `n` entries. -/
def powers [One α] [Mul α] (x : α) (n : Nat) : List α := powersFrom 1 x n

@[simp] theorem length_powersFrom [Mul α] (acc x : α) (n : Nat) :
    (powersFrom acc x n).length = n := by
  induction n generalizing acc with
  | zero => rfl
  | succ n ih => simp [powersFrom, ih]

@[simp] theorem length_powers [One α] [Mul α] (x : α) (n : Nat) : (powers x n).length = n :=
  length_powersFrom 1 x n

end Power

/-! The base field: integers modulo the prime 2^64 - 2^32 + 1. -/

/-- The order of the base field, 2^64 - 2^32 + 1. -/
def prime : Nat := 18446744069414584321

theorem prime_pos : 0 < prime := by decide

/-- An element of the base field, as its representative below the prime. -/
structure Fp where
  val : Nat
  isLt : val < prime
  deriving DecidableEq

namespace Fp

@[ext] theorem ext {a b : Fp} (h : a.val = b.val) : a = b := by
  cases a
  cases b
  cases h
  rfl

def ofNat (n : Nat) : Fp := ⟨n % prime, Nat.mod_lt n prime_pos⟩

/-- Reduces any integer modulo the prime. -/
def ofInt (n : Int) : Fp :=
  ⟨(n % prime).toNat, by
    have hp : (0 : Int) < prime := by decide
    have h1 := Int.emod_nonneg n (Int.ne_of_gt hp)
    have h2 := Int.emod_lt_of_pos n hp
    omega⟩

/-- The element with this representative; none for an integer outside `0..p-1`. -/
def ofInt? (n : Int) : Option Fp :=
  if h : 0 ≤ n ∧ n < prime then some ⟨n.toNat, by omega⟩ else none

instance : Zero Fp := ⟨ofNat 0⟩
instance : One Fp := ⟨ofNat 1⟩
instance : Add Fp := ⟨fun a b => ofNat (a.val + b.val)⟩
instance : Sub Fp := ⟨fun a b => ofNat (a.val + (prime - b.val))⟩
instance : Mul Fp := ⟨fun a b => ofNat (a.val * b.val)⟩
instance : Neg Fp := ⟨fun a => ofNat (prime - a.val)⟩

/-- By Fermat's little theorem; zero is sent to zero. -/
instance : Inv Fp := ⟨fun a => power a (prime - 2)⟩

theorem val_zero : (0 : Fp).val = 0 := rfl
theorem val_one : (1 : Fp).val = 1 := rfl
theorem val_ofNat (n : Nat) : (ofNat n).val = n % prime := rfl
theorem val_add (a b : Fp) : (a + b).val = (a.val + b.val) % prime := rfl

/-- A generator of the multiplicative group. -/
def generator : Fp := ofNat 7

/-- The largest `k` such that `2^k` divides `p - 1`. -/
def twoAdicity : Nat := 32

/-- The primitive root of unity of order `2^k`, for `k` up to the two-adicity. -/
def rootOfUnity (k : Nat) : Fp := power generator ((prime - 1) / Nat.pow 2 k)

end Fp

end TapeStark
