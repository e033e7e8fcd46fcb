import Mathlib
import TapeStark.Domain
import TapeStark.Error
import TapeStark.Grid

/-! Computations that may fail, and powers of two as sizes. -/

namespace TapeStark

/-! Successes of computations that may fail, taken apart and put together. -/

section Basic

variable {ε α β γ : Type}

theorem bind_eq_ok {x : Except ε α} {f : α → Except ε β} {b : β} :
    (x >>= f) = .ok b ↔ ∃ a, x = .ok a ∧ f a = .ok b := by
  cases x with
  | error e => simp [bind, Except.bind]
  | ok a => simp [bind, Except.bind]

theorem map_eq_ok {x : Except ε α} {f : α → β} {b : β} :
    x.map f = .ok b ↔ ∃ a, x = .ok a ∧ f a = b := by
  cases x with
  | error e => simp [Except.map]
  | ok a => simp [Except.map]

@[simp] theorem ok_bind (a : α) (f : α → Except ε β) : (Except.ok a >>= f) = f a := rfl

@[simp] theorem error_bind (e : ε) (f : α → Except ε β) : (Except.error e >>= f) = .error e := rfl

@[simp] theorem pure_eq_ok (a : α) : (pure a : Except ε α) = .ok a := rfl

@[simp] theorem throw_eq_error (e : ε) : (throw e : Except ε α) = .error e := rfl

theorem mapM_eq_ok {f : α → Except ε β} {xs : List α} {ys : List β} :
    xs.mapM f = .ok ys ↔ List.Forall₂ (fun x y => f x = .ok y) xs ys := by
  induction xs generalizing ys with
  | nil =>
    rw [List.mapM_nil, List.forall₂_nil_left_iff]
    exact ⟨fun h => (Except.ok.inj h).symm, fun h => h ▸ rfl⟩
  | cons x xs ih =>
    rw [List.mapM_cons, bind_eq_ok]
    constructor
    · rintro ⟨y, hy, h⟩
      obtain ⟨rest, hrest, h⟩ := bind_eq_ok.mp h
      obtain rfl := Except.ok.inj h
      exact .cons hy (ih.mp hrest)
    · rintro (_ | ⟨hy, hrest⟩)
      exact ⟨_, hy, bind_eq_ok.mpr ⟨_, ih.mpr hrest, rfl⟩⟩

theorem mapM_eq_map {f : α → Except ε β} {g : α → β} {xs : List α}
    (h : ∀ x ∈ xs, f x = .ok (g x)) : xs.mapM f = .ok (xs.map g) := by
  rw [mapM_eq_ok, List.forall₂_map_right_iff, List.forall₂_same]
  exact h

/-- A pass with a function that succeeds exactly under a condition, and then with one value. -/
theorem mapM_eq_ok_iff {f : α → Except ε β} {g : α → β} {p : α → Prop}
    (hf : ∀ x y, f x = .ok y ↔ p x ∧ y = g x) {xs : List α} {ys : List β} :
    xs.mapM f = .ok ys ↔ (∀ x ∈ xs, p x) ∧ ys = xs.map g := by
  simp only [mapM_eq_ok, hf]
  constructor
  · intro h
    induction h with
    | nil => simp
    | cons hy _ ih =>
      obtain ⟨hp, rfl⟩ := hy
      obtain ⟨hall, rfl⟩ := ih
      exact ⟨List.forall_mem_cons.mpr ⟨hp, hall⟩, rfl⟩
  · rintro ⟨hall, rfl⟩
    exact List.forall₂_map_right_iff.mpr (List.forall₂_same.mpr fun x hx => ⟨hall x hx, rfl⟩)

theorem error_of_mapM {f : α → Except ε β} {xs : List α} {e : ε} (h : xs.mapM f = .error e) :
    ∃ x ∈ xs, f x = .error e := by
  induction xs with
  | nil => cases h
  | cons x xs ih =>
    rw [List.mapM_cons] at h
    cases hx : f x with
    | error e' =>
      rw [hx] at h
      cases h
      exact ⟨x, List.mem_cons_self .., hx⟩
    | ok y =>
      rw [hx, ok_bind] at h
      cases hrest : xs.mapM f with
      | error e' =>
        rw [hrest] at h
        cases h
        obtain ⟨z, hz, hfz⟩ := ih hrest
        exact ⟨z, List.mem_cons_of_mem _ hz, hfz⟩
      | ok ys =>
        rw [hrest] at h
        cases h

theorem position?_of_le {n : Nat} {i : Int} (h : n ≤ i) : position? n i = none := by
  have h0 : ¬ i < 0 := by omega
  have h1 : ¬ i < n := by omega
  simp [position?, h0, h1]

end Basic

/-! Computations that either give a value of some kind or reject. -/

section Safe

variable {α β : Type}

/-- The computation gives a value that satisfies the condition, or it rejects what it was given. -/
def Safe (x : Except Error α) (P : α → Prop) : Prop :=
  match x with
  | .ok a => P a
  | .error e => ∃ r, e = .rejected r

namespace Safe

@[simp] theorem ok_iff {a : α} {P : α → Prop} : Safe (.ok a) P ↔ P a := Iff.rfl

@[simp] theorem rejected {r : Rejection} {P : α → Prop} :
    Safe (.error (.rejected r)) P := ⟨r, rfl⟩

theorem mono {x : Except Error α} {P Q : α → Prop} (h : Safe x P)
    (himp : ∀ a, P a → Q a) : Safe x Q := by
  cases x with
  | ok a => exact himp a h
  | error e => exact h

theorem bind {x : Except Error α} {f : α → Except Error β} {M : α → Prop} {P : β → Prop}
    (hx : Safe x M) (hf : ∀ a, M a → Safe (f a) P) : Safe (x >>= f) P := by
  cases x with
  | ok a => exact hf a hx
  | error e => exact hx

/-- After a success its result may be used. -/
theorem bind_eq {x : Except Error α} {f : α → Except Error β} {M : α → Prop} {P : β → Prop}
    (hx : Safe x M) (hf : ∀ a, x = .ok a → M a → Safe (f a) P) : Safe (x >>= f) P := by
  cases x with
  | ok a => exact hf a rfl hx
  | error e => exact hx

theorem ite {c : Prop} [Decidable c] {x y : Except Error α} {P : α → Prop}
    (hx : c → Safe x P) (hy : ¬ c → Safe y P) : Safe (if c then x else y) P := by
  split
  · exact hx ‹_›
  · exact hy ‹_›

theorem forM {xs : List α} {f : α → Except Error PUnit} (h : ∀ x ∈ xs, Safe (f x) fun _ => True) :
    Safe (xs.forM f) fun _ => True := by
  induction xs with
  | nil => trivial
  | cons x xs ih =>
    exact (h x (List.mem_cons_self ..)).bind fun _ _ =>
      ih fun y hy => h y (List.mem_cons_of_mem _ hy)

theorem mapM {xs : List α} {f : α → Except Error β} {P : β → Prop}
    (h : ∀ x ∈ xs, Safe (f x) P) :
    Safe (xs.mapM f) fun ys => ys.length = xs.length ∧ ∀ y ∈ ys, P y := by
  induction xs with
  | nil => exact ⟨rfl, by simp⟩
  | cons x xs ih =>
    rw [List.mapM_cons]
    refine (h x (List.mem_cons_self ..)).bind fun y hy => ?_
    refine (ih fun z hz => h z (List.mem_cons_of_mem _ hz)).bind fun ys hys => ?_
    refine ⟨by simp [hys.1], ?_⟩
    intro z hz
    rcases List.mem_cons.mp hz with rfl | hz
    · exact hy
    · exact hys.2 z hz

end Safe

/-- What every successful pass over a list has checked. -/
theorem ok_of_forM {xs : List α} {f : α → Except Error PUnit} (h : xs.forM f = .ok ()) :
    ∀ x ∈ xs, f x = .ok () := by
  induction xs with
  | nil => simp
  | cons x xs ih =>
    obtain ⟨_, hx, hxs⟩ := bind_eq_ok.mp h
    intro y hy
    rcases List.mem_cons.mp hy with rfl | hy
    · exact hx
    · exact ih hxs y hy

theorem forM_eq_ok {xs : List α} {f : α → Except Error PUnit} (h : ∀ x ∈ xs, f x = .ok ()) :
    xs.forM f = .ok () := by
  induction xs with
  | nil => rfl
  | cons x xs ih =>
    obtain ⟨hx, hxs⟩ := List.forall_mem_cons.mp h
    exact bind_eq_ok.mpr ⟨(), hx, ih hxs⟩

end Safe

/-! Powers of two as sizes: recognising them, their exponents, and rounding up to them. -/

theorem isPowerOfTwo_iff {n : Int} : isPowerOfTwo n = true ↔ ∃ k : Nat, n = (2 ^ k : Nat) := by
  simp only [isPowerOfTwo, Bool.and_eq_true, decide_eq_true_eq, beq_iff_eq, Nat.pow_eq]
  constructor
  · rintro ⟨h0, h⟩
    exact ⟨n.toNat.log2, by omega⟩
  · rintro ⟨k, rfl⟩
    have hpos : 0 < 2 ^ k := Nat.two_pow_pos k
    rw [Int.toNat_natCast, Nat.log2_two_pow]
    exact ⟨by omega, rfl⟩

theorem exactLog2_eq_ok {n : Int} {k : Nat} : exactLog2 n = .ok k ↔ n = (2 ^ k : Nat) := by
  constructor
  · intro h
    rw [exactLog2] at h
    split at h
    · rename_i hp
      obtain ⟨j, rfl⟩ := isPowerOfTwo_iff.mp hp
      rw [Int.toNat_natCast, Nat.log2_two_pow] at h
      rw [Except.ok.inj h]
    · cases h
  · rintro rfl
    rw [exactLog2, if_pos (isPowerOfTwo_iff.mpr ⟨k, rfl⟩), Int.toNat_natCast, Nat.log2_two_pow]

theorem exists_nextPowerOfTwo (n : Int) : ∃ k : Nat, nextPowerOfTwo n = 2 ^ k := by
  rw [nextPowerOfTwo]
  split
  · exact ⟨0, rfl⟩
  · exact ⟨_, rfl⟩

theorem le_nextPowerOfTwo (n : Int) : n ≤ nextPowerOfTwo n := by
  rw [nextPowerOfTwo]
  split
  · assumption
  · have := Nat.lt_log2_self (n := n.toNat - 1)
    rw [Nat.pow_eq]
    omega

/-- No smaller power of two will do. -/
theorem nextPowerOfTwo_le {n : Int} {k : Nat} (h : n ≤ (2 ^ k : Nat)) :
    nextPowerOfTwo n ≤ 2 ^ k := by
  rw [nextPowerOfTwo]
  split
  · exact Nat.two_pow_pos k
  · rw [Nat.pow_eq]
    refine Nat.pow_le_pow_right (by decide) ?_
    by_contra hk
    have := Nat.log2_self_le (n := n.toNat - 1) (by omega)
    have hle : 2 ^ k ≤ 2 ^ (n.toNat - 1).log2 := Nat.pow_le_pow_right (by decide) (by omega)
    omega

theorem nextPowerOfTwo_pos (n : Int) : 0 < nextPowerOfTwo n := by
  obtain ⟨k, hk⟩ := exists_nextPowerOfTwo n
  exact hk ▸ Nat.two_pow_pos k

theorem nextPowerOfTwo_two_pow (k : Nat) : nextPowerOfTwo (2 ^ k : Nat) = 2 ^ k := by
  refine Nat.le_antisymm (nextPowerOfTwo_le (Int.le_refl _)) ?_
  exact_mod_cast le_nextPowerOfTwo (2 ^ k : Nat)

/-- A size that is rounded up stays as it is. -/
theorem nextPowerOfTwo_nextPowerOfTwo (n : Int) :
    nextPowerOfTwo (nextPowerOfTwo n) = nextPowerOfTwo n := by
  obtain ⟨k, hk⟩ := exists_nextPowerOfTwo n
  rw [hk, nextPowerOfTwo_two_pow]

end TapeStark
