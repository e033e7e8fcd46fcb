import Mathlib
import TapeStark.Proofs.Stream.Action

/-! Drawing indices: the values are cut from the bits of fresh blocks, one after the other, so that
no bit is used twice; the indices are the values without repeats, in the order in which they come. -/

namespace TapeStark

namespace Bytes

/-- Bit `k` of some bytes, the lowest bit of the first byte first. -/
def bit (b : ByteArray) (k : Nat) : Bool := (b.data.toList.getD (k / 8) 0).toNat.testBit (k % 8)

theorem testBit_value (bs : List UInt8) (k : Nat) :
    (value bs).testBit k = (bs.getD (k / 8) 0).toNat.testBit (k % 8) := by
  induction bs generalizing k with
  | nil => simp [value]
  | cons b bs ih =>
    have hvalue : value (b :: bs) = 2 ^ 8 * value bs + b.toNat := by
      rw [value]
      omega
    rw [hvalue, Nat.testBit_two_pow_mul_add _ b.toNat_lt]
    split
    · have hfirst : k / 8 = 0 := by omega
      rw [hfirst, Nat.mod_eq_of_lt ‹k < 8›, List.getD_cons_zero]
    · have hrest : k / 8 = (k - 8) / 8 + 1 := by omega
      rw [hrest, List.getD_cons_succ, ih]
      congr 1
      omega

theorem testBit_number (b : ByteArray) (k : Nat) : (number b).testBit k = bit b k :=
  testBit_value _ k

end Bytes

/-- Value `i` of those that are cut from a stream of bits, `width` bits each. -/
def cutAt (width i : Nat) (stream : Nat → Bool) : Nat :=
  Nat.ofBits fun j : Fin width => stream (i * width + j)

theorem shiftRight_mod_two_pow (pool width i : Nat) :
    (pool >>> (i * width)) % 2 ^ width = cutAt width i pool.testBit := by
  refine Nat.eq_of_testBit_eq fun k => ?_
  rw [cutAt, Nat.testBit_mod_two_pow, Nat.testBit_shiftRight, Nat.testBit_ofBits]
  split <;> simp_all

-- The second value of twelve bits begins inside the second byte.
example : cutAt 12 1 (Bytes.bit [0xAB, 0xCD, 0xEF].toByteArray) = 0xEFC := by decide

theorem cutAt_lt (width i : Nat) (stream : Nat → Bool) : cutAt width i stream < 2 ^ width :=
  Nat.ofBits_lt_two_pow _

/-- The bit at `p` matters to value `i`. -/
def Feeds (width p i : Nat) : Prop :=
  ∃ stream stream' : Nat → Bool, (∀ q, q ≠ p → stream q = stream' q) ∧
    cutAt width i stream ≠ cutAt width i stream'

theorem feeds_iff {width p i : Nat} : Feeds width p i ↔ i * width ≤ p ∧ p < (i + 1) * width := by
  rw [add_one_mul]
  constructor
  · rintro ⟨stream, stream', hsame, hne⟩
    by_contra hout
    refine hne (congrArg Nat.ofBits (funext fun j => hsame _ ?_))
    have := j.isLt
    omega
  · rintro ⟨hle, hlt⟩
    -- Without a bit the value is zero, with the one at `p` it is not.
    refine ⟨fun _ => false, fun q => q = p, fun q hq => (decide_eq_false hq).symm, fun heq => ?_⟩
    have hbit := congrArg (·.testBit (p - i * width)) heq
    simp only [cutAt, Nat.testBit_ofBits] at hbit
    rw [dif_pos (by omega), dif_pos (by omega), Nat.add_sub_cancel' hle] at hbit
    simp at hbit

/-- The values do not share bits. -/
theorem subsingleton_feeds (width p : Nat) : {i | Feeds width p i}.Subsingleton := by
  intro i hi i' hi'
  obtain ⟨hle, hlt⟩ := feeds_iff.mp hi
  obtain ⟨hle', hlt'⟩ := feeds_iff.mp hi'
  have h : i < i' + 1 := Nat.lt_of_mul_lt_mul_right (hle.trans_lt hlt')
  have h' : i' < i + 1 := Nat.lt_of_mul_lt_mul_right (hle'.trans_lt hlt)
  omega

section First

variable {α : Type} [DecidableEq α]

/-- The entries of a list without repeats, in the order in which they first occur. -/
structure FirstOccurrences (chosen drawn : List α) : Prop where
  mem_iff : ∀ a, a ∈ chosen ↔ a ∈ drawn
  ordered : chosen.Pairwise fun a b => drawn.idxOf a < drawn.idxOf b

theorem FirstOccurrences.nodup {chosen drawn : List α} (h : FirstOccurrences chosen drawn) :
    chosen.Nodup := by
  refine h.ordered.imp fun hlt => ?_
  rintro rfl
  exact lt_irrefl _ hlt

/-- Leaving out another entry does not change which of two comes first. -/
theorem idxOf_filter_lt_iff {a b x : α} (ha : a ≠ x) (hb : b ≠ x) (xs : List α) :
    (xs.filter fun y => !y == x).idxOf a < (xs.filter fun y => !y == x).idxOf b ↔
      xs.idxOf a < xs.idxOf b := by
  induction xs with
  | nil => simp
  | cons y ys ih =>
    by_cases hy : y = x
    · subst hy
      rw [List.filter_cons_of_neg (by simp), ih, List.idxOf_cons_ne _ ha.symm,
        List.idxOf_cons_ne _ hb.symm, Nat.succ_lt_succ_iff]
    · rw [List.filter_cons_of_pos (by simpa using hy)]
      by_cases hya : y = a
      · subst hya
        by_cases hyb : y = b
        · rw [hyb]
          simp
        · simp [List.idxOf_cons_ne _ hyb]
      · by_cases hyb : y = b
        · subst hyb
          simp
        · rw [List.idxOf_cons_ne _ hya, List.idxOf_cons_ne _ hyb, List.idxOf_cons_ne _ hya,
            List.idxOf_cons_ne _ hyb, Nat.succ_lt_succ_iff, Nat.succ_lt_succ_iff, ih]

theorem pairwise_eraseDups (xs : List α) :
    xs.eraseDups.Pairwise fun a b => xs.idxOf a < xs.idxOf b := by
  -- The recursion of `eraseDups`: what is left of the tail is no longer the tail itself, so that the
  -- places have to be carried from the filtered list to the whole one.
  match xs with
  | [] => simp
  | x :: xs =>
    have hne : ∀ a ∈ (xs.filter fun y => !y == x).eraseDups, a ≠ x := by
      intro a ha
      rw [List.mem_eraseDups, List.mem_filter] at ha
      simpa using ha.2
    rw [List.eraseDups_cons, List.pairwise_cons]
    constructor
    · intro a ha
      rw [List.idxOf_cons_self, List.idxOf_cons_ne _ (hne a ha).symm]
      exact Nat.succ_pos _
    · refine (pairwise_eraseDups (xs.filter fun y => !y == x)).imp_of_mem fun ha hb hlt => ?_
      rw [List.idxOf_cons_ne _ (hne _ ha).symm, List.idxOf_cons_ne _ (hne _ hb).symm]
      exact Nat.succ_lt_succ ((idxOf_filter_lt_iff (hne _ ha) (hne _ hb) xs).mp hlt)
termination_by xs.length
decreasing_by exact Nat.lt_succ_of_le (List.length_filter_le _ _)

theorem firstOccurrences_eraseDups (xs : List α) : FirstOccurrences xs.eraseDups xs where
  mem_iff _ := List.mem_eraseDups
  ordered := pairwise_eraseDups xs

end First

namespace Transcript

variable (H : Hash) (t : Transcript) (count width : Nat)

theorem blocksFor_natCast (bits : Nat) : blocksFor bits = bits ⌈/⌉ 256 := by
  rw [blocksFor, Nat.ceilDiv_eq_add_pred_div]
  omega

/-- The next blocks, side by side. -/
def stream (blocks : Nat) : ByteArray :=
  Bytes.concat ((List.range blocks).map fun j => t.block H (t.squeezed + j))

theorem size_stream (blocks : Nat) : (t.stream H blocks).size = 32 * blocks := by
  have hsize : ∀ b ∈ (List.range blocks).map fun j => t.block H (t.squeezed + j), b.size = 32 := by
    intro b hb
    obtain ⟨j, -, rfl⟩ := List.mem_map.mp hb
    exact H.size_digest _
  rw [stream, Bytes.size_concat hsize, List.length_map, List.length_range]

/-- The values that are drawn, by the bits of the blocks they are cut from. -/
def drawn (blocks : Nat) : List Nat :=
  (List.range count).map fun i => cutAt width i (Bytes.bit (t.stream H blocks))

theorem chunks_natCast : chunks H count width t =
    (.ok (t.drawn H count width ((count * width) ⌈/⌉ 256)),
      { t with squeezed := t.squeezed + (count * width) ⌈/⌉ 256 }) := by
  have hbits : Bytes.bit (t.stream H ((count * width) ⌈/⌉ 256)) =
      (Bytes.number (t.stream H ((count * width) ⌈/⌉ 256))).testBit :=
    funext fun k => (Bytes.testBit_number _ k).symm
  rw [chunks_apply, if_neg (by omega), ← Nat.cast_mul, blocksFor_natCast, drawn, hbits]
  simp only [Int.toNat_natCast, Nat.pow_eq, ← shiftRight_mod_two_pow]
  rfl

theorem indices_natCast : indices H count (2 ^ width : Nat) t =
    (.ok (t.drawn H count width ((count * width) ⌈/⌉ 256)).eraseDups,
      { t with squeezed := t.squeezed + (count * width) ⌈/⌉ 256 }) := by
  have hlog : ((2 ^ width : Nat) : Int).natAbs.log2 = width := by
    rw [Int.natAbs_natCast, Nat.log2_two_pow]
  rw [indices_apply, hlog, Nat.pow_eq, if_pos rfl, chunks_natCast]
  rfl

/-- Drawing squeezes just the blocks that hold all the bits and cuts the values from them, no two of
which share a bit. The indices below a power of two are these values, each once, in the order in which
they come. -/
theorem draws_from_own_bits :
    let blocks := (count * width) ⌈/⌉ 256
    let drawn := t.drawn H count width blocks
    let after : Transcript := { t with squeezed := t.squeezed + blocks }
    8 * (t.stream H blocks).size = 256 * blocks ∧ count * width ≤ 256 * blocks ∧
      chunks H count width t = (.ok drawn, after) ∧
      (∀ p i, Feeds width p i ↔ i * width ≤ p ∧ p < (i + 1) * width) ∧
      (∀ p, {i | Feeds width p i}.Subsingleton) ∧
      ∃ chosen, indices H count (2 ^ width : Nat) t = (.ok chosen, after) ∧
        FirstOccurrences chosen drawn ∧ chosen.Nodup ∧ (∀ i ∈ chosen, i < 2 ^ width) ∧
        chosen.length ≤ min count (2 ^ width) := by
  intro blocks drawn after
  have hfirst : FirstOccurrences drawn.eraseDups drawn := firstOccurrences_eraseDups drawn
  have hlt : ∀ i ∈ drawn.eraseDups, i < 2 ^ width := by
    intro i hi
    obtain ⟨j, -, rfl⟩ := List.mem_map.mp ((hfirst.mem_iff i).mp hi)
    exact cutAt_lt ..
  have hcount : drawn.eraseDups.length ≤ count :=
    (length_eraseDups_le drawn).trans_eq (by simp [drawn, Transcript.drawn])
  have hsize : drawn.eraseDups.length ≤ 2 ^ width := by
    have hsub : drawn.eraseDups ⊆ List.range (2 ^ width) := fun i hi =>
      List.mem_range.mpr (hlt i hi)
    exact (hfirst.nodup.subperm hsub).length_le.trans_eq List.length_range
  refine ⟨by rw [size_stream]; omega, ?_, t.chunks_natCast H count width, fun p i => feeds_iff,
    subsingleton_feeds width, drawn.eraseDups, t.indices_natCast H count width, hfirst,
    hfirst.nodup, hlt, le_min hcount hsize⟩
  exact le_smul_ceilDiv (Nat.succ_pos 255)

end Transcript

end TapeStark
