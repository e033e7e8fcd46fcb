import Mathlib
import TapeStark.Domain
import TapeStark.Proofs.Fourier

/-! The values of a vanishing polynomial over a domain, filled chunk by chunk. -/

namespace TapeStark

open ExtensionField

/-! Filling the values of a vanishing polynomial chunk by chunk gives its value at every point. -/

namespace Vanishing

section Write

variable {α : Type}

@[simp] theorem size_writeFrom (target : Array α) (start : Nat) (vs : List α) :
    (writeFrom target start vs).size = target.size := by
  induction vs generalizing target start with
  | nil => rfl
  | cons v vs ih => rw [writeFrom, ih, Array.size_setIfInBounds]

/-- Only the slots from `start` on are written, one for each value. -/
theorem getElem?_writeFrom (target : Array α) (start : Nat) (vs : List α) {i : Nat}
    (hi : i < target.size) : (writeFrom target start vs)[i]? =
      if start ≤ i ∧ i < start + vs.length then vs[i - start]? else target[i]? := by
  induction vs generalizing target start with
  | nil =>
    rw [writeFrom, if_neg]
    simp only [List.length_nil]
    omega
  | cons v vs ih =>
    rw [writeFrom, ih _ _ (by rwa [Array.size_setIfInBounds]), List.length_cons]
    rcases Nat.lt_trichotomy i start with hlt | rfl | hgt
    · rw [if_neg (by omega), if_neg (by omega), Array.getElem?_setIfInBounds_ne (by omega)]
    · rw [if_neg (by omega), if_pos (by omega), Nat.sub_self, List.getElem?_cons_zero,
        Array.getElem?_setIfInBounds_self_of_lt hi]
    · have hsub : i - start = (i - (start + 1)) + 1 := by omega
      rw [hsub, List.getElem?_cons_succ, Array.getElem?_setIfInBounds_ne (by omega)]
      by_cases h : i < start + 1 + vs.length
      · rw [if_pos (by omega), if_pos (by omega)]
      · rw [if_neg (by omega), if_neg (by omega)]

end Write

variable (v e : Domain)

def valueAt (i : Nat) : Fp := e.element i ^ v.size - v.offset ^ v.size

theorem chunkValues_eq (start stop : Nat) :
    chunkValues v e start stop = (List.range (stop - start)).map fun j => valueAt v e (start + j) := by
  simp only [chunkValues, Fourier.powersFrom_eq, List.map_map, power_eq_pow, Domain.offsetPower]
  refine List.map_congr_left fun j _ => ?_
  rw [Function.comp_apply, valueAt, e.element_eq, mul_pow, ← pow_mul, ← pow_mul, ← pow_mul,
    mul_assoc, ← pow_add]
  congr 3
  ring

variable {chunk : Nat}

theorem size_fillChunks (target : Array Fp) (starts : List Nat) :
    (fillChunks v e chunk target starts).size = target.size := by
  induction starts generalizing target with
  | nil => rfl
  | cons start starts ih =>
    rw [fillChunks, List.foldl_cons]
    refine (ih _).trans ?_
    rw [fillChunk, size_writeFrom]

/-- A slot holds its value as soon as a chunk that covers it is filled, whatever the order. -/
theorem getElem?_fillChunks (target : Array Fp) (starts : List Nat) {i : Nat}
    (hi : i < target.size) : (fillChunks v e chunk target starts)[i]? =
      if ∃ start ∈ starts, start ≤ i ∧ i < start + chunk then some (valueAt v e i)
      else target[i]? := by
  induction starts generalizing target with
  | nil => simp [fillChunks]
  | cons start starts ih =>
    rw [fillChunks, List.foldl_cons]
    refine (ih (fillChunk v e chunk target start) (by rwa [fillChunk, size_writeFrom])).trans ?_
    have hfirst : (fillChunk v e chunk target start)[i]? =
        if start ≤ i ∧ i < start + chunk then some (valueAt v e i) else target[i]? := by
      rw [fillChunk, getElem?_writeFrom _ _ _ hi, chunkValues_eq, List.length_map,
        List.length_range]
      by_cases h : start ≤ i ∧ i < start + chunk
      · rw [if_pos (by omega), if_pos h, List.getElem?_map, List.getElem?_range (by omega),
          Option.map_some, Nat.add_sub_cancel' h.1]
      · rw [if_neg (by omega), if_neg h]
    rw [hfirst]
    by_cases hrest : ∃ s ∈ starts, s ≤ i ∧ i < s + chunk
    · have hall : ∃ s ∈ start :: starts, s ≤ i ∧ i < s + chunk := by
        obtain ⟨s, hs, h⟩ := hrest
        exact ⟨s, List.mem_cons_of_mem _ hs, h⟩
      rw [if_pos hrest, if_pos hall]
    · have hall : (∃ s ∈ start :: starts, s ≤ i ∧ i < s + chunk) ↔
          start ≤ i ∧ i < start + chunk := by
        rw [List.exists_mem_cons_iff]
        exact or_iff_left hrest
      rw [if_neg hrest, if_congr hall rfl rfl]

theorem chunkSize_pos (length : Nat) (workers : Int) : 0 < chunkSize length workers := by
  rw [chunkSize]
  omega

/-- Filling succeeds on as many slots as there are points, and each slot holds its value. -/
theorem fill_eq {target : Array Fp} (hsize : target.size = e.size) (workers : Int) :
    fill target v e workers = .ok ((List.range e.size).map (valueAt v e)).toArray := by
  rw [fill, if_pos hsize]
  refine congrArg Except.ok (Array.ext_getElem? fun i => ?_)
  have hchunk := chunkSize_pos target.size workers
  generalize chunkSize target.size workers = chunk at hchunk
  rcases Nat.lt_or_ge i e.size with hi | hi
  · rw [getElem?_fillChunks v e target _ (hsize ▸ hi), if_pos]
    · simp [hi]
    · refine ⟨chunk * (i / chunk), List.mem_map.mpr ⟨i / chunk, ?_, rfl⟩, ?_⟩
      · have hstart : i / chunk * chunk ≤ i := Nat.div_mul_le_self i chunk
        rw [List.mem_range, Nat.lt_iff_add_one_le, Nat.le_div_iff_mul_le hchunk, hsize,
          add_one_mul]
        omega
      · have := Nat.div_add_mod i chunk
        have := Nat.mod_lt i hchunk
        omega
  · rw [Array.getElem?_eq_none (by rw [size_fillChunks, hsize]; exact hi)]
    simp [hi]

end Vanishing

/-! Filling in place. The values of a chunk are powers by repeated doubling, and they are written
over whatever its slots hold. The chunks cut the slots into pieces, each slot in one of them, so the
order in which they are filled does not matter. -/

section Doubling

variable {α : Type}

/-- While there is room, the entries that stand are put behind themselves, `step` times as large. -/
def doubleFrom [Mul α] (out : Array α) (filled : Nat) (step : α) : Array α :=
  if 0 < filled ∧ filled < out.size then
    let k := min filled (out.size - filled)
    doubleFrom (Vanishing.writeFrom out filled ((out.toList.take k).map (· * step))) (filled + k)
      (step * step)
  else out
termination_by out.size - filled
decreasing_by
  rw [Vanishing.size_writeFrom]
  omega

def doubledPowers [One α] [Mul α] (x : α) (n : Nat) : Array α :=
  doubleFrom (.replicate n 1) 1 x

variable [Monoid α] {x : α}

/-- The first entries are powers, and `step` is the one that comes next. -/
structure Doubling (x : α) (out : Array α) (filled : Nat) (step : α) : Prop where
  pos : 0 < filled
  powers (i : Nat) (hfilled : i < filled) (hi : i < out.size) : out[i]? = some (x ^ i)
  step (h : filled < out.size) : step = x ^ filled

theorem Doubling.next {out : Array α} {filled : Nat} {step : α} (h : Doubling x out filled step)
    (hroom : filled < out.size) :
    Doubling x (Vanishing.writeFrom out filled
        ((out.toList.take (min filled (out.size - filled))).map (· * step)))
      (filled + min filled (out.size - filled)) (step * step) := by
  have hstep := h.step hroom
  constructor
  case pos =>
    have := h.pos
    omega
  case powers =>
    intro i hfilled hi
    rw [Vanishing.size_writeFrom] at hi
    rw [Vanishing.getElem?_writeFrom _ _ _ hi, List.length_map, List.length_take, Array.length_toList]
    rcases Nat.lt_or_ge i filled with hlt | hge
    · rw [if_neg (by omega)]
      exact h.powers i hlt hi
    · -- The copy of an entry is `x ^ filled` times as large as the entry.
      have hcopied : out[i - filled]? = some (x ^ (i - filled)) :=
        h.powers _ (by omega) (by omega)
      rw [if_pos (by omega), List.getElem?_map, List.getElem?_take_of_lt (by omega),
        Array.getElem?_toList, hcopied, Option.map_some, hstep, ← pow_add, Nat.sub_add_cancel hge]
  case step =>
    intro hmore
    rw [Vanishing.size_writeFrom] at hmore
    rw [hstep, ← pow_add]
    congr 1
    omega

theorem getElem?_doubleFrom {out : Array α} {filled : Nat} {step : α}
    (h : Doubling x out filled step) {i : Nat} (hi : i < out.size) :
    (doubleFrom out filled step)[i]? = some (x ^ i) := by
  fun_induction doubleFrom out filled step with
  | case1 out filled step hroom k ih =>
    exact ih (h.next hroom.2) (by rwa [Vanishing.size_writeFrom])
  | case2 out filled step hfull =>
    have := h.pos
    exact h.powers i (by omega) hi

theorem size_doubleFrom (out : Array α) (filled : Nat) (step : α) :
    (doubleFrom out filled step).size = out.size := by
  fun_induction doubleFrom out filled step with
  | case1 out filled step hroom k ih => rw [ih, Vanishing.size_writeFrom]
  | case2 out filled step hfull => rfl

theorem doubledPowers_eq (x : α) (n : Nat) : (doubledPowers x n).toList = powers x n := by
  have hfirst : Doubling x (Array.replicate n (1 : α)) 1 x := by
    refine ⟨Nat.one_pos, fun i hone hi => ?_, fun _ => (pow_one x).symm⟩
    obtain rfl : i = 0 := by omega
    rw [Array.size_replicate] at hi
    rw [Array.getElem?_replicate, if_pos hi, pow_zero]
  rw [Fourier.powers_eq]
  refine List.ext_getElem? fun i => ?_
  rw [Array.getElem?_toList, List.getElem?_map]
  rcases Nat.lt_or_ge i n with hi | hi
  · rw [doubledPowers, getElem?_doubleFrom hfirst (by rwa [Array.size_replicate]),
      List.getElem?_range hi, Option.map_some]
  · rw [List.getElem?_eq_none (by rwa [List.length_range]), Option.map_none]
    exact Array.getElem?_eq_none (by rwa [doubledPowers, size_doubleFrom, Array.size_replicate])

end Doubling

namespace Vanishing

/-- Work that may fail, on an array that is changed in place. -/
abbrev InPlace := ExceptT Error (StateM (Array Fp))

/-- The values at the points `start, …, stop - 1`, from powers by doubling. -/
def doubledValues (v e : Domain) (start stop : Nat) : List Fp :=
  let g := power e.generator v.size
  let first := power e.offset v.size * power g start
  (doubledPowers g (stop - start)).toList.map fun p => first * p - v.offsetPower

/-- Writes the values over the slots of one chunk. -/
def overwrite (v e : Domain) (chunk start : Nat) (target : Array Fp) : Array Fp :=
  writeFrom target start (doubledValues v e start (min (start + chunk) target.size))

/-- Fills the chunks that begin at `starts`, one after the other. -/
def fillInPlace (v e : Domain) (workers : Int) (starts : List Nat) : InPlace Unit := do
  let target ← get
  if target.size = e.size then
    starts.forM fun start => modify (overwrite v e (chunkSize target.size workers) start)
  else throw (.length (.slots target.size e.size))

/-- Some array of `n` slots is changed at slot `i`. -/
def Writes {α : Type} (n : Nat) (f : Array α → Array α) (i : Nat) : Prop :=
  ∃ target : Array α, target.size = n ∧ (f target)[i]? ≠ target[i]?

variable (v e : Domain)

theorem valueAt_eq (i : Nat) : valueAt v e i = v.vanishingAt (e.element i) := by
  rw [valueAt, Domain.vanishingAt, power_eq_pow, Domain.offsetPower, power_eq_pow]
  rfl

theorem doubledValues_eq (start stop : Nat) :
    doubledValues v e start stop = chunkValues v e start stop := by
  rw [doubledValues, chunkValues, doubledPowers_eq, Fourier.powers_eq, Fourier.powersFrom_eq,
    List.map_map, List.map_map]
  rfl

variable {chunk : Nat}

theorem overwrite_eq (start : Nat) (target : Array Fp) :
    overwrite v e chunk start target = fillChunk v e chunk target start := by
  rw [overwrite, fillChunk, doubledValues_eq]

theorem run_forM_overwrite (starts : List Nat) (target : Array Fp) :
    (starts.forM fun start => (modify (overwrite v e chunk start) : InPlace Unit)) target =
      (.ok (), fillChunks v e chunk target starts) := by
  induction starts generalizing target with
  | nil => rfl
  | cons start starts ih =>
    have hfirst : fillChunks v e chunk target (start :: starts) =
        fillChunks v e chunk (overwrite v e chunk start target) starts := by
      rw [overwrite_eq]
      rfl
    rw [hfirst]
    exact ih (overwrite v e chunk start target)

theorem fillInPlace_of_size {target : Array Fp} (hsize : target.size = e.size) (workers : Int)
    (starts : List Nat) : fillInPlace v e workers starts target =
      (.ok (), fillChunks v e (chunkSize target.size workers) target starts) := by
  rw [← run_forM_overwrite]
  change (if target.size = e.size then _ else _ : InPlace Unit) target = _
  rw [if_pos hsize]

theorem fillInPlace_of_size_ne {target : Array Fp} (hsize : target.size ≠ e.size) (workers : Int)
    (starts : List Nat) : fillInPlace v e workers starts target =
      (.error (.length (.slots target.size e.size)), target) := by
  change (if target.size = e.size then _ else _ : InPlace Unit) target = _
  rw [if_neg hsize]
  rfl

/-- Filling is filling in place, the chunks from the first to the last. -/
theorem fill_eq_fillInPlace (workers : Int) (target : Array Fp) : fill target v e workers =
    match fillInPlace v e workers (chunkStarts target.size (chunkSize target.size workers)) target with
    | (.ok (), filled) => .ok filled
    | (.error err, _) => .error err := by
  rw [fill]
  by_cases hsize : target.size = e.size
  · rw [if_pos hsize, fillInPlace_of_size v e hsize]
  · rw [if_neg hsize, fillInPlace_of_size_ne v e hsize]

/-- A chunk writes its own slots, whatever they hold. -/
theorem writes_overwrite_iff (start : Nat) {n i : Nat} (hi : i < n) :
    Writes n (overwrite v e chunk start) i ↔ start ≤ i ∧ i < start + chunk := by
  have hslot {target : Array Fp} (hn : target.size = n) :
      (overwrite v e chunk start target)[i]? =
        if start ≤ i ∧ i < start + chunk then some (valueAt v e i) else target[i]? := by
    rw [overwrite_eq, show fillChunk v e chunk target start = fillChunks v e chunk target [start]
      from rfl, getElem?_fillChunks v e target [start] (hn ▸ hi)]
    simp only [List.mem_singleton, exists_eq_left]
  constructor
  · rintro ⟨target, hn, hchanged⟩
    by_contra hnot
    rw [hslot hn, if_neg hnot] at hchanged
    exact hchanged rfl
  · intro hcovers
    -- Any content but the value itself is changed.
    refine ⟨.replicate n (valueAt v e i + 1), Array.size_replicate, ?_⟩
    rw [hslot Array.size_replicate, if_pos hcovers, Array.getElem?_replicate, if_pos hi]
    intro heq
    have hsame : valueAt v e i = valueAt v e i + 1 := Option.some.inj heq
    exact one_ne_zero (left_eq_add.mp hsame)

theorem nodup_chunkStarts (length : Nat) (hchunk : 0 < chunk) : (chunkStarts length chunk).Nodup :=
  List.nodup_range.map fun _ _ h => Nat.eq_of_mul_eq_mul_left hchunk h

/-- The chunk that a slot belongs to is the one that begins at the last multiple before it. -/
theorem mem_chunkStarts_covers_iff {length start i : Nat} (hchunk : 0 < chunk) (hi : i < length) :
    start ∈ chunkStarts length chunk ∧ start ≤ i ∧ i < start + chunk ↔
      start = chunk * (i / chunk) := by
  have hdiv := Nat.div_add_mod i chunk
  have hmod := Nat.mod_lt i hchunk
  constructor
  · rintro ⟨hstart, hle, hlt⟩
    obtain ⟨k, -, rfl⟩ := List.mem_map.mp hstart
    rw [Nat.div_eq_of_lt_le]
    · rwa [Nat.mul_comm]
    · rw [Nat.add_one_mul, Nat.mul_comm]
      exact hlt
  · rintro rfl
    refine ⟨List.mem_map.mpr ⟨i / chunk, ?_, rfl⟩, by omega, by omega⟩
    have hstart : i / chunk * chunk ≤ i := Nat.div_mul_le_self i chunk
    rw [List.mem_range, Nat.lt_iff_add_one_le, Nat.le_div_iff_mul_le hchunk, add_one_mul]
    omega

/-- Filling in place gives what filling gives, whatever the order of the chunks. -/
theorem fillInPlace_eq {target : Array Fp} (hsize : target.size = e.size) {workers : Int}
    {starts : List Nat}
    (horder : starts.Perm (chunkStarts target.size (chunkSize target.size workers))) :
    fillInPlace v e workers starts target =
      (.ok (), ((List.range e.size).map (valueAt v e)).toArray) := by
  have hfill := fill_eq v e hsize workers
  rw [fill, if_pos hsize] at hfill
  rw [fillInPlace_of_size v e hsize, ← Except.ok.inj hfill]
  congr 1
  refine Array.ext_getElem? fun i => ?_
  rcases Nat.lt_or_ge i target.size with hi | hi
  · rw [getElem?_fillChunks v e target _ hi, getElem?_fillChunks v e target _ hi]
    simp only [horder.mem_iff]
  · rw [Array.getElem?_eq_none (by rwa [size_fillChunks]),
      Array.getElem?_eq_none (by rwa [size_fillChunks])]

/-- In any order of its chunks, filling writes the value of the vanishing polynomial at each point,
each from one chunk; an array of another length is refused and kept. -/
theorem fillInPlace_any_order (workers : Int) (target : Array Fp) (starts : List Nat) :
    (target.size = e.size →
      starts.Perm (chunkStarts target.size (chunkSize target.size workers)) →
      fillInPlace v e workers starts target =
        (.ok (), ((List.range e.size).map fun i => v.vanishingAt (e.element i)).toArray) ∧
      starts.Nodup ∧ ∀ i < e.size, ∃! start, start ∈ starts ∧
        Writes e.size (overwrite v e (chunkSize target.size workers) start) i) ∧
    (target.size ≠ e.size → fillInPlace v e workers starts target =
      (.error (.length (.slots target.size e.size)), target)) := by
  refine ⟨fun hsize horder => ⟨?_, ?_, fun i hi => ?_⟩,
    fun hsize => fillInPlace_of_size_ne v e hsize _ _⟩
  · have hvalues : valueAt v e = fun i => v.vanishingAt (e.element i) := funext (valueAt_eq v e)
    rw [fillInPlace_eq v e hsize horder, hvalues]
  · exact horder.nodup_iff.mpr (nodup_chunkStarts _ (chunkSize_pos _ _))
  · have hchunk := chunkSize_pos target.size workers
    generalize chunkSize target.size workers = chunk at horder hchunk
    simp only [horder.mem_iff, writes_overwrite_iff v e _ hi]
    refine ⟨chunk * (i / chunk), ?_, fun start h => ?_⟩
    · exact (mem_chunkStarts_covers_iff hchunk (hsize ▸ hi)).mpr rfl
    · exact (mem_chunkStarts_covers_iff hchunk (hsize ▸ hi)).mp h

theorem fillInPlace_coset_backwards :
    [3072, 2048, 1024, 0].Perm (chunkStarts 4096 (chunkSize 4096 4)) ∧
    fillInPlace ⟨1, 1, by decide⟩ ⟨12, Fp.generator, by decide⟩ 4 [3072, 2048, 1024, 0]
        (.replicate 4096 0) =
      (.ok (), ((List.range 4096).map fun i => Domain.vanishingAt ⟨1, 1, by decide⟩
        (Domain.element ⟨12, Fp.generator, by decide⟩ i)).toArray) := by
  have horder : [3072, 2048, 1024, 0].Perm (chunkStarts 4096 (chunkSize 4096 4)) := by decide
  have hsize : (Array.replicate 4096 (0 : Fp)).size = 4096 := Array.size_replicate
  have hfilled := fillInPlace_any_order ⟨1, 1, by decide⟩ ⟨12, Fp.generator, by decide⟩ 4
    (.replicate 4096 0) [3072, 2048, 1024, 0]
  exact ⟨horder, (hfilled.1 hsize (by rwa [hsize])).1⟩

end Vanishing

end TapeStark
