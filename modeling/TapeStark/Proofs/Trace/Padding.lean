import Mathlib
import TapeStark.Proofs.Air.Complete

/-! What padding makes of the tables of a run: each table reaches the height that the claim implies,
the processor only appends its halted row, and the memory and the instruction table stay sorted
reorderings of what they list. -/

namespace TapeStark

open Simulator Trace

/-- A list of numbers below a bound, taken apart by value. -/
theorem flatMap_replicate_count_perm {l : List Nat} {n : Nat} (h : ∀ x ∈ l, x < n) :
    ((List.range n).flatMap fun k => List.replicate (l.count k) k).Perm l := by
  refine List.perm_iff_count.mpr fun x => ?_
  rw [List.count_flatMap]
  simp only [Function.comp_def, List.count_replicate, beq_iff_eq]
  calc ((List.range n).map fun k => if k = x then l.count k else 0).sum
      = ∑ k ∈ Finset.range n, if k = x then l.count k else 0 := rfl
    _ = if x ∈ Finset.range n then l.count x else 0 := Finset.sum_ite_eq' ..
    _ = l.count x := by
      rw [ite_eq_left_iff, Finset.mem_range]
      exact fun hx => (List.count_eq_zero.mpr fun hmem => hx (h x hmem)).symm

namespace Trace

theorem padStream_of_length {rows : List StreamRow}
    (h : nextPowerOfTwo (max rows.length 1 : Nat) = rows.length) : padStream rows = rows := by
  rw [padStream, h, Nat.sub_self, List.replicate_zero, List.append_nil]

theorem padStream_padStream (rows : List StreamRow) :
    padStream (padStream rows) = padStream rows := by
  refine padStream_of_length ?_
  have hle := le_nextPowerOfTwo (max rows.length 1 : Nat)
  rw [length_padStream, Nat.max_eq_left (by omega), nextPowerOfTwo_nextPowerOfTwo]

theorem append_of_splitAfterCell {mp : Fp} {rows before after : List MemoryRow}
    (h : splitAfterCell mp rows = some (before, after)) : before ++ after = rows := by
  rw [splitAfterCell] at h
  split at h
  · cases h
  · cases h
    exact List.take_append_drop ..

/-- Tables of the right heights need no padding. -/
theorem pad_of_lengths {t : Trace} (programLength : Nat) {halted : ProcessorRow}
    (hlast : t.processor.getLast? = some halted) (hmemory : ∃ q ∈ t.memory, q.mp = halted.mp)
    (hprocessor : nextPowerOfTwo t.processor.length = t.processor.length)
    (hinstruction : nextPowerOfTwo t.instruction.length = t.instruction.length)
    (hinput : padStream t.input = t.input) (houtput : padStream t.output = t.output) :
    t.pad programLength = .ok t := by
  obtain ⟨before, last, after, hsplit, -⟩ := splitAfterCell_eq_some hmemory
  have hrows := append_of_splitAfterCell hsplit
  rw [pad, hlast]
  dsimp only
  rw [hsplit, hprocessor, Nat.sub_self]
  have hhalted : haltedRows halted 0 = .ok [] := rfl
  have hempty : emptyRows (programLength + 1) 0 = .ok [] := rfl
  dsimp only
  rw [hhalted, ok_bind, List.map_nil, List.append_nil, hinstruction, Nat.sub_self, hempty, ok_bind,
    List.map_nil, List.append_nil, List.append_nil, List.append_nil, hrows, hinput, houtput]
  rfl

/-- What padding makes of the tables `t` of a run of the program that ends in `s`. -/
structure PadsTo (program : Program) (s : State) (t padded : Trace) : Prop where
  /-- The heights are those that the verifier derives from the claim. -/
  heights : padded.heights =
    Heights.ofClaim (claimOf program s) (nextPowerOfTwo (s.clk + 1 : Nat))
  /-- The last row of the run is the halted one. -/
  halted : t.processor.getLast? = some (rowOf (s.observe 0 0))
  /-- It is repeated, with the clock counting on. -/
  processor : ∃ count, padded.processor = t.processor ++ (List.range count).map fun j =>
    { rowOf (s.observe 0 0) with clk := .ofNat (s.clk + 1 + j) }
  clock : ∀ i (hi : i < padded.processor.length), padded.processor[i].clk.val = i
  memory_ordered : padded.memory.Pairwise fun a b => memoryLe a b = true
  memory_perm : padded.memory.Perm (padded.processor.map (·.memory))
  instruction_ordered : padded.instruction.Pairwise fun a b => instructionLe a b = true
  /-- The rows at an address start with the program's. -/
  leader : ∀ k ≤ program.size,
    (padded.instruction.filter (·.ip = .ofNat k)).head? = some (wordRow program k)
  /-- The others are those of the processor. -/
  copies : ((List.range (program.size + 1)).flatMap fun k =>
    (padded.instruction.filter (·.ip = .ofNat k)).tail).Perm
      (padded.processor.map (·.instruction))
  again : padded.pad program.size = .ok padded

end Trace

/-- The clocks and the addresses of padded tables are below the characteristic. -/
def Heights.InField (h : Heights) (program : Nat) : Prop :=
  h.processor ≤ prime ∧ program + 1 + h.padding program ≤ prime

namespace Run

variable {program : Program} {input : ByteArray} (r : Run program input) {t : Trace}

theorem padFits_iff : r.PadFits ↔ (Heights.ofClaim r.claim r.height).InField program.size := by
  rw [Heights.InField, r.size_add_padding]
  refine ⟨fun h => ⟨Int.ofNat_le.mpr h.clock, Int.ofNat_le.mpr h.address⟩, fun h => ⟨?_, ?_⟩⟩
  · exact Int.ofNat_le.mp h.1
  · exact Int.ofNat_le.mp h.2

/-- The rows of a run that has been padded need no more. -/
theorem Padded.pad_again (h : r.Padded t) : t.pad program.size = .ok t := by
  have hlt := r.lt_height
  have hprocessor : t.processor.length = r.height := by simp [h.processor]
  have hinstruction : t.instruction.length = nextPowerOfTwo (program.size + 1 + r.height) :=
    Int.ofNat.inj (congrArg PerTable.instruction h.heights_eq)
  obtain ⟨j, hj⟩ : ∃ j, r.height = r.length + j + 1 := Nat.exists_eq_add_of_lt hlt
  have hlast : t.processor.getLast? = some (r.row (r.length + j)) := by
    rw [h.processor, hj, List.range_succ, List.map_append, List.map_singleton, List.getLast?_concat]
  refine pad_of_lengths program.size hlast ⟨(r.row (r.length + j)).memory, ?_, rfl⟩ ?_ ?_ ?_ ?_
  · exact (h.memory_perm r).mem_iff.mpr (List.mem_map_of_mem (List.mem_range.mpr (by omega)))
  · rw [hprocessor, height, nextPowerOfTwo_nextPowerOfTwo]
  · rw [hinstruction, nextPowerOfTwo_nextPowerOfTwo]
  · rw [h.input, padStream_padStream]
  · rw [h.output, padStream_padStream]

section Layout

variable {starts : Nat → Prop} (hlayout : Program.Layout program [] starts) (h : r.Padded t)
  (hpad : r.PadFits)

include hlayout h hpad

theorem Padded.instruction_ordered :
    t.instruction.Pairwise fun a b => instructionLe a b = true := by
  rw [h.instruction_eq r hlayout (r.size_lt_prime hpad), List.pairwise_map]
  refine (r.pairwise_addresses hlayout).imp_of_mem fun {x y} hx hy hxy => ?_
  have hreach : r.reach ≤ prime := hpad.address
  have hx := (r.mem_addresses hlayout x).mp hx
  have hy := (r.mem_addresses hlayout y).mp hy
  rw [instructionLe, wordRow, wordRow, Fp.val_ofNat_of_lt (by omega), Fp.val_ofNat_of_lt (by omega)]
  exact decide_eq_true hxy

/-- At an address of the program stand its row there and a copy for each cycle. -/
theorem Padded.filter_instruction {k : Nat} (hk : k ≤ program.size) :
    t.instruction.filter (·.ip = .ofNat k) = wordRow program k ::
      List.replicate (((List.range r.height).map r.address).count k) (wordRow program k) := by
  have hreach : r.reach ≤ prime := hpad.address
  have hsize := r.size_lt_prime hpad
  have hcount : r.addresses.count k = ((List.range r.height).map r.address).count k + 1 := by
    rw [r.addresses_perm.count_eq, List.count_append, List.count_range, if_pos, Nat.add_comm]
    rw [reach]
    omega
  have hfilter : r.addresses.filter ((fun row : InstructionRow => decide (row.ip = .ofNat k)) ∘
      wordRow program) = r.addresses.filter fun x => decide (x = k) := by
    refine List.filter_congr fun x hx => ?_
    have hx := (r.mem_addresses hlayout x).mp hx
    rw [Function.comp_apply, decide_eq_decide, wordRow]
    refine ⟨fun heq => ?_, fun heq => by rw [heq]⟩
    have := congrArg Fp.val heq
    rwa [Fp.val_ofNat_of_lt (by omega), Fp.val_ofNat_of_lt (by omega)] at this
  rw [h.instruction_eq r hlayout hsize, List.filter_map, hfilter, List.filter_eq, hcount,
    List.map_replicate, List.replicate_succ]

theorem Padded.copies_perm : ((List.range (program.size + 1)).flatMap fun k =>
    (t.instruction.filter (·.ip = .ofNat k)).tail).Perm (t.processor.map (·.instruction)) := by
  have hgroups : ((List.range (program.size + 1)).flatMap fun k =>
      (t.instruction.filter (·.ip = .ofNat k)).tail) =
      ((List.range (program.size + 1)).flatMap fun k =>
        List.replicate (((List.range r.height).map r.address).count k) k).map
          (wordRow program) := by
    rw [List.map_flatMap]
    refine List.flatMap_congr fun k hk => ?_
    rw [h.filter_instruction r hlayout hpad (Nat.le_of_lt_succ (List.mem_range.mp hk)),
      List.tail_cons, List.map_replicate]
  have hrows : t.processor.map (·.instruction) =
      ((List.range r.height).map r.address).map (wordRow program) := by
    rw [h.processor, List.map_map, List.map_map]
    exact List.map_congr_left fun k _ => r.instruction_row hlayout k
  rw [hgroups, hrows]
  refine (flatMap_replicate_count_perm fun x hx => ?_).map _
  obtain ⟨k, -, rfl⟩ := List.mem_map.mp hx
  exact Nat.lt_succ_of_le (r.address_le hlayout k)

theorem Padded.padsTo : PadsTo program (r.state r.length) r.trace t where
  heights := by
    rw [r.clk]
    exact h.heights_eq
  halted := by
    rw [trace, List.range_succ, List.map_append, List.map_singleton, List.getLast?_concat, row,
      State.seen, word_of_le r.halted, following_of_le r.halted]
  processor := by
    refine ⟨r.height - (r.length + 1), ?_⟩
    rw [h.processor, ← r.rows_append_tail, tail]
    refine congrArg _ (List.map_congr_left fun j _ => ?_)
    rw [Nat.add_assoc, r.row_add, r.clk, row, State.seen, word_of_le r.halted,
      following_of_le r.halted, Nat.add_assoc]
  clock i hi := by
    have hclock := hpad.clock
    simp only [h.processor, List.getElem_map, List.getElem_range, r.row_clk]
    rw [h.processor, List.length_map, List.length_range] at hi
    exact Fp.val_ofNat_of_lt (by omega)
  memory_ordered := h.memory_ordered r hpad.clock
  memory_perm := by
    refine (h.memory_perm r).trans ?_
    rw [memoryRows, h.processor, List.map_map]
    exact List.Perm.refl _
  instruction_ordered := h.instruction_ordered r hlayout hpad
  leader k hk := by rw [h.filter_instruction r hlayout hpad hk, List.head?_cons]
  copies := h.copies_perm r hlayout hpad
  again := h.pad_again r

end Layout

end Run

/-- The tables of a halted run of a compiled program are padded to the heights of its claim, unless
that takes a clock or an address past the field, for which there are too many instructions or
cycles. -/
theorem padsTo_of_simulate {source : String} {program : Program}
    (hcompile : Program.compile source = .ok program) {input : ByteArray} {limit : Int} {t : Trace}
    {claim : Claim} (hsim : simulate program input limit = .ok (t, claim)) :
    ∃ s, Simulator.execute program input limit = .ok s ∧ claim = claimOf program s ∧
      t.processor.length = s.clk + 1 ∧
      ((Heights.ofClaim claim (nextPowerOfTwo (s.clk + 1 : Nat))).InField program.size ∧
          (∃ padded, t.pad program.size = .ok padded ∧ PadsTo program s t padded) ∨
        ¬ (Heights.ofClaim claim (nextPowerOfTwo (s.clk + 1 : Nat))).InField program.size ∧
          (2 ^ 62 < program.size ∨ 2 ^ 63 ≤ s.clk) ∧ t.pad program.size = .error .outOfField) := by
  obtain ⟨starts, hlayout⟩ := Program.exists_layout hcompile
  obtain ⟨s, hs, h⟩ := bind_eq_ok.mp hsim
  obtain ⟨t', ht, h⟩ := bind_eq_ok.mp h
  cases h
  obtain ⟨r, rfl, -⟩ := exists_run hs
  obtain ⟨hfits, rfl⟩ := r.ofRun_eq_ok.mp ht
  refine ⟨_, hs, rfl, ?_, ?_⟩
  · simp [Run.trace, r.clk]
  · rw [r.clk]
    change (Heights.ofClaim r.claim r.height).InField program.size ∧ _ ∨
      ¬ (Heights.ofClaim r.claim r.height).InField program.size ∧ _
    rw [← r.padFits_iff]
    rcases r.pad_cases hfits with ⟨hpad, padded, hpadded, h⟩ | ⟨hno, herror⟩
    · exact .inl ⟨hpad, padded, hpadded, h.padsTo r hlayout hpad⟩
    · refine .inr ⟨hno, ?_, herror⟩
      by_contra hsmall
      exact hno (r.padFits_of_length (by omega) (by omega))

/-- The run of the program `>+<+` has four cycles. -/
private theorem exists_thereAndBack : ∃ t claim,
    simulate #[62, 43, 60, 43] ByteArray.empty 4 = .ok (t, claim) ∧ t.processor.length = 5 := by
  have h : ((simulate #[62, 43, 60, 43] ByteArray.empty 4).map fun x =>
      x.1.processor.length) = .ok 5 := by cbv
  obtain ⟨⟨t, claim⟩, hsim, hrows⟩ := map_eq_ok.mp h
  exact ⟨t, claim, hsim, hrows⟩

theorem padsTo_of_thereAndBack : ∃ t claim s padded,
    simulate #[62, 43, 60, 43] ByteArray.empty 4 = .ok (t, claim) ∧
      Simulator.execute #[62, 43, 60, 43] ByteArray.empty 4 = .ok s ∧
      t.pad 4 = .ok padded ∧ PadsTo #[62, 43, 60, 43] s t padded := by
  obtain ⟨t, claim, hsim, hrows⟩ := exists_thereAndBack
  have hcompile : Program.compile ">+<+" = .ok #[62, 43, 60, 43] := by decide +kernel
  obtain ⟨s, hs, -, hlength, h⟩ := padsTo_of_simulate hcompile hsim
  rcases h with ⟨-, padded, hpadded, h⟩ | ⟨-, hlarge | hlarge, -⟩
  · exact ⟨t, claim, s, padded, hsim, hs, hpadded, h⟩
  · exact absurd hlarge (by decide)
  · omega

end TapeStark
