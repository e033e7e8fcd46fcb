import Mathlib
import TapeStark.Proofs.Basic
import TapeStark.Proofs.Field.Lawful
import TapeStark.Proofs.Machine.Run
import TapeStark.Trace.Basic

/-! The tables of a run and their padding, read off the sequence of its states. -/

namespace TapeStark

section Rows

open Simulator

namespace Fp

theorem ofInt_natCast (n : Nat) : ofInt n = ofNat n := by
  apply Fp.ext
  rw [val_ofNat]
  exact congrArg Int.toNat (Int.natCast_emod n prime).symm

theorem val_ofNat_of_lt {n : Nat} (h : n < prime) : (ofNat n).val = n := Nat.mod_eq_of_lt h

theorem val_ofInt_of_lt {n : Int} (h0 : 0 ≤ n) (h : n < prime) : (ofInt n).val = n.toNat :=
  congrArg Int.toNat (Int.emod_eq_of_lt h0 h)

end Fp

namespace Trace

def IsCell (n : Int) : Prop := 0 ≤ n ∧ n < prime

theorem isCell_natCast {n : Nat} (h : n < prime) : IsCell n := ⟨by omega, by exact_mod_cast h⟩

theorem cell_eq_ok {n : Int} {a : Fp} : cell n = .ok a ↔ IsCell n ∧ a = Fp.ofInt n := by
  rw [cell, Fp.ofInt?]
  by_cases h : 0 ≤ n ∧ n < prime
  · rw [dif_pos h]
    have value : (⟨n.toNat, by omega⟩ : Fp) = Fp.ofInt n :=
      Fp.ext (Fp.val_ofInt_of_lt h.1 h.2).symm
    rw [value]
    constructor
    · intro e
      exact ⟨h, (Except.ok.inj e).symm⟩
    · rintro ⟨-, rfl⟩
      rfl
  · rw [dif_neg h]
    refine ⟨fun e => ?_, fun e => absurd e.1 h⟩
    cases e

theorem cell_error {n : Int} {e : Error} (h : cell n = .error e) : e = .outOfField := by
  rw [cell] at h
  split at h
  · cases h
  · exact (Except.error.inj h).symm

def rowOf (s : Step) : ProcessorRow where
  clk := .ofNat s.clk
  ip := .ofInt s.ip
  ci := .ofInt s.ci
  ni := .ofInt s.ni
  mp := .ofNat s.mp
  mv := s.mv
  inv := s.mv⁻¹
  flag i := if s.ci = i.code then 1 else 0

structure CellsOf (s : Step) : Prop where
  clk : IsCell s.clk
  ip : IsCell s.ip
  ci : IsCell s.ci
  ni : IsCell s.ni
  mp : IsCell s.mp

theorem processorRow_eq_ok {s : Step} {row : ProcessorRow} :
    processorRow s = .ok row ↔ CellsOf s ∧ row = rowOf s := by
  simp only [processorRow, bind_eq_ok, cell_eq_ok, pure_eq_ok, Except.ok.injEq]
  constructor
  · rintro ⟨_, ⟨h1, rfl⟩, _, ⟨h2, rfl⟩, _, ⟨h3, rfl⟩, _, ⟨h4, rfl⟩, _, ⟨h5, rfl⟩, rfl⟩
    exact ⟨⟨h1, h2, h3, h4, h5⟩, by simp [rowOf, Fp.ofInt_natCast]⟩
  · rintro ⟨⟨h1, h2, h3, h4, h5⟩, rfl⟩
    exact ⟨_, ⟨h1, rfl⟩, _, ⟨h2, rfl⟩, _, ⟨h3, rfl⟩, _, ⟨h4, rfl⟩, _, ⟨h5, rfl⟩, by
      simp [rowOf, Fp.ofInt_natCast]⟩

/-- The row of the instruction table for the word at an address. -/
def wordRow (program : Program) (k : Nat) : InstructionRow :=
  ⟨.ofNat k, .ofInt (program.getD k 0), .ofInt (program.getD (k + 1) 0)⟩

/-- A program whose words and addresses are cells. -/
structure CellProgram (program : Program) : Prop where
  word (k : Nat) : IsCell (program.getD k 0)
  size : program.size < prime

theorem programRows_eq_ok {program : Program} {rows : List InstructionRow} :
    programRows program = .ok rows ↔
      CellProgram program ∧ rows = (List.range (program.size + 1)).map (wordRow program) := by
  have step (k : Nat) (row : InstructionRow) :
      (do
        let ip ← cell k
        let ci ← cell (program.getD k 0)
        let ni ← cell (program.getD (k + 1) 0)
        return (⟨ip, ci, ni⟩ : InstructionRow)) = .ok row ↔
        (IsCell k ∧ IsCell (program.getD k 0) ∧ IsCell (program.getD (k + 1) 0)) ∧
          row = wordRow program k := by
    simp only [bind_eq_ok, cell_eq_ok, pure_eq_ok, Except.ok.injEq]
    constructor
    · rintro ⟨_, ⟨h1, rfl⟩, _, ⟨h2, rfl⟩, _, ⟨h3, rfl⟩, rfl⟩
      exact ⟨⟨h1, h2, h3⟩, by rw [wordRow, Fp.ofInt_natCast]⟩
    · rintro ⟨⟨h1, h2, h3⟩, rfl⟩
      exact ⟨_, ⟨h1, rfl⟩, _, ⟨h2, rfl⟩, _, ⟨h3, rfl⟩, by rw [wordRow, Fp.ofInt_natCast]⟩
  rw [programRows, mapM_eq_ok_iff step]
  refine and_congr_left fun _ => ⟨fun h => ⟨fun k => ?_, ?_⟩, fun h k hk => ?_⟩
  · by_cases hk : k < program.size + 1
    · exact (h k (List.mem_range.mpr hk)).2.1
    · rw [Array.getD_eq_getD_getElem?, Array.getElem?_eq_none (by omega)]
      exact isCell_natCast (n := 0) prime_pos
  · exact_mod_cast (h program.size (List.mem_range.mpr (by omega))).1.2
  · have := h.size
    have := List.mem_range.mp hk
    exact ⟨isCell_natCast (by omega), h.word k, h.word (k + 1)⟩

theorem haltedRows_eq_ok {halted : ProcessorRow} {count : Nat} {rows : List ProcessorRow} :
    haltedRows halted count = .ok rows ↔
      (∀ j ∈ List.range count, halted.clk.val + (j + 1) < prime) ∧
        rows = (List.range count).map fun j =>
          { halted with clk := .ofNat (halted.clk.val + (j + 1)) } := by
  refine mapM_eq_ok_iff fun j row => ?_
  simp only [bind_eq_ok, cell_eq_ok, pure_eq_ok, Except.ok.injEq]
  constructor
  · rintro ⟨_, ⟨h, rfl⟩, rfl⟩
    exact ⟨by exact_mod_cast h.2, by rw [Fp.ofInt_natCast]⟩
  · rintro ⟨h, rfl⟩
    exact ⟨_, ⟨isCell_natCast h, rfl⟩, by rw [Fp.ofInt_natCast]⟩

theorem haltedRows_error {halted : ProcessorRow} {count : Nat} {e : Error}
    (h : haltedRows halted count = .error e) : e = .outOfField := by
  obtain ⟨j, -, hj⟩ := error_of_mapM h
  cases hc : cell (halted.clk.val + (j + 1) : Nat) with
  | ok a => rw [hc] at hj; cases hj
  | error e' =>
    rw [hc] at hj
    cases hj
    exact cell_error hc

theorem emptyRows_error {start count : Nat} {e : Error}
    (h : emptyRows start count = .error e) : e = .outOfField := by
  obtain ⟨j, -, hj⟩ := error_of_mapM h
  cases hc : cell (start + j : Nat) with
  | ok a => rw [hc] at hj; cases hj
  | error e' =>
    rw [hc] at hj
    cases hj
    exact cell_error hc

theorem emptyRows_eq_ok {start count : Nat} {rows : List InstructionRow} :
    emptyRows start count = .ok rows ↔
      (∀ j ∈ List.range count, start + j < prime) ∧
        rows = (List.range count).map fun j => ⟨.ofNat (start + j), 0, 0⟩ := by
  refine mapM_eq_ok_iff fun j row => ?_
  simp only [bind_eq_ok, cell_eq_ok, pure_eq_ok, Except.ok.injEq]
  constructor
  · rintro ⟨_, ⟨h, rfl⟩, rfl⟩
    exact ⟨by exact_mod_cast h.2, by rw [Fp.ofInt_natCast]⟩
  · rintro ⟨h, rfl⟩
    exact ⟨_, ⟨isCell_natCast h, rfl⟩, by rw [Fp.ofInt_natCast]⟩

end Trace

end Rows

/-! The tables of a run, and their padding as the rows of the run continued behind its end. -/

section Padded

open Simulator Trace

namespace Trace

/-- The split behind the last row of a cell that has one. -/
theorem splitAfterCell_eq_some {mp : Fp} {rows : List MemoryRow} (h : ∃ q ∈ rows, q.mp = mp) :
    ∃ before last after, splitAfterCell mp rows = some (before ++ [last], after) ∧
      rows = before ++ last :: after ∧ last.mp = mp ∧ ∀ q ∈ after, q.mp ≠ mp := by
  rw [splitAfterCell]
  have parts := List.takeWhile_append_dropWhile (p := fun q : MemoryRow => q.mp ≠ mp)
    (l := rows.reverse)
  have other (q : MemoryRow) (hq : q ∈ rows.reverse.takeWhile fun q : MemoryRow => q.mp ≠ mp) :=
    List.mem_takeWhile_imp hq
  generalize hb : rows.reverse.takeWhile (fun q : MemoryRow => q.mp ≠ mp) = behind at parts other
  cases hd : rows.reverse.dropWhile (fun q : MemoryRow => q.mp ≠ mp) with
  | nil =>
    obtain ⟨q, hq, hmp⟩ := h
    rw [hd, List.append_nil] at parts
    have := other q (by rw [parts]; exact List.mem_reverse.mpr hq)
    simp [hmp] at this
  | cons last front =>
    have hlast : last.mp = mp := by
      have := List.head_dropWhile_not (fun q : MemoryRow => q.mp ≠ mp) (l := rows.reverse)
        (by rw [hd]; simp)
      simp only [hd, List.head_cons] at this
      simpa using this
    rw [hd] at parts
    have whole : rows = front.reverse ++ last :: behind.reverse := by
      rw [← List.reverse_reverse rows, ← parts]
      simp
    have count : rows.length - behind.length = front.reverse.length + 1 := by
      rw [whole]
      simp
      omega
    refine ⟨front.reverse, last, behind.reverse, ?_, whole, hlast, fun q hq => ?_⟩
    · rw [if_neg (by rw [whole]; simp; omega), count, whole]
      congr 2
      · rw [List.take_append]
        simp
      · rw [List.drop_append]
        simp
    · simpa using other q (List.mem_reverse.mp hq)

theorem length_byteRows (bytes : ByteArray) : (byteRows bytes).length = bytes.size := by
  rw [byteRows, List.length_map, Array.length_toList]
  rfl

end Trace

namespace Run

variable {program : Program} {input : ByteArray} (r : Run program input)

def row (k : Nat) : ProcessorRow := rowOf ((r.state k).seen program)

theorem row_clk (k : Nat) : (r.row k).clk = .ofNat k := congrArg Fp.ofNat (r.clk k)

/-- Behind its end a run repeats the halted row, with the clock counting on. -/
theorem row_add (j : Nat) :
    r.row (r.length + j) = { r.row r.length with clk := .ofNat (r.length + j) } := by
  rw [row, r.state_add]
  rfl

def claim : Claim := claimOf program (r.state r.length)

def trace : Trace where
  processor := (List.range (r.length + 1)).map r.row
  memory := ((List.range (r.length + 1)).map fun k => (r.row k).memory).mergeSort memoryLe
  instruction := ((List.range (program.size + 1)).map (wordRow program) ++
    (List.range (r.length + 1)).map fun k => (r.row k).instruction).mergeSort instructionLe
  input := byteRows r.claim.input
  output := byteRows r.claim.output

structure Fits : Prop where
  steps (k : Nat) (h : k ≤ r.length) : CellsOf ((r.state k).seen program)
  program : CellProgram program

theorem ofRun_eq_ok {t : Trace} :
    ofRun program (r.state r.length) = .ok t ↔ r.Fits ∧ t = r.trace := by
  simp only [ofRun, bind_eq_ok, programRows_eq_ok, pure_eq_ok, Except.ok.injEq,
    mapM_eq_ok_iff fun s row => @processorRow_eq_ok s row, r.history, List.map_map]
  constructor
  · rintro ⟨_, ⟨hsteps, rfl⟩, _, ⟨hprogram, rfl⟩, rfl⟩
    refine ⟨⟨fun k hk => hsteps _ (List.mem_map.mpr ⟨k, ?_, rfl⟩), hprogram⟩, ?_⟩
    · exact List.mem_range.mpr (by omega)
    · simp [trace, row, Function.comp_def, claim, claimOf]
  · rintro ⟨hfits, rfl⟩
    refine ⟨_, ⟨fun s hs => ?_, rfl⟩, _, ⟨hfits.program, rfl⟩, ?_⟩
    · obtain ⟨k, hk, rfl⟩ := List.mem_map.mp hs
      exact hfits.steps k (by have := List.mem_range.mp hk; omega)
    · simp [trace, row, Function.comp_def, claim, claimOf]

/-- A simulation gives the tables and the claim of a run within the limit. -/
theorem exists_of_simulate {limit : Int} {t : Trace} {c : Claim}
    (h : simulate program input limit = .ok (t, c)) :
    ∃ r : Run program input, r.Fits ∧ t = r.trace ∧ c = r.claim ∧ r.length ≤ limit.toNat := by
  obtain ⟨s, hs, h⟩ := bind_eq_ok.mp h
  obtain ⟨t', ht, h⟩ := bind_eq_ok.mp h
  cases h
  obtain ⟨r, rfl, hlimit⟩ := exists_run hs
  obtain ⟨hfits, rfl⟩ := r.ofRun_eq_ok.mp ht
  exact ⟨r, hfits, rfl, rfl, hlimit⟩

def height : Nat := nextPowerOfTwo (r.length + 1 : Nat)

theorem lt_height : r.length < r.height := by
  have := le_nextPowerOfTwo (r.length + 1 : Nat)
  rw [height]
  omega

def tail : List ProcessorRow :=
  (List.range (r.height - (r.length + 1))).map fun j => r.row (r.length + 1 + j)

/-- The rows of the instruction table before the empty ones. -/
def filled : Nat := program.size + 1 + r.height

/-- The rows of empty words that pad the instruction table. -/
def emptied : Nat := nextPowerOfTwo r.filled - r.filled

/-- The padding reaches no integer outside the field. -/
structure PadFits : Prop where
  clock : r.height ≤ prime
  address : program.size + 1 + r.emptied ≤ prime

structure Padded (t : Trace) : Prop where
  processor : t.processor = (List.range r.height).map r.row
  memory : ∃ before last after, r.trace.memory = before ++ last :: after ∧
    last.mp = (r.row r.length).mp ∧ (∀ q ∈ after, q.mp ≠ (r.row r.length).mp) ∧
    t.memory = before ++ [last] ++ r.tail.map (·.memory) ++ after
  instruction : t.instruction = r.trace.instruction ++ r.tail.map (·.instruction) ++
    (List.range r.emptied).map fun j => ⟨.ofNat (program.size + 1 + j), 0, 0⟩
  input : t.input = padStream (byteRows r.claim.input)
  output : t.output = padStream (byteRows r.claim.output)

theorem rows_append_tail :
    (List.range (r.length + 1)).map r.row ++ r.tail = (List.range r.height).map r.row := by
  have hlt := r.lt_height
  obtain ⟨j, hj⟩ := Nat.exists_eq_add_of_lt hlt
  rw [tail, hj, show r.length + j + 1 - (r.length + 1) = j by omega,
    show r.length + j + 1 = r.length + 1 + j by omega, List.range_add (n := r.length + 1),
    List.map_append, List.map_map]
  rfl

theorem length_filled : (r.trace.instruction ++ r.tail.map (·.instruction)).length = r.filled := by
  have hlt := r.lt_height
  simp only [trace, tail, filled, List.length_append, List.length_mergeSort, List.length_map,
    List.length_range]
  omega

private theorem haltedRows_eq (hfits : r.Fits) {rows : List ProcessorRow} :
    haltedRows (r.row r.length) (r.height - (r.length + 1)) = .ok rows ↔
      r.height ≤ prime ∧ rows = r.tail := by
  have hlt := r.lt_height
  have hclk : (r.row r.length).clk.val = r.length := by
    have := (hfits.steps r.length (Nat.le_refl _)).clk.2
    rw [State.seen, State.observe, r.clk] at this
    rw [r.row_clk, Fp.val_ofNat_of_lt (by exact_mod_cast this)]
  rw [haltedRows_eq_ok, hclk]
  refine and_congr ⟨fun h => ?_, fun h j hj => ?_⟩ ?_
  · by_contra hp
    have hlen : r.length < prime := hclk ▸ (r.row r.length).clk.isLt
    have := h (r.height - (r.length + 1) - 1) (List.mem_range.mpr (by omega))
    omega
  · have := List.mem_range.mp hj
    omega
  · have hrow (j : Nat) : { r.row r.length with clk := .ofNat (r.length + (j + 1)) } =
        r.row (r.length + 1 + j) := by
      rw [← r.row_add (j + 1), Nat.add_assoc, Nat.add_comm 1 j]
    simp only [tail, hrow]

private theorem emptyRows_eq (hfits : r.Fits) {rows : List InstructionRow} :
    emptyRows (program.size + 1) r.emptied = .ok rows ↔
      program.size + 1 + r.emptied ≤ prime ∧
        rows = (List.range r.emptied).map fun j => ⟨.ofNat (program.size + 1 + j), 0, 0⟩ := by
  rw [emptyRows_eq_ok]
  refine and_congr_left fun _ => ⟨fun h => ?_, fun h j hj => ?_⟩
  · have := hfits.program.size
    by_contra hp
    have := h (r.emptied - 1) (List.mem_range.mpr (by omega))
    omega
  · have := List.mem_range.mp hj
    omega

/-- Padding succeeds exactly when it reaches no integer outside the field. -/
theorem pad_cases (hfits : r.Fits) :
    (r.PadFits ∧ ∃ t, r.trace.pad program.size = .ok t ∧ r.Padded t) ∨
      (¬ r.PadFits ∧ r.trace.pad program.size = .error .outOfField) := by
  have hlast : r.trace.processor.getLast? = some (r.row r.length) := by
    rw [trace, List.range_succ, List.map_append, List.map_singleton, List.getLast?_concat]
  have hlength : r.trace.processor.length = r.length + 1 := by simp [trace]
  obtain ⟨before, last, after, hsplit, hmemory, hmp, hother⟩ :=
    @splitAfterCell_eq_some (r.row r.length).mp r.trace.memory
      ⟨(r.row r.length).memory, List.mem_mergeSort.mpr
        (List.mem_map.mpr ⟨r.length, List.mem_range.mpr (by omega), rfl⟩), rfl⟩
  rw [pad, hlast]
  dsimp only
  rw [hsplit, hlength]
  dsimp only
  cases hextra : haltedRows (r.row r.length) (r.height - (r.length + 1)) with
  | error e =>
    right
    refine ⟨fun hpad => ?_, ?_⟩
    · have := (r.haltedRows_eq hfits).mpr ⟨hpad.clock, rfl⟩
      rw [this] at hextra
      cases hextra
    · obtain rfl := haltedRows_error hextra
      exact congrArg (· >>= _) hextra
  | ok extra =>
    obtain ⟨hclock, rfl⟩ := (r.haltedRows_eq hfits).mp hextra
    have hcount := r.length_filled
    cases hempty : emptyRows (program.size + 1) r.emptied with
    | error e =>
      right
      refine ⟨fun hpad => ?_, ?_⟩
      · have := (r.emptyRows_eq hfits).mpr ⟨hpad.address, rfl⟩
        rw [this] at hempty
        cases hempty
      · obtain rfl := emptyRows_error hempty
        refine (congrArg (· >>= _) hextra).trans ?_
        rw [ok_bind, hcount]
        exact congrArg (· >>= _) hempty
    | ok empty =>
      left
      obtain ⟨haddress, rfl⟩ := (r.emptyRows_eq hfits).mp hempty
      refine ⟨⟨hclock, haddress⟩, {
        processor := r.trace.processor ++ r.tail
        memory := before ++ [last] ++ r.tail.map (·.memory) ++ after
        instruction := r.trace.instruction ++ r.tail.map (·.instruction) ++
          (List.range r.emptied).map fun j => ⟨.ofNat (program.size + 1 + j), 0, 0⟩
        input := padStream r.trace.input
        output := padStream r.trace.output }, ?_, r.rows_append_tail,
        ⟨before, last, after, hmemory, hmp, hother, rfl⟩, rfl, rfl, rfl⟩
      refine (congrArg (· >>= _) hextra).trans ?_
      rw [ok_bind, hcount]
      exact congrArg (· >>= _) hempty

end Run

end Padded

end TapeStark
