import Mathlib
import TapeStark.Proofs.Air.MemoryRun
import TapeStark.Proofs.Machine.Placement

/-! Simulation against interpretation: which runs of a compiled program give tables, how long these
are, and which faults end the others. -/

namespace TapeStark

open Trace

namespace Program

/-- Words that are codes of characters or addresses within the program. -/
def Bounded (words : Program) : Prop := ∀ w ∈ words, 0 ≤ w ∧ w ≤ max 127 words.size

namespace Bounded

variable {words : Program}

theorem push (h : Bounded words) {w : Int} (h0 : 0 ≤ w) (hw : w ≤ max 127 words.size) :
    Bounded (words.push w) := by
  intro v hv
  rw [Array.size_push]
  rcases Array.mem_push.mp hv with hv | rfl
  · have := h v hv
    omega
  · omega

theorem push_code (h : Bounded words) (i : Instruction) : Bounded (words.push i.code) := by
  have all : ∀ i ∈ Instruction.all, i.code ≤ 127 := by decide
  have := all i (Instruction.mem_all i)
  exact h.push (by omega) (by omega)

theorem set (h : Bounded words) (p : Nat) {w : Int} (h0 : 0 ≤ w) (hw : w ≤ words.size) :
    Bounded (words.setIfInBounds p w) := by
  intro v hv
  rw [Array.size_setIfInBounds]
  rcases Array.mem_or_eq_of_mem_setIfInBounds hv with hv | rfl
  · exact h v hv
  · omega

end Bounded

theorem bounded_of_compile {source : String} {program : Program}
    (h : compile source = .ok program) : Bounded program := by
  refine invariant_of_compile (P := fun words _ => Bounded words) ?_ ?_ ?_ ?_ h
  · intro words opens o hwords
    exact hwords.push_code _
  · intro words opens hwords
    exact (hwords.push_code _).push le_rfl (by omega)
  · intro words p opens hp hwords
    refine ((hwords.push_code _).push (by omega) ?_).set p (by omega) ?_
    · rw [Array.size_push]
      omega
    · rw [Array.size_push, Array.size_push]
  · intro w hw
    simp at hw

/-- The words of a compiled program stand for elements of the base field. -/
theorem cellProgram_of_compile {source : String} {program : Program}
    (h : compile source = .ok program) (hsize : program.size < 2 ^ 32) : CellProgram program where
  word k := by
    have hbound : (2 : Int) ^ 32 < prime := by decide
    have hwords := bounded_of_compile h
    rw [Array.getD_eq_getD_getElem?]
    cases hk : program[k]? with
    | none => exact isCell_natCast (n := 0) prime_pos
    | some w =>
      have := hwords w (Array.mem_of_getElem? hk)
      rw [Option.getD_some]
      exact ⟨this.1, by omega⟩
  size := hsize.trans (by decide)

end Program

namespace Run

variable {program : Program} {input : ByteArray} (r : Run program input)

/-- No integer of a run that is short enough leaves the base field. -/
theorem fits_of_compile {source : String} (h : Program.compile source = .ok program)
    (hsize : program.size < 2 ^ 32) (hlength : r.length ≤ 2 ^ 32) : r.Fits where
  program := Program.cellProgram_of_compile h hsize
  steps k hk := by
    have hbound : 2 ^ 32 < prime := by decide
    have hcells := Program.cellProgram_of_compile h hsize
    obtain ⟨starts, hlayout⟩ := Program.exists_layout h
    obtain ⟨a, ha, hip⟩ := r.exists_start hlayout k
    have hle := hlayout.le ha
    have hhead : (r.state k).memory.head ≤ k := r.head_le k
    rw [Simulator.State.seen, Program.word_natCast hip, hip, Program.following_natCast]
    refine ⟨?_, ?_, hcells.word _, hcells.word _, isCell_natCast (n := (r.state k).memory.head) ?_⟩
    · change IsCell (r.state k).clk
      rw [r.clk]
      exact isCell_natCast (by omega)
    · change IsCell (r.state k).ip
      rw [hip]
      exact isCell_natCast (by omega)
    · omega

end Run

section Simulate

variable {source : String} {program : Program} (hcompile : Program.compile source = .ok program)
  (hsize : program.size < 2 ^ 32) (input : ByteArray) {n : Nat} (hn : n ≤ 2 ^ 32)

include hcompile

/-- A fault of the interpreter is a fault of the simulation. -/
theorem simulate_of_error {e : Error} (h : Interpreter.execute n source input = .error e) :
    simulate program input n = .error e := by
  have hmap := (Simulator.execute_map_shown hcompile input n).trans h
  rw [simulate]
  cases hs : Simulator.execute program input n with
  | ok s => rw [hs] at hmap; cases hmap
  | error e' =>
    rw [hs] at hmap
    cases hmap
    rfl

include hsize hn

/-- A run that the interpreter ends gives tables: a row for each counted instruction and one for
the halted machine, and the bytes that were consumed and written. -/
theorem simulate_of_ok {s : Interpreter.State} (h : Interpreter.execute n source input = .ok s) :
    ∃ t, simulate program input n =
        .ok (t, ⟨program, input.extract 0 s.memory.consumed, s.memory.output⟩) ∧
      t.processor.length = s.steps + 1 ∧
      t.input = byteRows (input.extract 0 s.memory.consumed) := by
  obtain ⟨s', hs', rfl⟩ := map_eq_ok.mp ((Simulator.execute_map_shown hcompile input n).trans h)
  obtain ⟨r, rfl, hlength⟩ := exists_run hs'
  rw [Int.toNat_natCast] at hlength
  have hfits := r.fits_of_compile hcompile hsize (hlength.trans hn)
  refine ⟨r.trace, ?_, ?_, ?_⟩
  · rw [simulate, hs', ok_bind, r.ofRun_eq_ok.mpr ⟨hfits, rfl⟩, ok_bind, claimOf, r.input_state]
    rfl
  · simp [Run.trace, Program.shown, r.clk]
  · rw [Run.trace, Run.claim, claimOf, r.input_state]
    rfl

/-- Simulation of a compiled program and interpretation of its source agree: which runs end within
the limit, what these show, which fault is raised, and which runs exceed the limit. -/
theorem simulate_agrees :
    ((∃ t c, simulate program input n = .ok (t, c)) ↔
        ∃ s, Interpreter.Ends source input s ∧ s.steps ≤ n) ∧
      (∀ t c s, simulate program input n = .ok (t, c) → Interpreter.Ends source input s →
        c.output = s.memory.output ∧ t.processor.length = s.steps + 1 ∧
          t.input = byteRows (input.extract 0 s.memory.consumed)) ∧
      (∀ k e, Interpreter.Raises source input k e → k ≤ n →
        simulate program input n = .error e) ∧
      (simulate program input n = .error (.machine (.stepLimit n)) ↔
        (∀ s, Interpreter.Ends source input s → n < s.steps) ∧
          ∀ k e, Interpreter.Raises source input k e → n < k) := by
  obtain ⟨block, hparse, -⟩ := Program.exists_placed hcompile
  have ends_of_ok {t : Trace} {c : Claim} (h : simulate program input n = .ok (t, c)) :
      ∃ s, Interpreter.execute n source input = .ok s := by
    cases hs : Interpreter.execute n source input with
    | ok s => exact ⟨s, rfl⟩
    | error e =>
      rw [simulate_of_error hcompile input hs] at h
      cases h
  refine ⟨⟨?_, ?_⟩, ?_, ?_, ?_⟩
  · rintro ⟨t, c, h⟩
    obtain ⟨s, hs⟩ := ends_of_ok h
    exact ⟨s, Interpreter.ends_of_execute hparse hs⟩
  · rintro ⟨s, hends, hle⟩
    obtain ⟨t, h, -⟩ := simulate_of_ok hcompile hsize input hn
      (Interpreter.execute_of_ends hparse hends hle)
    exact ⟨t, _, h⟩
  · intro t c s h hends
    obtain ⟨s', hs'⟩ := ends_of_ok h
    obtain rfl := Interpreter.ends_unique hparse hends (Interpreter.ends_of_execute hparse hs').1
    obtain ⟨t', h', hlength, hread⟩ := simulate_of_ok hcompile hsize input hn hs'
    rw [h] at h'
    cases h'
    exact ⟨rfl, hlength, hread⟩
  · intro k e hraises hk
    exact simulate_of_error hcompile input (Interpreter.execute_of_raises hparse hraises hk)
  · rw [← Interpreter.execute_stepLimit_iff hparse]
    constructor
    · intro h
      cases hs : Interpreter.execute n source input with
      | ok s =>
        obtain ⟨t, ht, -⟩ := simulate_of_ok hcompile hsize input hn hs
        rw [h] at ht
        cases ht
      | error e =>
        obtain rfl := Except.error.inj ((simulate_of_error hcompile input hs).symm.trans h)
        rfl
    · exact simulate_of_error hcompile input

omit hcompile hsize hn in
/-- A loop that writes a cell and counts it down, over the byte two: it ends after eight steps. -/
theorem simulate_agrees_of_loop :
    let program : Program := #[44, 91, 7, 46, 45, 93, 3]
    let input := [2].toByteArray
    Program.compile ",[.-]" = .ok program ∧
      simulate program input 7 = .error (.machine (.stepLimit 7)) ∧
      (∀ s, Interpreter.Ends ",[.-]" input s → 7 < s.steps) ∧
      ∃ t c s, simulate program input 8 = .ok (t, c) ∧ Interpreter.Ends ",[.-]" input s ∧
        s.steps = 8 ∧ s.memory.output.data.toList = [2, 1] := by
  intro program input
  have hcompile : Program.compile ",[.-]" = .ok program := by decide +kernel
  have hlimit : simulate program input 7 = .error (.machine (.stepLimit 7)) := by cbv
  have hran : (simulate program input 8).map (fun r =>
      (r.1.processor.length, r.2.output.data.toList)) = .ok (9, [2, 1]) := by cbv
  obtain ⟨-, -, -, hexceeds⟩ := simulate_agrees hcompile (by decide) input (n := 7) (by decide)
  obtain ⟨hends, hshown, -, -⟩ := simulate_agrees hcompile (by decide) input (n := 8) (by decide)
  refine ⟨hcompile, hlimit, (hexceeds.mp hlimit).1, ?_⟩
  obtain ⟨⟨t, c⟩, hsim, hshape⟩ := map_eq_ok.mp hran
  obtain ⟨hrows, hwritten⟩ := Prod.mk.inj hshape
  obtain ⟨s, hs, -⟩ := hends.mp ⟨t, c, hsim⟩
  obtain ⟨houtput, hlength, -⟩ := hshown t c s hsim hs
  exact ⟨t, c, s, hsim, hs, Nat.succ.inj (hlength.symm.trans hrows), houtput ▸ hwritten⟩

end Simulate

end TapeStark
