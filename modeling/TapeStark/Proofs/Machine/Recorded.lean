import Mathlib
import TapeStark.Proofs.Machine.Placement

/-! The rows that a run records, also where it fails or is cut off. The runs of a compiled program
record the instructions of its source at their addresses, and a head that leaves out no cell. -/

namespace TapeStark

open Simulator

namespace Instruction

variable {is : List Instruction}

theorem offset_succ {k : Nat} (hk : k < is.length) :
    offset is (k + 1) = offset is k + is[k].width := by
  rw [offset, List.take_succ_eq_append_getElem hk, List.map_append, List.sum_append, offset,
    List.map_singleton, List.sum_singleton]

theorem offset_le (is : List Instruction) {j k : Nat} (h : j ≤ k) :
    offset is j ≤ offset is k := by
  induction is generalizing j k with
  | nil => simp [offset]
  | cons i is ih =>
    cases j with
    | zero => exact Nat.zero_le _
    | succ j =>
      obtain ⟨k, rfl⟩ : ∃ k', k = k' + 1 := ⟨k - 1, by omega⟩
      simp only [offset_cons_succ]
      have := ih (Nat.le_of_succ_le_succ h)
      omega

/-- No instruction starts at the jump address of a bracket. -/
theorem offset_ne_place (j : Nat) {k : Nat} (hk : k < is.length)
    (hbracket : is[k] = .opening ∨ is[k] = .closing) : offset is j ≠ offset is k + 1 := by
  have hwidth : is[k].width = 2 := by rcases hbracket with h | h <;> rw [h] <;> rfl
  rcases Nat.lt_or_ge k j with hlt | hge
  · have := offset_le is (show k + 1 ≤ j from hlt)
    rw [offset_succ hk, hwidth] at this
    omega
  · have := offset_le is hge
    omega

end Instruction

/-- Cells that a head comes to from cell 0, where it moves up by at most one. -/
structure Walk (cells : List Nat) : Prop where
  zero : ∀ c ∈ cells.head?, c = 0
  step : cells.IsChain fun c c' => c' ≤ c + 1

namespace Walk

variable {cells more : List Nat}

theorem of_append (h : Walk (cells ++ more)) : Walk cells where
  zero c hc := h.zero c (by rw [List.head?_append, hc]; rfl)
  step := (List.isChain_append.mp h.step).1

theorem concat {c c' : Nat} (h : Walk (cells ++ [c])) (hc : c' ≤ c + 1) :
    Walk (cells ++ [c] ++ [c']) where
  zero x hx := h.zero x (by rwa [List.head?_append_of_ne_nil _ (by simp)] at hx)
  step := by
    refine List.isChain_append.mpr ⟨h.step, List.isChain_singleton _, ?_⟩
    simpa using hc

/-- The cells of a walk are those up to some cell. -/
theorem exists_interval (h : Walk cells) (hne : cells ≠ []) : ∃ m, ∀ c, c ∈ cells ↔ c ≤ m := by
  induction cells using List.reverseRecOn with
  | nil => exact absurd rfl hne
  | append_singleton cells x ih =>
    rcases List.eq_nil_or_concat cells with rfl | ⟨front, last, rfl⟩
    · have := h.zero x rfl
      exact ⟨0, by simp [this]⟩
    · obtain ⟨m, hm⟩ := ih h.of_append (by simp)
      have hlast := (hm last).mp (by simp)
      have hx : x ≤ last + 1 := by
        simpa using (List.isChain_append.mp h.step).2.2
      refine ⟨max m x, fun c => ?_⟩
      rw [List.mem_append, hm, List.mem_singleton]
      omega

end Walk

namespace Simulator

/-- A run with the rows that it records: one for each instruction that it starts, also for one that
fails, and the halted row if it ends. -/
def recorded (program : Program) (limit : Int) : Nat → State → Except Error State × List Step
  | 0, s =>
    if s.ip < program.size then (.error (.machine (.stepLimit limit)), s.steps.toList)
    else (.ok s, s.history)
  | n + 1, s =>
    if s.ip < program.size then
      match step program s with
      | .ok s => recorded program limit n s
      | .error e => (.error e, s.steps.toList ++
          (program.word? s.ip).toList.map fun ci => s.observe ci (program.following s.ip))
    else (.ok s, s.history)

def record (program : Program) (input : ByteArray) (limit : Int) : List Step :=
  (recorded program limit limit.toNat (start input)).2

theorem fst_recorded (program : Program) (limit : Int) (n : Nat) (s : State) :
    (recorded program limit n s).1 = run program limit n s := by
  induction n generalizing s with
  | zero =>
    rw [recorded, run]
    split <;> rfl
  | succ n ih =>
    rw [recorded, run]
    split
    · cases step program s with
      | ok s' => exact ih s'
      | error e => rfl
    · rfl

def after (program : Program) (input : ByteArray) : Nat → Except Error State
  | 0 => .ok (start input)
  | k + 1 => after program input k >>= step program

def IsInstruction (is : List Instruction) (row : Step) : Prop :=
  ∃ k, ∃ hk : k < is.length, row.ip = (Instruction.offset is k : Nat) ∧ row.ci = is[k].code

/-- What the steps from the start on see, which are instructions. -/
structure Executed (is : List Instruction) (program : Program) (input : ByteArray)
    (rows : List Step) : Prop where
  instruction : ∀ row ∈ rows, IsInstruction is row
  seen : ∀ k (hk : k < rows.length), ∃ s, after program input k = .ok s ∧
    rows[k] = s.seen program

/-- What the result of a run and the rows that it records keep to. -/
structure Kept (is : List Instruction) (program : Program) (input : ByteArray) (limit : Int)
    (result : Except Error State) (rows : List Step) : Prop where
  /-- Instructions are recorded, and behind them the halted row if the run ends. -/
  executed : ∃ executed, rows = executed ++ (result.toOption.map (·.observe 0 0)).toList ∧
    Executed is program input executed
  history : ∀ s, result = .ok s → rows = s.history
  halted : ∀ s, result = .ok s → s.ip = program.size
  place : ∀ k (hk : k < is.length), is[k] = .opening ∨ is[k] = .closing →
    ∀ row ∈ rows, row.ip ≠ (Instruction.offset is k + 1 : Nat)
  /-- A run that does not end is cut off at the limit, or its last instruction fails. -/
  faults : ∀ e, result = .error e →
    (e = .machine (.stepLimit limit) ∧ rows.length = limit.toNat) ∨
      (after program input rows.length = .error e ∧ (e = .machine .belowTape ∨
        e = .machine .pastInput ∨ ∃ value, e = .machine (.outputRange value)))
  /-- The cells that have been visited are those up to some cell. -/
  visited : ∀ i (hi : i < rows.length), ∃ m, rows[i].mp ≤ m ∧
    ∀ c, c ∈ (rows.take (i + 1)).map (·.mp) ↔ c ≤ m

theorem visited_of_walk {rows : List Step} (h : Walk (rows.map (·.mp))) (i : Nat)
    (hi : i < rows.length) : ∃ m, rows[i].mp ≤ m ∧
      ∀ c, c ∈ (rows.take (i + 1)).map (·.mp) ↔ c ≤ m := by
  have hpart : Walk ((rows.take (i + 1)).map (·.mp)) := by
    rw [← List.take_append_drop (i + 1) rows, List.map_append] at h
    exact h.of_append
  have hmem : rows[i].mp ∈ (rows.take (i + 1)).map (·.mp) :=
    List.mem_map_of_mem (List.mem_take_iff_getElem.mpr ⟨i, by omega, rfl⟩)
  obtain ⟨m, hm⟩ := hpart.exists_interval (List.ne_nil_of_mem hmem)
  exact ⟨m, (hm _).mp hmem, hm⟩

theorem IsInstruction.ne_place {is : List Instruction} {row : Step} (h : IsInstruction is row)
    {k : Nat} (hk : k < is.length) (hbracket : is[k] = .opening ∨ is[k] = .closing) :
    row.ip ≠ (Instruction.offset is k + 1 : Nat) := by
  obtain ⟨j, -, hip, -⟩ := h
  rw [hip]
  exact_mod_cast Instruction.offset_ne_place j hk hbracket

structure Tracked (is : List Instruction) (program : Program) (input : ByteArray)
    (starts : Nat → Prop) (s : State) : Prop where
  start : ∃ a, starts a ∧ s.ip = (a : Nat)
  reached : after program input s.steps.size = .ok s
  executed : Executed is program input s.steps.toList
  walk : Walk (s.steps.toList.map (·.mp) ++ [s.memory.head])

section Compiled

variable {source : String} {program : Program} (hcompile : Program.compile source = .ok program)
  {starts : Nat → Prop} (hlayout : Program.Layout program [] starts)
  (hstarts : ∀ a, starts a → ∃ k ≤ (Instruction.lex source).length,
    a = Instruction.offset (Instruction.lex source) k)
  {input : ByteArray} {s : State}
  (h : Tracked (Instruction.lex source) program input starts s)

include hcompile hstarts h

/-- Inside the program a run stands at an instruction of the source. -/
theorem Tracked.exists_instruction (hlt : s.ip < program.size) :
    ∃ k, ∃ hk : k < (Instruction.lex source).length,
      s.ip = (Instruction.offset (Instruction.lex source) k : Nat) ∧
        program.getD (Instruction.offset (Instruction.lex source) k) 0 =
          (Instruction.lex source)[k].code := by
  obtain ⟨a, ha, hip⟩ := h.start
  obtain ⟨k, hk, rfl⟩ := hstarts a ha
  have hsize := Program.size_of_compile hcompile
  rcases Nat.lt_or_eq_of_le hk with hk | rfl
  · exact ⟨k, hk, hip, Program.code_of_compile hcompile hk⟩
  · omega

/-- The instruction that is started next comes behind those that were executed. -/
theorem Tracked.executed_concat (hlt : s.ip < program.size) :
    Executed (Instruction.lex source) program input (s.steps.toList ++ [s.seen program]) where
  instruction row hrow := by
    obtain ⟨k, hk, hip, hcode⟩ := h.exists_instruction hcompile hstarts hlt
    rcases List.mem_append.mp hrow with hrow | hrow
    · exact h.executed.instruction row hrow
    · rw [List.mem_singleton.mp hrow]
      exact ⟨k, hk, hip, (Program.word_natCast hip).trans hcode⟩
  seen k hk := by
    rcases Nat.lt_or_ge k s.steps.toList.length with hlt | hge
    · rw [List.getElem_append_left hlt]
      exact h.executed.seen k hlt
    · obtain rfl : k = s.steps.size := by
        simp only [List.length_append, List.length_singleton, Array.length_toList] at hk hge
        omega
      exact ⟨s, h.reached, by simp⟩

include hlayout in
/-- A step keeps to it. -/
theorem Tracked.next (hlt : s.ip < program.size) {s' : State} (hstep : step program s = .ok s') :
    Tracked (Instruction.lex source) program input starts s' := by
  obtain ⟨heffect, -, hsteps⟩ := cycle_eq_ok ((if_pos hlt : cycle program s = _).trans hstep)
  rw [if_pos hlt] at hsteps
  have hrows : s'.steps.toList = s.steps.toList ++ [s.seen program] := by
    rw [hsteps, Array.toList_push]
  refine ⟨hlayout.start_of_effect heffect h.start, ?_, ?_, ?_⟩
  · rw [hsteps, Array.size_push, after, h.reached]
    exact hstep
  · rw [hrows]
    exact h.executed_concat hcompile hstarts hlt
  · rw [hrows, List.map_append]
    exact h.walk.concat heffect.frame.1

/-- A step that fails does so for the tape, the input or the output, and its row is recorded. -/
theorem Tracked.fault (hlt : s.ip < program.size) {e : Error} (hstep : step program s = .error e) :
    program.word? s.ip = some (s.word program) ∧
      (e = .machine .belowTape ∨ e = .machine .pastInput ∨
        ∃ value, e = .machine (.outputRange value)) := by
  obtain ⟨k, hk, hip, hcode⟩ := h.exists_instruction hcompile hstarts hlt
  constructor
  · have hsize := Program.lt_size_of_getD hcode
    rw [State.word, Program.word?, hip, position?_natCast hsize, Option.bind_some,
      Array.getElem?_eq_getElem hsize, Option.getD_some]
  · rw [Program.step_eq hip hcode, act, Program.ofWord?_code] at hstep
    cases hi : (Instruction.lex source)[k] with
    | opening => rw [hi] at hstep; cases hstep
    | closing => rw [hi] at hstep; cases hstep
    | op o =>
      rw [hi] at hstep
      dsimp only at hstep
      cases happly : s.memory.apply o with
      | ok m => rw [happly] at hstep; cases hstep
      | error e' =>
        rw [happly] at hstep
        cases hstep
        exact Memory.fault_of_apply happly

omit hcompile hstarts h in
theorem kept_of_error {is : List Instruction} {limit : Int} {e : Error} {rows : List Step}
    (hrows : Executed is program input rows) (hwalk : Walk (rows.map (·.mp)))
    (he : (e = .machine (.stepLimit limit) ∧ rows.length = limit.toNat) ∨
      (after program input rows.length = .error e ∧ (e = .machine .belowTape ∨
        e = .machine .pastInput ∨ ∃ value, e = .machine (.outputRange value)))) :
    Kept is program input limit (.error e) rows where
  executed := ⟨rows, (List.append_nil rows).symm, hrows⟩
  history _ h := nomatch h
  halted _ h := nomatch h
  place _ hk hbracket row hrow := (hrows.instruction row hrow).ne_place hk hbracket
  faults _ h := Except.error.inj h ▸ he
  visited := visited_of_walk hwalk

theorem Tracked.kept_of_halted {limit : Int} (hge : ¬ s.ip < program.size) :
    Kept (Instruction.lex source) program input limit (.ok s) s.history := by
  have hsize := Program.size_of_compile hcompile
  have hip : s.ip = program.size := by
    obtain ⟨a, ha, hip⟩ := h.start
    obtain ⟨k, hk, rfl⟩ := hstarts a ha
    have := Instruction.offset_le (Instruction.lex source) hk
    omega
  have hrows : s.history = s.steps.toList ++ [s.observe 0 0] := Array.toList_push ..
  refine ⟨⟨_, hrows, h.executed⟩, fun _ e => Except.ok.inj e ▸ rfl,
    fun _ e => Except.ok.inj e ▸ hip, fun k hk hbracket row hrow => ?_, fun _ e => (nomatch e),
    visited_of_walk ?_⟩
  · rw [hrows] at hrow
    rcases List.mem_append.mp hrow with hrow | hrow
    · exact (h.executed.instruction row hrow).ne_place hk hbracket
    · have hhalted : (s.observe 0 0).ip = program.size := hip
      rw [List.mem_singleton.mp hrow, hhalted, hsize]
      exact_mod_cast Instruction.offset_ne_place _ hk hbracket
  · rw [hrows, List.map_append]
    exact h.walk

include hlayout in
/-- The run from a state on, by induction on the steps that it may still take. -/
theorem Tracked.kept {limit : Int} {n : Nat} (hn : s.steps.size + n = limit.toNat) :
    Kept (Instruction.lex source) program input limit (recorded program limit n s).1
      (recorded program limit n s).2 := by
  induction n generalizing s with
  | zero =>
    rw [recorded]
    split
    · refine kept_of_error h.executed h.walk.of_append (.inl ⟨rfl, ?_⟩)
      rwa [Array.length_toList]
    · rename_i hge
      exact h.kept_of_halted hcompile hstarts hge
  | succ n ih =>
    rw [recorded]
    split
    · rename_i hlt
      cases hstep : step program s with
      | ok s' =>
        refine ih (h.next hcompile hlayout hstarts hlt hstep) ?_
        have hsteps := (cycle_eq_ok ((if_pos hlt : cycle program s = _).trans hstep)).2.2
        rw [hsteps, if_pos hlt, Array.size_push]
        omega
      | error e =>
        obtain ⟨hword, he⟩ := h.fault hcompile hstarts hlt hstep
        rw [hword]
        refine kept_of_error (h.executed_concat hcompile hstarts hlt) ?_ (.inr ⟨?_, he⟩)
        · rw [List.map_append]
          exact h.walk
        · rw [List.length_append, Array.length_toList]
          exact (congrArg (· >>= step program) h.reached).trans hstep
    · rename_i hge
      exact h.kept_of_halted hcompile hstarts hge

end Compiled

/-- Whatever the input and the step limit are, a run of a compiled program records instructions of
the source at their addresses only, and fails only for the limit, the tape, the input or the
output. -/
theorem record_kept {source : String} {program : Program}
    (hcompile : Program.compile source = .ok program) (input : ByteArray) (limit : Int) :
    Kept (Instruction.lex source) program input limit (execute program input limit)
      (record program input limit) := by
  obtain ⟨starts, hlayout, hstarts⟩ := Program.exists_layout_of_source hcompile
  have hstart : Tracked (Instruction.lex source) program input starts (start input) :=
    { start := ⟨0, hlayout.zero, rfl⟩
      reached := rfl
      executed := ⟨fun row hrow => absurd hrow List.not_mem_nil,
        fun k hk => absurd hk (Nat.not_lt_zero k)⟩
      walk := ⟨fun c hc => (Option.mem_some.mp hc).symm, List.isChain_singleton _⟩ }
  have := hstart.kept hcompile hlayout hstarts (Nat.zero_add limit.toNat)
  rwa [fst_recorded] at this

/-- A loop that is passed over, and then a step below cell 0. -/
theorem record_kept_of_fault :
    Program.compile "[]<" = .ok #[91, 4, 93, 2, 60] ∧
      (record #[91, 4, 93, 2, 60] ByteArray.empty 9).map (·.ip) = [0, 4] ∧
      Kept (Instruction.lex "[]<") #[91, 4, 93, 2, 60] ByteArray.empty 9
        (.error (.machine .belowTape)) (record #[91, 4, 93, 2, 60] ByteArray.empty 9) := by
  have hcompile : Program.compile "[]<" = .ok #[91, 4, 93, 2, 60] := by decide +kernel
  refine ⟨hcompile, by decide +kernel, ?_⟩
  have hfault : execute #[91, 4, 93, 2, 60] ByteArray.empty 9 = .error (.machine .belowTape) := by
    cbv
  rw [← hfault]
  exact record_kept hcompile ByteArray.empty 9

end Simulator

end TapeStark
