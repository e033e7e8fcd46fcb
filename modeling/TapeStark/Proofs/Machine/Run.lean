import Mathlib
import TapeStark.Machine.Interpreter
import TapeStark.Proofs.Basic

/-! What one instruction does, and runs as sequences of states. -/

namespace TapeStark

/-! What one instruction does to the memory. -/

namespace Memory

/-- The memory before and after an instruction that succeeds. -/
inductive Applied (m : Memory) : Op → Memory → Prop
  | left (h : m.head ≠ 0) : Applied m .left { m with head := m.head - 1 }
  | right : Applied m .right { m with head := m.head + 1 }
  | inc : Applied m .inc (m.setCell (m.cell + 1))
  | dec : Applied m .dec (m.setCell (m.cell - 1))
  | read (b : UInt8) (h : m.input[m.consumed]? = some b) :
    Applied m .read { m.setCell (.ofNat b.toNat) with consumed := m.consumed + 1 }
  | write (h : m.cell.val ≤ 255) :
    Applied m .write { m with output := m.output.push (UInt8.ofNat m.cell.val) }

theorem applied_of_apply {m m' : Memory} {a : Op} (h : m.apply a = .ok m') : Applied m a m' := by
  cases a with
  | left =>
    rw [apply] at h
    split at h
    · cases h
    · rename_i h0
      cases h
      exact .left h0
  | right =>
    cases h
    exact .right
  | inc =>
    cases h
    exact .inc
  | dec =>
    cases h
    exact .dec
  | read =>
    rw [apply] at h
    split at h
    · cases h
    · rename_i b hb
      cases h
      exact .read b hb
  | write =>
    rw [apply] at h
    split at h
    · cases h
    · rename_i hv
      cases h
      exact .write (not_lt.mp hv)

/-- An instruction fails at the end of the tape, of the input or of what a byte holds. -/
theorem fault_of_apply {m : Memory} {o : Op} {e : Error} (h : m.apply o = .error e) :
    e = .machine .belowTape ∨ e = .machine .pastInput ∨
      ∃ value, e = .machine (.outputRange value) := by
  cases o with
  | left =>
    rw [apply] at h
    split at h
    · exact .inl (Except.error.inj h).symm
    · cases h
  | right => cases h
  | inc => cases h
  | dec => cases h
  | read =>
    rw [apply] at h
    split at h
    · exact .inr (.inl (Except.error.inj h).symm)
    · cases h
  | write =>
    rw [apply] at h
    split at h
    · exact .inr (.inr ⟨_, (Except.error.inj h).symm⟩)
    · cases h

@[simp] theorem cell_setCell (m : Memory) (v : Fp) : (m.setCell v).cell = v := by
  rw [cell, setCell, Tape.get_set, if_pos rfl]

theorem get_setCell (m : Memory) (v : Fp) (j : Nat) :
    (m.setCell v).tape.get j = if j = m.head then v else m.tape.get j := Tape.get_set ..

@[simp] theorem head_setCell (m : Memory) (v : Fp) : (m.setCell v).head = m.head := rfl
@[simp] theorem input_setCell (m : Memory) (v : Fp) : (m.setCell v).input = m.input := rfl
@[simp] theorem consumed_setCell (m : Memory) (v : Fp) : (m.setCell v).consumed = m.consumed := rfl
@[simp] theorem output_setCell (m : Memory) (v : Fp) : (m.setCell v).output = m.output := rfl

theorem Applied.input {m m' : Memory} {a : Op} (h : Applied m a m') : m'.input = m.input := by
  cases h <;> rfl

/-- Only a read consumes a byte, which is the next cell. -/
theorem Applied.consumed {m m' : Memory} {a : Op} (h : Applied m a m') :
    (a ≠ .read ∧ m'.consumed = m.consumed) ∨
      (a = .read ∧ ∃ b, m.input[m.consumed]? = some b ∧ m'.consumed = m.consumed + 1 ∧
        m'.cell = .ofNat b.toNat) := by
  cases h with
  | read b hb => exact .inr ⟨rfl, b, hb, rfl, cell_setCell m _⟩
  | _ => exact .inl ⟨by decide, rfl⟩

/-- Only a write changes the output, by the cell. -/
theorem Applied.output {m m' : Memory} {a : Op} (h : Applied m a m') :
    (a ≠ .write ∧ m'.output = m.output) ∨
      (a = .write ∧ m.cell.val ≤ 255 ∧ m'.output = m.output.push (UInt8.ofNat m.cell.val)) := by
  cases h with
  | write hv => exact .inr ⟨rfl, hv, rfl⟩
  | _ => exact .inl ⟨by decide, rfl⟩

/-- Head and tape: the head moves by at most one cell, and only a head that stays changes a cell,
its own. -/
theorem Applied.frame {m m' : Memory} {a : Op} (h : Applied m a m') :
    m'.head ≤ m.head + 1 ∧ m.head ≤ m'.head + 1 ∧
      ∀ c, c ≠ m.head ∨ m'.head ≠ m.head → m'.tape.get c = m.tape.get c := by
  have set (v : Fp) (c : Nat) (hc : c ≠ m.head ∨ m.head ≠ m.head) :
      (m.setCell v).tape.get c = m.tape.get c := by
    rw [get_setCell, if_neg (hc.resolve_right fun h => h rfl)]
  cases h with
  | left h => exact ⟨by simp; omega, by simp; omega, fun _ _ => rfl⟩
  | right => exact ⟨by simp, by simp; omega, fun _ _ => rfl⟩
  | inc => exact ⟨by simp, by simp, set _⟩
  | dec => exact ⟨by simp, by simp, set _⟩
  | read b h => exact ⟨by simp, by simp, set _⟩
  | write h => exact ⟨by simp, by simp, fun _ _ => rfl⟩

end Memory

/-! A halted run as the sequence of its states, continued by the halted state under a clock that
counts on. Every table and its padding is read off that sequence. -/

section Run

theorem Instruction.code_injective {i j : Instruction} (h : (i.code : Int) = j.code) : i = j := by
  have h' : i.code = j.code := Int.ofNat.inj h
  have all : ∀ i ∈ Instruction.all, ∀ j ∈ Instruction.all, i.code = j.code → i = j := by decide
  exact all i (mem_all i) j (mem_all j) h'

theorem Instruction.code_ne_zero (i : Instruction) : (i.code : Int) ≠ 0 := by
  have all : ∀ i ∈ Instruction.all, (i.code : Int) ≠ 0 := by decide
  exact all i (mem_all i)

namespace Simulator

namespace State

/-- The word under the instruction pointer, zero behind the program. -/
def word (program : Program) (s : State) : Int := (program.word? s.ip).getD 0

/-- What a row of the tables shows of a state. -/
def seen (program : Program) (s : State) : Step :=
  s.observe (s.word program) (program.following s.ip)

end State

/-- One cycle: a step, or behind the program only a tick of the clock. -/
def cycle (program : Program) (s : State) : Except Error State :=
  if s.ip < program.size then step program s else .ok { s with clk := s.clk + 1 }

/-- All that one cycle can do to the pointer and the memory. -/
inductive Effect (program : Program) (s s' : State) : Prop
  | halted (behind : program.size ≤ s.ip) (word : s.word program = 0)
      (next : program.following s.ip = 0) (ip : s'.ip = s.ip) (memory : s'.memory = s.memory)
  | opening (inside : s.ip < program.size)
      (word : s.word program = Instruction.code .opening)
      (ip : s'.ip = if s.memory.cell = 0 then program.following s.ip else s.ip + 2)
      (memory : s'.memory = s.memory)
  | closing (inside : s.ip < program.size)
      (word : s.word program = Instruction.code .closing)
      (ip : s'.ip = if s.memory.cell = 0 then s.ip + 2 else program.following s.ip)
      (memory : s'.memory = s.memory)
  | op (a : Op) (inside : s.ip < program.size)
      (word : s.word program = Instruction.code (.op a)) (ip : s'.ip = s.ip + 1)
      (memory : s.memory.Applied a s'.memory)

/-- A cycle moves the head by at most one cell, and changes a cell only if the head stays there. -/
theorem Effect.frame {program : Program} {s s' : State} (h : Effect program s s') :
    s'.memory.head ≤ s.memory.head + 1 ∧ s.memory.head ≤ s'.memory.head + 1 ∧
      ∀ c, c ≠ s.memory.head ∨ s'.memory.head ≠ s.memory.head →
        s'.memory.tape.get c = s.memory.tape.get c := by
  have same (h : s'.memory = s.memory) : s'.memory.head ≤ s.memory.head + 1 ∧
      s.memory.head ≤ s'.memory.head + 1 ∧
        ∀ c, c ≠ s.memory.head ∨ s'.memory.head ≠ s.memory.head →
          s'.memory.tape.get c = s.memory.tape.get c := by
    rw [h]
    exact ⟨by omega, by omega, fun _ _ => rfl⟩
  cases h with
  | halted _ _ _ _ memory => exact same memory
  | opening _ _ _ memory => exact same memory
  | closing _ _ _ memory => exact same memory
  | op a _ _ _ memory => exact memory.frame

theorem word_of_le {program : Program} {s : State} (h : program.size ≤ s.ip) :
    s.word program = 0 := by
  rw [State.word, Program.word?, position?_of_le h]
  rfl

theorem following_of_le {program : Program} {address : Int} (h : program.size ≤ address) :
    program.following address = 0 := if_neg (by omega)

private theorem code_of_ofWord? {w : Int} {i : Instruction} (h : Instruction.ofWord? w = some i) :
    w = i.code := by
  have := List.find?_some h
  exact (of_decide_eq_true this).symm

private theorem act_effect {program : Program} {s : State} {ip : Int} {memory : Memory}
    (inside : s.ip < program.size) {ci : Int} (hw : program.word? s.ip = some ci)
    (h : act s.ip ci (program.following s.ip) s.memory = .ok (ip, memory)) (s' : State)
    (hip : s'.ip = ip) (hm : s'.memory = memory) : Effect program s s' := by
  have word : s.word program = ci := by rw [State.word, hw, Option.getD_some]
  rw [act] at h
  cases hi : Instruction.ofWord? ci with
  | none =>
    rw [hi] at h
    dsimp only at h
    split at h <;> cases h
  | some i =>
    have code := word.trans (code_of_ofWord? hi)
    rw [hi] at h
    cases i with
    | opening =>
      cases h
      exact .opening inside code hip hm
    | closing =>
      cases h
      exact .closing inside code hip hm
    | op a =>
      obtain ⟨memory', happly, heq⟩ := map_eq_ok.mp h
      cases heq
      exact .op a inside code hip (hm ▸ Memory.applied_of_apply happly)

/-- A step counts the clock on, records the state it starts from, and has one of the effects. -/
theorem cycle_eq_ok {program : Program} {s s' : State} (h : cycle program s = .ok s') :
    Effect program s s' ∧ s'.clk = s.clk + 1 ∧
      s'.steps = if s.ip < program.size then s.steps.push (s.seen program) else s.steps := by
  rw [cycle] at h
  split at h
  case isFalse hge =>
    cases h
    rw [if_neg hge]
    have hle : (program.size : Int) ≤ s.ip := by omega
    exact ⟨.halted hle (word_of_le hle) (following_of_le hle) rfl rfl, rfl, rfl⟩
  case isTrue hlt =>
    rw [if_pos hlt]
    rw [step] at h
    split at h
    · cases h
    · rename_i ci hw
      dsimp only at h
      split at h
      · rename_i ip memory hact
        cases h
        refine ⟨act_effect hlt hw hact _ rfl rfl, rfl, ?_⟩
        rw [State.seen, State.word, hw, Option.getD_some]
      · cases h

end Simulator

open Simulator

/-- The states of a run that leaves the program after `length` cycles. -/
structure Run (program : Program) (input : ByteArray) where
  length : Nat
  state : Nat → State
  state_zero : state 0 = start input
  state_succ : ∀ k, cycle program (state k) = .ok (state (k + 1))
  running : ∀ k < length, (state k).ip < program.size
  halted : program.size ≤ (state length).ip

namespace Simulator

private theorem cycles_of_halted {program : Program} {s : State} (h : program.size ≤ s.ip) (k : Nat) :
    cycle program { s with clk := s.clk + k } = .ok { s with clk := s.clk + (k + 1) } :=
  if_neg (not_lt.mpr h)

private theorem cycles_of_run {program : Program} {limit : Int} {fuel : Nat} {s s' : State}
    (h : run program limit fuel s = .ok s') :
    ∃ (n : Nat) (f : Nat → State), n ≤ fuel ∧ f 0 = s ∧ f n = s' ∧
      (∀ k, cycle program (f k) = .ok (f (k + 1))) ∧
      (∀ k < n, (f k).ip < program.size) ∧ program.size ≤ (f n).ip := by
  have stop {s : State} (hs : ¬ s.ip < program.size) (fuel : Nat) :
      ∃ (n : Nat) (f : Nat → State), n ≤ fuel ∧ f 0 = s ∧ f n = s ∧
        (∀ k, cycle program (f k) = .ok (f (k + 1))) ∧
        (∀ k < n, (f k).ip < program.size) ∧ program.size ≤ (f n).ip :=
    ⟨0, fun k => { s with clk := s.clk + k }, Nat.zero_le _, rfl, rfl,
      cycles_of_halted (not_lt.mp hs), by simp, not_lt.mp hs⟩
  induction fuel generalizing s with
  | zero =>
    rw [run] at h
    split at h
    · cases h
    · rename_i hs
      cases h
      exact stop hs 0
  | succ fuel ih =>
    rw [run] at h
    split at h
    · rename_i hs
      split at h
      · rename_i next hstep
        obtain ⟨n, f, hn, h0, hend, hcycle, hrun, hhalt⟩ := ih h
        refine ⟨n + 1, fun k => k.casesOn s f, by omega, rfl, hend, ?_, ?_, hhalt⟩
        · intro k
          cases k with
          | zero => exact (if_pos hs).trans (hstep.trans (congrArg _ h0.symm))
          | succ k => exact hcycle k
        · intro k hk
          cases k with
          | zero => exact hs
          | succ k => exact hrun k (by omega)
      · cases h
    · rename_i hs
      cases h
      exact stop hs (fuel + 1)

end Simulator

/-- A successful execution is a run within the limit. -/
theorem exists_run {program : Program} {input : ByteArray} {limit : Int} {s : State}
    (h : execute program input limit = .ok s) :
    ∃ r : Run program input, r.state r.length = s ∧ r.length ≤ limit.toNat := by
  obtain ⟨n, f, hn, h0, hend, hcycle, hrun, hhalt⟩ := cycles_of_run h
  exact ⟨⟨n, f, h0, hcycle, hrun, hhalt⟩, hend, hn⟩

namespace Run

variable {program : Program} {input : ByteArray} (r : Run program input)

theorem effect (k : Nat) : Effect program (r.state k) (r.state (k + 1)) :=
  (cycle_eq_ok (r.state_succ k)).1

theorem clk (k : Nat) : (r.state k).clk = k := by
  induction k with
  | zero => rw [r.state_zero]; rfl
  | succ k ih => rw [(cycle_eq_ok (r.state_succ k)).2.1, ih]

/-- Behind its end a run only counts the clock on. -/
theorem state_add (k : Nat) :
    r.state (r.length + k) = { r.state r.length with clk := r.length + k } := by
  induction k with
  | zero =>
    have h := r.clk r.length
    generalize r.state r.length = s at h ⊢
    cases s
    cases h
    rfl
  | succ k ih =>
    have h := r.state_succ (r.length + k)
    rw [cycle, ih, if_neg (not_lt.mpr r.halted)] at h
    exact (Except.ok.inj h).symm

theorem behind {k : Nat} (h : r.length ≤ k) : program.size ≤ (r.state k).ip := by
  obtain ⟨j, rfl⟩ := Nat.exists_eq_add_of_le h
  rw [r.state_add]
  exact r.halted

theorem steps {k : Nat} (h : k ≤ r.length) :
    (r.state k).steps.toList = (List.range k).map fun j => (r.state j).seen program := by
  induction k with
  | zero => rw [r.state_zero]; rfl
  | succ k ih =>
    rw [(cycle_eq_ok (r.state_succ k)).2.2, if_pos (r.running k h), Array.toList_push,
      ih (by omega), List.range_succ, List.map_append, List.map_singleton]

/-- The recorded steps with the halted row behind them. -/
theorem history :
    (r.state r.length).history = (List.range (r.length + 1)).map fun j => (r.state j).seen program := by
  rw [State.history, Array.toList_push, r.steps (Nat.le_refl _), List.range_succ, List.map_append,
    List.map_singleton, State.seen, word_of_le r.halted, following_of_le r.halted]

end Run

end Run

end TapeStark
