import Mathlib
import TapeStark.Proofs.Machine.Compiled
import TapeStark.Proofs.Machine.Interpreter

/-! Compiled code as the loop tree it comes from, and the machine that runs it in step with the
interpreter, one instruction for one. -/

namespace TapeStark

open Simulator

namespace Program

/-- A bracket at an address: where its test leads for a cell that is not zero, and for zero. -/
inductive BracketAt (program : Program) (a inside behind : Nat) : Prop
  | opening (word : program.getD a 0 = Instruction.code .opening) (next : inside = a + 2)
      (jump : program.getD (a + 1) 0 = behind)
  | closing (word : program.getD a 0 = Instruction.code .closing) (next : behind = a + 2)
      (jump : program.getD (a + 1) 0 = inside)

/-- The code of a block stands from `a` up to `stop`. A loop whose body has been entered goes on
at its closing bracket, so that a loop may be placed at either of its brackets. -/
def Placed (program : Program) : Block Op → (a stop : Nat) → Prop
  | .done, a, stop => a = stop
  | .op o next, a, stop =>
    program.getD a 0 = Instruction.code (.op o) ∧ Placed program next (a + 1) stop
  | .loop body next, a, stop => ∃ inside close,
    BracketAt program a inside (close + 2) ∧ BracketAt program close inside (close + 2) ∧
      Placed program body inside close ∧ Placed program next (close + 2) stop

variable {program : Program}

theorem Placed.append {b c : Block Op} {a m stop : Nat} (hb : Placed program b a m)
    (hc : Placed program c m stop) : Placed program (b.append c) a stop := by
  induction b generalizing a with
  | done =>
    rw [Placed] at hb
    subst hb
    exact hc
  | op o next ih => exact ⟨hb.1, ih hb.2⟩
  | loop body next _ ih =>
    obtain ⟨inside, close, hopen, hclose, hbody, hnext⟩ := hb
    exact ⟨inside, close, hopen, hclose, hbody, ih hnext⟩

/-- A turn of a loop: its body and then the loop again, at its closing bracket. -/
theorem Placed.turn {body next : Block Op} {stop inside close : Nat}
    (hclose : BracketAt program close inside (close + 2)) (hbody : Placed program body inside close)
    (hnext : Placed program next (close + 2) stop) :
    Placed program (body.append (.loop body next)) inside stop :=
  hbody.append ⟨inside, close, hclose, hclose, hbody, hnext⟩

section Compiled

/-- The places still to be filled in are different words. -/
structure Places (words : Program) (opens : List Nat) : Prop where
  lt : ∀ p ∈ opens, p < words.size
  nodup : opens.Nodup

namespace Places

variable {words : Program} {opens : List Nat}

theorem push (h : Places words opens) (w : Int) : Places (words.push w) opens where
  lt p hp := by
    rw [Array.size_push]
    exact (h.lt p hp).trans (Nat.lt_succ_self _)
  nodup := h.nodup

theorem push_place (h : Places words opens) (w w' : Int) :
    Places ((words.push w).push w') ((words.size + 1) :: opens) where
  lt := List.forall_mem_cons.mpr ⟨by simp, ((h.push w).push w').lt⟩
  nodup := List.nodup_cons.mpr ⟨fun hp => absurd (h.lt _ hp) (by omega), h.nodup⟩

theorem fill {p : Nat} (h : Places words (p :: opens)) (w w' v : Int) :
    Places (((words.push w).push w').setIfInBounds p v) opens where
  lt q hq := by
    rw [Array.size_setIfInBounds]
    exact ((h.push w).push w').lt q (List.mem_cons_of_mem p hq)
  nodup := h.nodup.of_cons

theorem size_notMem (h : Places words opens) : words.size ∉ opens :=
  fun hmem => (h.lt _ hmem).false

end Places

section Invariant

variable {P : Program → List Nat → Prop}
  (op : ∀ {words opens} (o : Op), P words opens → P (words.push (Instruction.code (.op o))) opens)
  (opening : ∀ {words opens}, P words opens →
    P ((words.push (Instruction.code .opening)).push 0) ((words.size + 1) :: opens))
  (closing : ∀ {words p opens}, p < words.size → P words (p :: opens) →
    P (((words.push (Instruction.code .closing)).push (p + 1)).setIfInBounds p
      (words.size + 2 : Nat)) opens)

include op opening closing

theorem invariant_of_compileFrom {is : List Instruction} {words : Program} {opens : List Nat}
    (h : compileFrom is words opens = .ok program) (hplaces : Places words opens)
    (hwords : P words opens) : P program [] := by
  induction is generalizing words opens with
  | nil =>
    cases opens with
    | nil => cases h; exact hwords
    | cons p opens => cases h
  | cons i is ih =>
    cases i with
    | op o => exact ih h (hplaces.push _) (op o hwords)
    | opening => exact ih h (hplaces.push_place _ _) (opening hwords)
    | closing =>
      cases opens with
      | nil => cases h
      | cons p opens =>
        have hclosed := closing (hplaces.lt p (List.mem_cons_self ..)) hwords
        rw [compileFrom, Array.size_push, Array.size_push] at h
        exact ih h (hplaces.fill _ _ _) hclosed

/-- What each instruction of the source preserves, a compiled program has. -/
theorem invariant_of_compile (start : P #[] []) {source : String}
    (h : compile source = .ok program) : P program [] :=
  invariant_of_compileFrom op opening closing h ⟨by simp, List.nodup_nil⟩ start

end Invariant

/-- Later words leave those before them as they are, except at the places still to be filled in. -/
theorem getD_of_compileFrom {is : List Instruction} {words : Program} {opens : List Nat}
    (h : compileFrom is words opens = .ok program) (hplaces : Places words opens) {a : Nat}
    (ha : a < words.size) (hno : a ∉ opens) : program.getD a 0 = words.getD a 0 := by
  induction is generalizing words opens with
  | nil =>
    cases opens with
    | nil => cases h; rfl
    | cons p opens => cases h
  | cons i is ih =>
    cases i with
    | op o =>
      rw [compileFrom] at h
      rw [ih h (hplaces.push _) (by rw [Array.size_push]; omega) hno, getD_push_lt ha]
    | opening =>
      rw [compileFrom] at h
      rw [ih h (hplaces.push_place _ _) (by simp only [Array.size_push]; omega) ?_,
        getD_push_push ha]
      rw [List.mem_cons, not_or]
      exact ⟨by omega, hno⟩
    | closing =>
      cases opens with
      | nil => cases h
      | cons p opens =>
        rw [compileFrom] at h
        have hp := hplaces.lt p (List.mem_cons_self ..)
        rw [List.mem_cons, not_or] at hno
        rw [ih h (hplaces.fill _ _ _)
          (by simp only [Array.size_setIfInBounds, Array.size_push]; omega) hno.2,
          getD_set _ _ _ _ (by simp only [Array.size_push]; omega), if_neg hno.1,
          getD_push_push ha]

/-- The first instruction is written behind the words that there are, and the others behind it. -/
theorem exists_of_compileFrom_cons {i : Instruction} {is : List Instruction} {words : Program}
    {opens : List Nat} (h : compileFrom (i :: is) words opens = .ok program)
    (hplaces : Places words opens) : program.getD words.size 0 = i.code ∧
      ∃ words' opens', compileFrom is words' opens' = .ok program ∧ Places words' opens' ∧
        words'.size = words.size + i.width := by
  cases i with
  | op o =>
    rw [compileFrom] at h
    have hplaces' := hplaces.push (Instruction.code (.op o))
    refine ⟨?_, _, _, h, hplaces', Array.size_push _⟩
    rw [getD_of_compileFrom h hplaces' (by simp) hplaces.size_notMem, getD_push_size]
  | opening =>
    rw [compileFrom] at h
    have hplaces' := hplaces.push_place (Instruction.code .opening) 0
    refine ⟨?_, _, _, h, hplaces', by simp only [Array.size_push]; rfl⟩
    rw [getD_of_compileFrom h hplaces' (by simp) ?_, getD_push_push_size]
    rw [List.mem_cons, not_or]
    exact ⟨by omega, hplaces.size_notMem⟩
  | closing =>
    cases opens with
    | nil => cases h
    | cons p opens =>
      rw [compileFrom] at h
      have hp := hplaces.lt p (List.mem_cons_self ..)
      have hno := hplaces.size_notMem
      rw [List.mem_cons, not_or] at hno
      have hplaces' := hplaces.fill (Instruction.code .closing) ((p : Int) + 1)
        ((words.push (Instruction.code .closing)).push ((p : Int) + 1)).size
      refine ⟨?_, _, _, h, hplaces', by simp only [Array.size_setIfInBounds, Array.size_push]; rfl⟩
      rw [getD_of_compileFrom h hplaces' (by simp) hno.2,
        getD_set _ _ _ _ (by simp only [Array.size_push]; omega), if_neg hno.1,
        getD_push_push_size]

/-- Each instruction is written at its offset. -/
theorem code_of_compileFrom {is : List Instruction} {words : Program} {opens : List Nat}
    (h : compileFrom is words opens = .ok program) (hplaces : Places words opens) {k : Nat}
    (hk : k < is.length) :
    program.getD (words.size + Instruction.offset is k) 0 = is[k].code := by
  induction is generalizing words opens k with
  | nil => exact absurd hk (Nat.not_lt_zero k)
  | cons i is ih =>
    obtain ⟨hword, words', opens', h', hplaces', hsize⟩ := exists_of_compileFrom_cons h hplaces
    cases k with
    | zero => exact hword
    | succ k =>
      rw [Instruction.offset_cons_succ, ← Nat.add_assoc, ← hsize]
      exact ih h' hplaces' (Nat.lt_of_succ_lt_succ hk)

theorem size_of_compileFrom {is : List Instruction} {words : Program} {opens : List Nat}
    (h : compileFrom is words opens = .ok program) (hplaces : Places words opens) :
    program.size = words.size + Instruction.offset is is.length := by
  induction is generalizing words opens with
  | nil =>
    cases opens with
    | nil => cases h; rfl
    | cons p opens => cases h
  | cons i is ih =>
    obtain ⟨-, words', opens', h', hplaces', hsize⟩ := exists_of_compileFrom_cons h hplaces
    rw [ih h' hplaces', hsize, List.length_cons, Instruction.offset_cons_succ, Nat.add_assoc]

section Source

variable {source : String} (h : compile source = .ok program)

include h

theorem code_of_compile {k : Nat} (hk : k < (Instruction.lex source).length) :
    program.getD (Instruction.offset (Instruction.lex source) k) 0 =
      (Instruction.lex source)[k].code := by
  have := code_of_compileFrom h ⟨by simp, List.nodup_nil⟩ hk
  rwa [show (#[] : Program).size = 0 from rfl, Nat.zero_add] at this

theorem size_of_compile : program.size =
    Instruction.offset (Instruction.lex source) (Instruction.lex source).length := by
  have := size_of_compileFrom h ⟨by simp, List.nodup_nil⟩
  rwa [show (#[] : Program).size = 0 from rfl, Nat.zero_add] at this

end Source

/-- What the prefix of a program that has been compiled makes of the rest: a block placed from
`a` on completes the loops that are still open. -/
def Pending (program : Program) (here : Block Op → Block Op) :
    (outer : List (Block Op → Block Op)) → (opens : List Nat) → (a : Nat) → Prop
  | [], [], a => ∀ b stop, Placed program b a stop → Placed program (here b) 0 stop
  | before :: outer, p :: opens, a => ∃ q, p = q + 1 ∧
    program.getD q 0 = Instruction.code .opening ∧
      (∀ b stop, Placed program b a stop → Placed program (here b) (p + 1) stop) ∧
        Pending program before outer opens q
  | _, _, _ => False

variable {here : Block Op → Block Op} {outer : List (Block Op → Block Op)} {opens : List Nat}

theorem Pending.map {a q : Nat} (h : Pending program here outer opens q)
    {f : Block Op → Block Op}
    (hf : ∀ b stop, Placed program b a stop → Placed program (f b) q stop) :
    Pending program (fun b => here (f b)) outer opens a := by
  match outer, opens, h with
  | [], [], h => exact fun b stop hb => h _ _ (hf b stop hb)
  | before :: outer, p :: opens, ⟨q, hq, hword, hhere, hbefore⟩ =>
    exact ⟨q, hq, hword, fun b stop hb => hhere _ _ (hf b stop hb), hbefore⟩

/-- The two addresses of a loop stay as its closing bracket writes them. -/
theorem words_of_closing {is : List Instruction} {words : Program} {q : Nat}
    (hplaces : Places words ((q + 1) :: opens))
    (h : compileFrom is (((words.push (Instruction.code .closing)).push
      (((q + 1 : Nat) : Int) + 1)).setIfInBounds (q + 1)
        ((words.push (Instruction.code .closing)).push (((q + 1 : Nat) : Int) + 1)).size) opens =
          .ok program) :
    program.getD (words.size + 1) 0 = (q + 2 : Nat) ∧
      program.getD (q + 1) 0 = (words.size + 2 : Nat) := by
  have hq := hplaces.lt (q + 1) (List.mem_cons_self ..)
  have hbehind : words.size + 1 ∉ opens := fun hmem => by
    have := hplaces.lt _ (List.mem_cons_of_mem _ hmem)
    omega
  have hword {a : Nat} (ha : a < words.size + 2) (hno : a ∉ opens) :=
    getD_of_compileFrom h (hplaces.fill _ _ _)
      (by simpa only [Array.size_setIfInBounds, Array.size_push] using ha) hno
  simp only [getD_set _ _ _ _ (show q + 1 < ((words.push (Instruction.code .closing)).push
    (((q + 1 : Nat) : Int) + 1)).size by simp only [Array.size_push]; omega)] at hword
  constructor
  · rw [hword (by omega) hbehind, if_neg (by omega), getD_push_push_succ]
    push_cast
    rfl
  · rw [hword (by omega) (List.nodup_cons.mp hplaces.nodup).1, if_pos rfl]
    simp only [Array.size_push]

/-- A program that compiles parses, and its block is placed in the words. -/
theorem placed_of_compileFrom {is : List Instruction} {words : Program}
    (h : compileFrom is words opens = .ok program) (hplaces : Places words opens)
    (hpending : Pending program here outer opens words.size) :
    ∃ block, Block.parseFrom is here outer = .ok block ∧ Placed program block 0 program.size := by
  induction is generalizing words here outer opens with
  | nil =>
    cases opens with
    | cons p opens => cases h
    | nil =>
      cases outer with
      | cons before outer => exact hpending.elim
      | nil =>
        cases h
        exact ⟨here .done, rfl, hpending .done _ rfl⟩
  | cons i is ih =>
    cases i with
    | op o =>
      obtain ⟨hword, -⟩ := exists_of_compileFrom_cons h hplaces
      refine ih h (hplaces.push _) ?_
      rw [Array.size_push]
      exact hpending.map fun b stop hb => ⟨hword, hb⟩
    | opening =>
      obtain ⟨hword, -⟩ := exists_of_compileFrom_cons h hplaces
      refine ih h (hplaces.push_place _ _) ?_
      simp only [Array.size_push]
      exact ⟨words.size, rfl, hword, fun b stop hb => hb, hpending⟩
    | closing =>
      cases opens with
      | nil => cases h
      | cons p opens =>
        cases outer with
        | nil => exact hpending.elim
        | cons before outer =>
          obtain ⟨q, rfl, hopen, hhere, hbefore⟩ := hpending
          obtain ⟨hclose, -⟩ := exists_of_compileFrom_cons h hplaces
          rw [compileFrom] at h
          obtain ⟨hback, hjump⟩ := words_of_closing hplaces h
          refine ih h (hplaces.fill _ _ _) ?_
          simp only [Array.size_setIfInBounds, Array.size_push]
          refine hbefore.map fun b stop hb => ⟨q + 2, words.size, ?_, ?_, hhere _ _ rfl, hb⟩
          · exact .opening hopen rfl hjump
          · exact .closing hclose rfl hback

theorem exists_placed {source : String} (h : compile source = .ok program) :
    ∃ block, Block.parse (Instruction.lex source) = .ok block ∧
      Placed program block 0 program.size :=
  placed_of_compileFrom h ⟨by simp, List.nodup_nil⟩
    (show Pending program id [] [] 0 from fun _ _ hb => hb)

end Compiled

section Lockstep

theorem lt_size_of_getD {a : Nat} {i : Instruction} (h : program.getD a 0 = i.code) :
    a < program.size := by
  by_contra hle
  rw [Array.getD_eq_getD_getElem?, Array.getElem?_eq_none (not_lt.mp hle)] at h
  exact i.code_ne_zero h.symm

/-- A bracket stands inside the program. -/
theorem BracketAt.lt_size {a inside behind : Nat} (h : BracketAt program a inside behind) :
    a < program.size := by
  cases h with
  | opening word _ _ => exact lt_size_of_getD word
  | closing word _ _ => exact lt_size_of_getD word

theorem ofWord?_code (i : Instruction) : Instruction.ofWord? i.code = some i := by
  have all : ∀ i ∈ Instruction.all, Instruction.ofWord? i.code = some i := by decide
  exact all i (Instruction.mem_all i)

variable {s : Simulator.State} {a : Nat}

theorem step_eq {i : Instruction} (hip : s.ip = a) (hword : program.getD a 0 = i.code) :
    step program s = (act a i.code (program.getD (a + 1) 0) s.memory).map fun r =>
      ⟨r.1, s.clk + 1, r.2, s.steps.push (s.observe i.code (program.getD (a + 1) 0))⟩ := by
  have hlt := lt_size_of_getD hword
  have hget : program.word? s.ip = some (i.code : Int) := by
    rw [word?, hip, position?_natCast hlt, Option.bind_some, ← hword,
      Array.getD_eq_getD_getElem?, Array.getElem?_eq_getElem hlt, Option.getD_some]
  rw [step, hget]
  dsimp only
  rw [hip, following_natCast]
  cases act a i.code (program.getD (a + 1) 0) s.memory <;> rfl

/-- A bracket jumps over its loop from a cell that is zero, and into it from any other. -/
theorem step_bracket {inside behind : Nat} (hip : s.ip = a)
    (hbracket : BracketAt program a inside behind) : ∃ steps, step program s = .ok
      ⟨(if s.memory.cell = 0 then behind else inside : Nat), s.clk + 1, s.memory, steps⟩ := by
  cases hbracket with
  | opening word next jump =>
    rw [step_eq hip word, act, ofWord?_code, jump, next, Nat.cast_ite]
    exact ⟨_, rfl⟩
  | closing word next jump =>
    rw [step_eq hip word, act, ofWord?_code, jump, next, Nat.cast_ite]
    exact ⟨_, rfl⟩

/-- An instruction changes the memory as the interpreter does, and the next one follows. -/
theorem step_op {o : Op} (hip : s.ip = a) (hword : program.getD a 0 = Instruction.code (.op o)) :
    (∃ m steps, s.memory.apply o = .ok m ∧
      step program s = .ok ⟨(a + 1 : Nat), s.clk + 1, m, steps⟩) ∨
    ∃ e, s.memory.apply o = .error e ∧ step program s = .error e := by
  rw [step_eq hip hword, act, ofWord?_code]
  dsimp only
  cases s.memory.apply o with
  | ok m => exact .inl ⟨m, _, rfl, rfl⟩
  | error e => exact .inr ⟨e, rfl, rfl⟩

def shown (s : Simulator.State) : Interpreter.State := ⟨s.memory, s.clk⟩

/-- Started where a block is placed that fills the rest of the program, the machine runs as the
interpreter runs the block: within as many instructions, to the same state or the same error. -/
theorem run_placed {n : Nat} {block : Block Op} (hplaced : Placed program block a program.size)
    (hip : s.ip = a) {limit : Int} (hlimit : limit = (s.clk + n : Nat)) :
    (Simulator.run program limit n s).map shown = Interpreter.run n block ⟨s.memory, s.clk⟩ := by
  -- Induction on the instructions left: the block that the interpreter goes on with is placed
  -- where the machine stands after one step.
  induction n generalizing block a s with
  | zero =>
    cases block with
    | done =>
      rw [Placed] at hplaced
      rw [Simulator.run, if_neg (by omega), Interpreter.run]
      rfl
    | op o next =>
      have := lt_size_of_getD hplaced.1
      rw [Simulator.run, if_pos (by omega), hlimit]
      rfl
    | loop body next =>
      obtain ⟨inside, close, hbracket, -⟩ := hplaced
      have := hbracket.lt_size
      rw [Simulator.run, if_pos (by omega), hlimit]
      rfl
  | succ n ih =>
    have hlater : limit = (s.clk + 1 + n : Nat) := by rw [hlimit]; push_cast; ring
    cases block with
    | done =>
      rw [Placed] at hplaced
      rw [Simulator.run, if_neg (by omega), Interpreter.run]
      rfl
    | op o next =>
      obtain ⟨hword, hnext⟩ := hplaced
      have := lt_size_of_getD hword
      rw [Simulator.run, if_pos (by omega), Interpreter.run]
      obtain ⟨m, steps, happly, hstep⟩ | ⟨e, happly, hstep⟩ := step_op hip hword
      · rw [hstep, happly]
        exact ih hnext rfl hlater
      · rw [hstep, happly]
        rfl
    | loop body next =>
      obtain ⟨inside, close, hbracket, hclose, hbody, hnext⟩ := hplaced
      have := hbracket.lt_size
      obtain ⟨steps, hstep⟩ := step_bracket hip hbracket
      rw [Simulator.run, if_pos (by omega), Interpreter.run, hstep]
      dsimp only
      split
      · exact ih hnext rfl hlater
      · exact ih (.turn hclose hbody hnext) rfl hlater

end Lockstep

end Program

namespace Simulator

/-- A compiled program runs as its source is interpreted, for as many instructions. -/
theorem execute_map_shown {source : String} {program : Program}
    (hcompile : Program.compile source = .ok program) (input : ByteArray) (n : Nat) :
    (execute program input n).map Program.shown = Interpreter.execute n source input := by
  obtain ⟨block, hparse, hplaced⟩ := Program.exists_placed hcompile
  rw [Interpreter.execute_eq hparse, execute, Int.toNat_natCast]
  exact Program.run_placed hplaced rfl (by simp [start])

end Simulator

end TapeStark
