import Mathlib
import TapeStark.Proofs.Machine.Run

/-! The layout of compiled programs: where instructions start and where their jumps lead. A run of a
compiled program stands only at such addresses, and halts right behind the last word. -/

namespace TapeStark

open Simulator

namespace Instruction

/-- The words of an instruction: a bracket has a jump address behind it. -/
def width : Instruction → Nat
  | .opening | .closing => 2
  | .op _ => 1

def offset (is : List Instruction) (k : Nat) : Nat := ((is.take k).map width).sum

@[simp] theorem offset_zero (is : List Instruction) : offset is 0 = 0 := rfl

@[simp] theorem offset_cons_succ (i : Instruction) (is : List Instruction) (k : Nat) :
    offset (i :: is) (k + 1) = i.width + offset is k := by
  rw [offset, List.take_succ_cons, List.map_cons, List.sum_cons, offset]

end Instruction

namespace Program

/-- What stands where an instruction starts. The places in `opens` still miss their address. -/
inductive InstructionAt (words : Program) (opens : List Nat) (starts : Nat → Prop) (a : Nat) : Prop
  | op (o : Op) (word : words.getD a 0 = Instruction.code (.op o)) (next : starts (a + 1))
  | bracket (i : Instruction) (isBracket : i = .opening ∨ i = .closing)
      (word : words.getD a 0 = i.code) (next : starts (a + 2))
      (target : a + 1 ∈ opens ∨ ∃ b, starts b ∧ words.getD (a + 1) 0 = (b : Nat))

/-- The words hold an instruction wherever one starts, and the next one starts behind it. -/
structure Layout (words : Program) (opens : List Nat) (starts : Nat → Prop) : Prop where
  zero : starts 0
  size : starts words.size
  le {a : Nat} : starts a → a ≤ words.size
  instruction {a : Nat} : starts a → a < words.size → InstructionAt words opens starts a
  place {p : Nat} : p ∈ opens → p < words.size ∧ ¬ starts p ∧ starts (p + 1)

theorem getD_push_lt {words : Program} {w : Int} {a : Nat} (h : a < words.size) :
    (words.push w).getD a 0 = words.getD a 0 := by
  simp only [Array.getD_eq_getD_getElem?, Array.getElem?_push_lt h, Array.getElem?_eq_getElem h]

theorem getD_push_size (words : Program) (w : Int) :
    (words.push w).getD words.size 0 = w := by
  simp [Array.getD_eq_getD_getElem?]

theorem getD_push_push {words : Program} {w w' : Int} {a : Nat} (h : a < words.size) :
    ((words.push w).push w').getD a 0 = words.getD a 0 := by
  rw [getD_push_lt (by rw [Array.size_push]; omega), getD_push_lt h]

theorem getD_push_push_size (words : Program) (w w' : Int) :
    ((words.push w).push w').getD words.size 0 = w := by
  rw [getD_push_lt (by simp), getD_push_size]

theorem getD_push_push_succ (words : Program) (w w' : Int) :
    ((words.push w).push w').getD (words.size + 1) 0 = w' := by
  have := getD_push_size (words.push w) w'
  rwa [Array.size_push] at this

theorem getD_set (words : Program) (p a : Nat) (w : Int) (h : p < words.size) :
    (words.setIfInBounds p w).getD a 0 = if a = p then w else words.getD a 0 := by
  simp only [Array.getD_eq_getD_getElem?, Array.getElem?_setIfInBounds]
  by_cases ha : a = p
  · rw [if_pos ha.symm, if_pos ha, if_pos h, Option.getD_some]
  · rw [if_neg (Ne.symm ha), if_neg ha]

namespace Layout

variable {words : Program} {opens : List Nat} {starts : Nat → Prop}

theorem empty : Layout #[] [] (· = 0) where
  zero := rfl
  size := rfl
  le h := h.le
  instruction _ ha := absurd ha (Nat.not_lt_zero _)
  place h := absurd h List.not_mem_nil

theorem push_op (h : Layout words opens starts) (o : Op) :
    Layout (words.push (Instruction.code (.op o))) opens
      fun a => starts a ∨ a = words.size + 1 where
  zero := .inl h.zero
  size := .inr (Array.size_push _)
  le := by
    rintro a (ha | rfl)
    · have := h.le ha
      rw [Array.size_push]
      omega
    · rw [Array.size_push]
  instruction := by
    rintro a (ha | rfl) hlt
    · rw [Array.size_push] at hlt
      rcases Nat.lt_or_eq_of_le (Nat.le_of_lt_succ hlt) with hlt | rfl
      · cases h.instruction ha hlt with
        | op o' word next => exact .op o' ((getD_push_lt hlt).trans word) (.inl next)
        | bracket i hi word next target =>
          have := h.le next
          refine .bracket i hi ((getD_push_lt hlt).trans word) (.inl next) ?_
          refine target.imp_right fun ⟨b, hb, hword⟩ => ⟨b, .inl hb, ?_⟩
          exact (getD_push_lt (by omega)).trans hword
      · exact .op o (getD_push_size ..) (.inr rfl)
    · rw [Array.size_push] at hlt
      omega
  place := by
    intro p hp
    obtain ⟨hlt, hno, hnext⟩ := h.place hp
    refine ⟨by rw [Array.size_push]; omega, ?_, .inl hnext⟩
    rintro (hs | rfl)
    · exact hno hs
    · omega

theorem push_opening (h : Layout words opens starts) :
    Layout ((words.push (Instruction.code .opening)).push 0) ((words.size + 1) :: opens)
      fun a => starts a ∨ a = words.size + 2 where
  zero := .inl h.zero
  size := .inr (by simp)
  le := by
    rintro a (ha | rfl)
    · have := h.le ha
      simp only [Array.size_push]
      omega
    · simp
  instruction := by
    rintro a (ha | rfl) hlt
    · rcases Nat.lt_or_eq_of_le (h.le ha) with hlt | rfl
      · cases h.instruction ha hlt with
        | op o word next => exact .op o ((getD_push_push hlt).trans word) (.inl next)
        | bracket i hi word next target =>
          have := h.le next
          refine .bracket i hi ((getD_push_push hlt).trans word) (.inl next) ?_
          rcases target with hopen | ⟨b, hb, hword⟩
          · exact .inl (List.mem_cons_of_mem _ hopen)
          · exact .inr ⟨b, .inl hb, (getD_push_push (by omega)).trans hword⟩
      · exact .bracket .opening (.inl rfl) (getD_push_push_size ..) (.inr rfl)
          (.inl (List.mem_cons_self ..))
    · simp at hlt
  place := by
    intro p hp
    simp only [Array.size_push]
    rcases List.mem_cons.mp hp with rfl | hp
    · refine ⟨by omega, ?_, .inr rfl⟩
      rintro (hs | hs)
      · have := h.le hs
        omega
      · omega
    · obtain ⟨hlt, hno, hnext⟩ := h.place hp
      refine ⟨by omega, ?_, .inl hnext⟩
      rintro (hs | rfl)
      · exact hno hs
      · omega

/-- A closing bracket fills in the innermost place. -/
theorem push_closing {place : Nat} (h : Layout words (place :: opens) starts) :
    Layout (((words.push (Instruction.code .closing)).push ((place : Int) + 1)).setIfInBounds place
      ((words.push (Instruction.code .closing)).push ((place : Int) + 1)).size) opens
      fun a => starts a ∨ a = words.size + 2 := by
  obtain ⟨hlt, hno, hnext⟩ := h.place (List.mem_cons_self ..)
  have hset (a : Nat) : (((words.push (Instruction.code .closing)).push
      ((place : Int) + 1)).setIfInBounds place
        ((words.push (Instruction.code .closing)).push ((place : Int) + 1)).size).getD a 0 =
      if a = place then ((words.size + 2 : Nat) : Int)
      else ((words.push (Instruction.code .closing)).push ((place : Int) + 1)).getD a 0 := by
    rw [getD_set _ _ _ _ (by simp only [Array.size_push]; omega)]
    simp only [Array.size_push]
  refine ⟨.inl h.zero, .inr (by simp), ?_, ?_, ?_⟩
  · rintro a (ha | rfl)
    · have := h.le ha
      simp only [Array.size_setIfInBounds, Array.size_push]
      omega
    · simp
  · rintro a (ha | rfl) hsize
    · have hne : a ≠ place := by
        rintro rfl
        exact hno ha
      rcases Nat.lt_or_eq_of_le (h.le ha) with hsmall | rfl
      · have hword := (hset a).trans (if_neg hne) |>.trans (getD_push_push hsmall)
        cases h.instruction ha hsmall with
        | op o word next => exact .op o (hword.trans word) (.inl next)
        | bracket i hi word next target =>
          have := h.le next
          refine .bracket i hi (hword.trans word) (.inl next) ?_
          by_cases hplace : a + 1 = place
          · exact .inr ⟨words.size + 2, .inr rfl, (hset _).trans (if_pos hplace)⟩
          · rcases target with hopen | ⟨b, hb, hb'⟩
            · exact .inl ((List.mem_cons.mp hopen).resolve_left hplace)
            · exact .inr ⟨b, .inl hb,
                (hset _).trans (if_neg hplace) |>.trans (getD_push_push (by omega)) |>.trans hb'⟩
      · refine .bracket .closing (.inr rfl) ?_ (.inr rfl) (.inr ⟨place + 1, .inl hnext, ?_⟩)
        · exact (hset _).trans (if_neg hne) |>.trans (getD_push_push_size ..)
        · refine (hset _).trans (if_neg (by omega)) |>.trans (getD_push_push_succ ..) |>.trans ?_
          push_cast
          rfl
    · simp at hsize
  · intro p hp
    obtain ⟨hp, hpno, hpnext⟩ := h.place (List.mem_cons_of_mem _ hp)
    refine ⟨by simp only [Array.size_setIfInBounds, Array.size_push]; omega, ?_, .inl hpnext⟩
    rintro (hs | rfl)
    · exact hpno hs
    · omega

end Layout

/-- Every instruction starts where those before it end. -/
theorem layout_of_compileFrom {is : List Instruction} {words : Program} {opens : List Nat}
    {starts : Nat → Prop} (hlayout : Layout words opens starts) {program : Program}
    (h : compileFrom is words opens = .ok program) : ∃ starts', Layout program [] starts' ∧
      ∀ a, starts' a → starts a ∨ ∃ k ≤ is.length, a = words.size + Instruction.offset is k := by
  induction is generalizing words opens starts with
  | nil =>
    cases opens with
    | nil =>
      cases h
      exact ⟨starts, hlayout, fun a ha => .inl ha⟩
    | cons p opens => cases h
  | cons i is ih =>
    -- Behind the first instruction start the others, each one further on.
    have behind {starts' : Nat → Prop} (h : ∀ a, starts' a → (starts a ∨ a = words.size + i.width) ∨
        ∃ k ≤ is.length, a = words.size + i.width + Instruction.offset is k) (a : Nat)
        (ha : starts' a) :
        starts a ∨ ∃ k ≤ (i :: is).length, a = words.size + Instruction.offset (i :: is) k := by
      rcases h a ha with (ha | rfl) | ⟨k, hk, rfl⟩
      · exact .inl ha
      · exact .inr ⟨1, by simp, by simp⟩
      · refine .inr ⟨k + 1, by simpa using hk, ?_⟩
        rw [Instruction.offset_cons_succ, Nat.add_assoc]
    cases i with
    | op o =>
      obtain ⟨starts', hlayout', hstarts⟩ := ih (hlayout.push_op o) h
      simp only [Array.size_push] at hstarts
      exact ⟨starts', hlayout', behind hstarts⟩
    | opening =>
      obtain ⟨starts', hlayout', hstarts⟩ := ih hlayout.push_opening h
      simp only [Array.size_push] at hstarts
      exact ⟨starts', hlayout', behind hstarts⟩
    | closing =>
      cases opens with
      | nil => cases h
      | cons p opens =>
        obtain ⟨starts', hlayout', hstarts⟩ := ih hlayout.push_closing h
        simp only [Array.size_setIfInBounds, Array.size_push] at hstarts
        exact ⟨starts', hlayout', behind hstarts⟩

/-- A compiled program is laid out in the instructions of its source, without a place left to fill
in. -/
theorem exists_layout_of_source {source : String} {program : Program}
    (h : compile source = .ok program) : ∃ starts, Layout program [] starts ∧
      ∀ a, starts a → ∃ k ≤ (Instruction.lex source).length,
        a = Instruction.offset (Instruction.lex source) k := by
  obtain ⟨starts, hlayout, hstarts⟩ := layout_of_compileFrom Layout.empty h
  refine ⟨starts, hlayout, fun a ha => ?_⟩
  rcases hstarts a ha with rfl | ⟨k, hk, ha⟩
  · exact ⟨0, Nat.zero_le _, rfl⟩
  · exact ⟨k, hk, by simpa using ha⟩

theorem exists_layout {source : String} {program : Program} (h : compile source = .ok program) :
    ∃ starts, Layout program [] starts :=
  (exists_layout_of_source h).imp fun _ h => h.1

theorem word_natCast {program : Program} {s : State} {a : Nat} (h : s.ip = a) :
    s.word program = program.getD a 0 := by
  rw [State.word, word?, h, Array.getD_eq_getD_getElem?]
  rcases Nat.lt_or_ge a program.size with hlt | hge
  · rw [position?_natCast hlt, Option.bind_some]
  · rw [position?_of_le (by exact_mod_cast hge), Array.getElem?_eq_none hge, Option.bind_none]

theorem following_natCast (program : Program) (a : Nat) :
    program.following a = program.getD (a + 1) 0 := by
  rw [following, Array.getD_eq_getD_getElem?]
  split
  · rename_i hlt
    rw [word?, show (a : Int) + 1 = (a + 1 : Nat) by push_cast; rfl,
      position?_natCast (by omega), Option.bind_some]
  · rw [Array.getElem?_eq_none (by omega), Option.getD_none]

end Program

namespace Program

/-- A cycle leads from where an instruction starts to where one starts. -/
theorem Layout.start_of_effect {program : Program} {starts : Nat → Prop}
    (hlayout : Layout program [] starts) {s s' : State} (heffect : Effect program s s')
    (h : ∃ a, starts a ∧ s.ip = (a : Nat)) : ∃ a, starts a ∧ s'.ip = (a : Nat) := by
  obtain ⟨a, ha, hip⟩ := h
  have jump {i : Instruction} (isBracket : i = .opening ∨ i = .closing)
      (inside : s.ip < program.size) (word : s.word program = i.code) :
      starts (a + 2) ∧ ∃ b, starts b ∧ program.following s.ip = (b : Nat) := by
    cases hlayout.instruction ha (by omega) with
    | op o word' next =>
      rw [word_natCast hip, word'] at word
      have := Instruction.code_injective word
      subst this
      simp at isBracket
    | bracket _ _ _ next target =>
      obtain ⟨b, hb, hword⟩ := target.resolve_left List.not_mem_nil
      exact ⟨next, b, hb, by rw [hip, following_natCast, hword]⟩
  cases heffect with
  | halted _ _ _ ip _ => exact ⟨a, ha, ip.trans hip⟩
  | opening inside word ip _ =>
    obtain ⟨next, b, hb, hjump⟩ := jump (.inl rfl) inside word
    rw [ip, hjump, hip]
    split
    · exact ⟨b, hb, rfl⟩
    · exact ⟨a + 2, next, by push_cast; rfl⟩
  | closing inside word ip _ =>
    obtain ⟨next, b, hb, hjump⟩ := jump (.inr rfl) inside word
    rw [ip, hjump, hip]
    split
    · exact ⟨a + 2, next, by push_cast; rfl⟩
    · exact ⟨b, hb, rfl⟩
  | op o inside word ip _ =>
    cases hlayout.instruction ha (by omega) with
    | op _ _ next => exact ⟨a + 1, next, by rw [ip, hip]; push_cast; rfl⟩
    | bracket i isBracket word' _ _ =>
      rw [word_natCast hip, word'] at word
      have := Instruction.code_injective word
      subst this
      simp at isBracket

end Program

namespace Run

open Program

variable {program : Program} {input : ByteArray} (r : Run program input)
  {starts : Nat → Prop} (hlayout : Layout program [] starts)

include hlayout

/-- Every cycle of a compiled program stands where an instruction starts, or right behind the
program. -/
theorem exists_start (k : Nat) : ∃ a, starts a ∧ (r.state k).ip = (a : Nat) := by
  induction k with
  | zero => exact ⟨0, hlayout.zero, by rw [r.state_zero]; rfl⟩
  | succ k ih => exact hlayout.start_of_effect (r.effect k) ih

/-- A compiled program halts right behind its last word. -/
theorem ip_length : (r.state r.length).ip = program.size := by
  obtain ⟨a, ha, hip⟩ := r.exists_start hlayout r.length
  have hle := hlayout.le ha
  have hge := r.halted
  omega

end Run

end TapeStark
