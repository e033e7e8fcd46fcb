import Mathlib
import TapeStark.Machine.Interpreter
import TapeStark.Proofs.Machine.Run

/-! What the interpreter does does not depend on its limit: a run that ends or raises within a
limit does so under every larger one, and a limit cuts a run off exactly behind as many counted
instructions. -/

namespace TapeStark

namespace Memory

theorem apply_ne_stepLimit (m : Memory) (o : Op) (n : Int) :
    m.apply o ≠ .error (.machine (.stepLimit n)) := by
  intro h
  rcases fault_of_apply h with h | h | ⟨value, h⟩ <;> cases h

end Memory

namespace Interpreter

/-- A run that ends, ends behind the instructions that it counts, whatever else was allowed. -/
theorem run_steps {n : Nat} {b : Block Op} {s s' : State} (h : run n b s = .ok s') :
    s.steps ≤ s'.steps ∧ s'.steps ≤ s.steps + n ∧ run (s'.steps - s.steps) b s = .ok s' := by
  induction n generalizing b s with
  | zero =>
    cases b with
    | done =>
      cases h
      exact ⟨Nat.le_refl _, Nat.le_refl _, by rw [Nat.sub_self, run]⟩
    | op o next => cases h
    | loop body next => cases h
  | succ n ih =>
    -- One instruction is counted, and the rest of the run counts the others.
    have count {b b' : Block Op} {m : Memory} (h : run n b' ⟨m, s.steps + 1⟩ = .ok s')
        (hrun : ∀ k, run (k + 1) b s = run k b' ⟨m, s.steps + 1⟩) :
        s.steps ≤ s'.steps ∧ s'.steps ≤ s.steps + (n + 1) ∧
          run (s'.steps - s.steps) b s = .ok s' := by
      obtain ⟨hle, hge, hexact⟩ := ih h
      dsimp only at hle hge hexact
      refine ⟨by omega, by omega, ?_⟩
      rw [show s'.steps - s.steps = s'.steps - (s.steps + 1) + 1 by omega, hrun]
      exact hexact
    cases b with
    | done =>
      cases h
      exact ⟨Nat.le_refl _, by omega, by rw [Nat.sub_self, run]⟩
    | op o next =>
      rw [run] at h
      split at h
      · rename_i memory happly
        exact count h fun k => by rw [run, happly]
      · cases h
    | loop body next =>
      rw [run] at h
      split at h
      · rename_i hcell
        exact count h fun k => by rw [run, if_pos hcell]
      · rename_i hcell
        exact count h fun k => by rw [run, if_neg hcell]

/-- A run that is cut off has counted as many instructions as it was allowed. -/
theorem steps_of_stepLimit {n : Nat} {b : Block Op} {s : State} {j : Int}
    (h : run n b s = .error (.machine (.stepLimit j))) : j = (s.steps + n : Nat) := by
  induction n generalizing b s with
  | zero =>
    cases b with
    | done => cases h
    | op o next => cases h; rfl
    | loop body next => cases h; rfl
  | succ n ih =>
    have later {b' : Block Op} {m : Memory}
        (h : run n b' ⟨m, s.steps + 1⟩ = .error (.machine (.stepLimit j))) :
        j = (s.steps + (n + 1) : Nat) := by
      have := ih h
      dsimp only at this
      omega
    cases b with
    | done => cases h
    | op o next =>
      rw [run] at h
      split at h
      · exact later h
      · rename_i e he
        obtain rfl := Except.error.inj h
        exact absurd he (Memory.apply_ne_stepLimit _ _ _)
    | loop body next =>
      rw [run] at h
      split at h
      · exact later h
      · exact later h

/-- A run that is not cut off is the same under every larger limit. -/
theorem run_mono {n m : Nat} (hnm : n ≤ m) {b : Block Op} {s : State}
    (h : ∀ j, run n b s ≠ .error (.machine (.stepLimit j))) : run m b s = run n b s := by
  induction n generalizing b s m with
  | zero =>
    cases b with
    | done => rw [run, run]
    | op o next => exact absurd rfl (h s.steps)
    | loop body next => exact absurd rfl (h s.steps)
  | succ n ih =>
    obtain ⟨m, rfl⟩ : ∃ k, m = k + 1 := ⟨m - 1, by omega⟩
    have hle : n ≤ m := by omega
    cases b with
    | done => rw [run, run]
    | op o next =>
      rw [run] at h ⊢
      rw [run]
      split
      · rename_i memory happly
        simp only [happly] at h
        exact ih hle h
      · rfl
    | loop body next =>
      rw [run] at h ⊢
      rw [run]
      split
      · rename_i hcell
        rw [if_pos hcell] at h
        exact ih hle h
      · rename_i hcell
        rw [if_neg hcell] at h
        exact ih hle h

/-- The source text ends on this input in the state `s`, having counted `s.steps` instructions. -/
def Ends (source : String) (input : ByteArray) (s : State) : Prop :=
  ∃ n, execute n source input = .ok s

/-- The `k`-th counted instruction raises `e`. -/
structure Raises (source : String) (input : ByteArray) (k : Nat) (e : Error) : Prop where
  before : ∀ j < k, execute j source input = .error (.machine (.stepLimit j))
  raised : execute k source input = .error e
  fault : ∀ j, e ≠ .machine (.stepLimit j)

section Parsed

variable {source : String} {input : ByteArray} {block : Block Op}
  (hparse : Block.parse (Instruction.lex source) = .ok block)

include hparse

theorem execute_eq (n : Nat) : execute n source input = run n block ⟨.init input, 0⟩ := by
  rw [execute, hparse]
  rfl

theorem execute_of_ends {s : State} (h : Ends source input s) {n : Nat} (hn : s.steps ≤ n) :
    execute n source input = .ok s := by
  obtain ⟨m, h⟩ := h
  rw [execute_eq hparse] at h ⊢
  obtain ⟨-, -, hexact⟩ := run_steps h
  rw [run_mono (n := s.steps) hn, ← hexact]
  · rfl
  · intro j hj
    have := hexact.symm.trans hj
    cases this

theorem ends_of_execute {s : State} {n : Nat} (h : execute n source input = .ok s) :
    Ends source input s ∧ s.steps ≤ n := by
  refine ⟨⟨n, h⟩, ?_⟩
  rw [execute_eq hparse] at h
  simpa using (run_steps h).2.1

theorem ends_unique {s s' : State} (h : Ends source input s) (h' : Ends source input s') :
    s = s' :=
  Except.ok.inj ((execute_of_ends hparse h (Nat.le_max_left s.steps s'.steps)).symm.trans
    (execute_of_ends hparse h' (Nat.le_max_right s.steps s'.steps)))

theorem execute_of_raises {k : Nat} {e : Error} (h : Raises source input k e) {n : Nat}
    (hn : k ≤ n) : execute n source input = .error e := by
  have hraised := h.raised
  rw [execute_eq hparse] at hraised ⊢
  rw [run_mono hn, hraised]
  intro j hj
  exact h.fault j (Except.error.inj (hraised.symm.trans hj))

/-- A run that is cut off is cut off under every smaller limit as well. -/
theorem execute_of_stepLimit {n : Nat} {i : Int}
    (h : execute n source input = .error (.machine (.stepLimit i))) {j : Nat} (hj : j ≤ n) :
    execute j source input = .error (.machine (.stepLimit j)) := by
  rw [execute_eq hparse] at h ⊢
  by_cases hcut : ∃ k, run j block ⟨.init input, 0⟩ = .error (.machine (.stepLimit k))
  · obtain ⟨k, hk⟩ := hcut
    rw [hk, steps_of_stepLimit hk]
    simp
  · push Not at hcut
    exact absurd ((run_mono hj hcut).symm.trans h) (hcut i)

/-- A fault within the limit is raised by one of the counted instructions. -/
theorem raises_of_execute {n : Nat} {e : Error} (h : execute n source input = .error e)
    (he : ∀ j, e ≠ .machine (.stepLimit j)) : ∃ k ≤ n, Raises source input k e := by
  induction n with
  | zero => exact ⟨0, Nat.le_refl _, by simp, h, he⟩
  | succ n ih =>
    by_cases hcut : ∃ i, execute n source input = .error (.machine (.stepLimit i))
    · obtain ⟨i, hi⟩ := hcut
      exact ⟨n + 1, Nat.le_refl _,
        fun j hj => execute_of_stepLimit hparse hi (Nat.le_of_lt_succ hj), h, he⟩
    · push Not at hcut
      have hsame : execute (n + 1) source input = execute n source input := by
        simp only [execute_eq hparse] at hcut ⊢
        exact run_mono (Nat.le_succ n) hcut
      obtain ⟨k, hk, hraise⟩ := ih (hsame.symm.trans h)
      exact ⟨k, Nat.le_succ_of_le hk, hraise⟩

/-- Within a limit a run ends, or raises, or is cut off, and it is cut off exactly if it neither
ends nor raises by then. -/
theorem execute_stepLimit_iff {n : Nat} :
    execute n source input = .error (.machine (.stepLimit n)) ↔
      (∀ s, Ends source input s → n < s.steps) ∧ ∀ k e, Raises source input k e → n < k := by
  constructor
  · intro h
    refine ⟨fun s hs => ?_, fun k e hk => ?_⟩
    · by_contra hle
      rw [execute_of_ends hparse hs (not_lt.mp hle)] at h
      cases h
    · by_contra hle
      rw [execute_of_raises hparse hk (not_lt.mp hle)] at h
      exact hk.fault n (Except.error.inj h)
  · rintro ⟨hends, hraises⟩
    cases h : execute n source input with
    | ok s =>
      obtain ⟨hs, hle⟩ := ends_of_execute hparse h
      exact absurd (hends s hs) (not_lt.mpr hle)
    | error e =>
      by_cases he : ∃ j, e = .machine (.stepLimit j)
      · obtain ⟨j, rfl⟩ := he
        rw [execute_eq hparse] at h
        rw [steps_of_stepLimit h]
        simp
      · push Not at he
        obtain ⟨k, hk, hraise⟩ := raises_of_execute hparse h he
        exact absurd (hraises k e hraise) (not_lt.mpr hk)

end Parsed

end Interpreter

end TapeStark
