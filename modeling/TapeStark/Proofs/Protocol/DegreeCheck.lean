import Mathlib
import TapeStark.Proofs.Protocol.Agreement

/-!
The degree check of the composition is exact. The quotients of point constraints are below the bound
whatever the columns hold. The quotient of a transition is below the bound only if it is one of
polynomials, and then the transition is zero on every row but the last.
-/

namespace TapeStark

open ExtensionField

namespace TableCode

variable {t : Table} {F : Type} [ExtensionField F] [LawfulExtension F] {code : TableCode t F}
  {trace wide : Domain} {cell : Nat → t.Column → F} (ch : Challenges F)

/-- A quotient of the values of a transition has as few roots to spare as the domain has points, so
it is one of polynomials. -/
theorem holds_of_quotient (h : code.Extends trace wide cell) {k : Transition t.Column}
    {d bound : Nat} (hd : k.expr.degree ≤ d) (hbound : d * (trace.size - 1) + 1 < bound + trace.size)
    (hsize : bound + trace.size ≤ wide.size) (hoffset : wide.offset ≠ 0) {q : Polynomial F}
    (hq : q.degree < bound)
    (hvalues : ∀ i < wide.size,
      q.eval (ofBase (wide.element i)) * (ofBase (wide.element i) ^ trace.size - 1) =
        (code.transitionPoly trace ch [1] [k]).eval (ofBase (wide.element i)) *
          (ofBase (wide.element i) - lastPoint trace)) :
    k.Holds trace.size cell ch := by
  set p := code.transitionPoly trace ch [1] [k] with hp
  have hleft : (q * (Polynomial.X ^ trace.size - 1)).degree < (wide.size : WithBot Nat) := by
    rw [Polynomial.degree_mul, ← Polynomial.C_1, Polynomial.degree_X_pow_sub_C trace.size_pos]
    calc q.degree + trace.size < bound + trace.size :=
          WithBot.add_lt_add_right (WithBot.natCast_ne_bot _) hq
      _ ≤ wide.size := by exact_mod_cast hsize
  have hright : (p * (Polynomial.X - Polynomial.C (lastPoint trace))).degree <
      (wide.size : WithBot Nat) := by
    have hdegree : p.natDegree ≤ d * (trace.size - 1) :=
      natDegree_transitionPoly_le ch [1] [k] h (by simpa using hd)
    have hproduct : (p * (Polynomial.X - Polynomial.C (lastPoint trace))).natDegree ≤
        d * (trace.size - 1) + 1 :=
      Polynomial.natDegree_mul_le.trans
        (Nat.add_le_add hdegree (Polynomial.natDegree_X_sub_C_le _))
    exact Polynomial.degree_le_natDegree.trans_lt
      (by exact_mod_cast hproduct.trans_lt (hbound.trans_le hsize))
  have hpoly : q * (Polynomial.X ^ trace.size - 1) =
      p * (Polynomial.X - Polynomial.C (lastPoint trace)) := by
    refine wide.eq_of_values_eq hoffset hleft hright (List.map_congr_left fun i hi => ?_)
    simpa using hvalues i (List.mem_range.mp hi)
  intro i hi
  have hrow := congrArg (fun q => q.eval (ofBase (trace.element i))) hpoly
  simp only [Polynomial.eval_mul, Polynomial.eval_sub, Polynomial.eval_pow, Polynomial.eval_X,
    Polynomial.eval_one, Polynomial.eval_C, Domain.element_pow_size h.offset, sub_self,
    mul_zero] at hrow
  have hlast : (ofBase (trace.element i) - lastPoint trace : F) ≠ 0 := by
    intro hzero
    have hsame := trace.element_injective (h.offset ▸ one_ne_zero) (Nat.lt_of_succ_lt hi)
      (Nat.sub_lt trace.size_pos Nat.one_pos) (ofBase_injective (sub_eq_zero.mp hzero))
    omega
  have hzero := (mul_eq_zero.mp hrow.symm).resolve_right hlast
  rw [hp, eval_transitionPoly, h.eval_row (Nat.lt_of_succ_lt hi), h.eval_next_row hi] at hzero
  simpa using hzero

end TableCode

namespace Composition

variable {F : Type} [ExtensionField F] [LawfulExtension F] {c : Composition F}
  {tables : PerTable fun t => TableCode t F} {trace : Table → Domain} {wide : Domain}
  {cell : (t : Table) → Nat → t.Column → F}

/-- The transitions of every table with more than one row hold. -/
def TransitionsHold (c : Composition F) (trace : Table → Domain)
    (cell : (t : Table) → Nat → t.Column → F) : Prop :=
  ∀ t, 1 < c.heights.get t → ∀ k ∈ t.transitions, k.Holds (trace t).size (cell t) c.challenges

section Quotients

variable (h : ∀ t, (tables.get t).Extends (trace t) wide (cell t))
  (hwide : wide.offset = Fp.generator) (hheights : ∀ t, c.heights.get t = (trace t).size)
  (hdouble : 2 * c.heights.degreeBound ≤ wide.size)

include h hwide hheights hdouble

/-- The quotient of a transition is below the bound exactly if the transition holds. -/
theorem transitionQuotient_mem_code_iff {t : Table} {k : Transition t.Column}
    (hk : k ∈ t.transitions) (hrows : 1 < c.heights.get t) :
    c.transitionQuotient (committed tables) wide (trace t) k ∈
        wide.code F c.heights.degreeBound ↔
      k.Holds (trace t).size (cell t) c.challenges := by
  have hheight (t : Table) : (trace t).size ≤ c.heights.degreeBound :=
    Heights.le_degreeBound (hheights t)
  have hle (t : Table) : (trace t).size ≤ wide.size := (hheight t).trans (by omega)
  have hbound := Heights.maxDegree_lt (hheights t)
    (by rw [hheights] at hrows; exact_mod_cast hrows)
  have hvanishing (i : Nat) : (ofBase (wide.element i) : F) ^ (trace t).size - 1 ≠ 0 :=
    Domain.coset_pow_sub_one_ne_zero hwide (trace t) i
  have hvalue {i : Nat} (hi : i < wide.size) :
      c.transitionQuotient (committed tables) wide (trace t) k i =
        ((tables.get t).transitionPoly (trace t) c.challenges [1] [k]).eval
            (ofBase (wide.element i)) *
          (ofBase (wide.element i) - TableCode.lastPoint (trace t)) *
          (ofBase (wide.element i) ^ (trace t).size - 1)⁻¹ := by
    rw [transitionQuotient_committed h hle hheights hi, TableCode.eval_transitionPoly]
    simp [mul_assoc]
  constructor
  · rintro ⟨q, hq, hvalues⟩
    refine TableCode.holds_of_quotient c.challenges (h t) (degree_le_maxDegree hk) hbound
      ((Nat.add_le_add_left (hheight t) _).trans (by omega)) (hwide ▸ Fp.generator_ne_zero) hq ?_
    intro i hi
    rw [← hvalues i hi, hvalue hi, inv_mul_cancel_right₀ (hvanishing i)]
  · intro hholds
    obtain ⟨q, hq, hmul⟩ := TableCode.exists_transitionQuotient c.challenges [1] [k] (h t)
      (by simpa using hholds) (by simpa using degree_le_maxDegree hk) hbound
    refine ⟨q, hq, fun i hi => ?_⟩
    have heval := congrArg (fun q => q.eval (ofBase (wide.element i))) hmul
    simp only [Polynomial.eval_mul, Polynomial.eval_sub, Polynomial.eval_pow, Polynomial.eval_X,
      Polynomial.eval_one, Polynomial.eval_C] at heval
    rw [hvalue hi, ← heval, mul_inv_cancel_right₀ (hvanishing i)]

/-- The prover's shares are below the bound exactly if all transitions hold. -/
theorem shares_mem_code_iff :
    (∀ s ∈ c.constraints, (fun i => c.share tables cell wide trace i s) ∈
        wide.code F c.heights.degreeBound) ↔
      c.TransitionsHold trace cell := by
  have htransition (t : Table) (k : Transition t.Column) :
      (fun i => c.share tables cell wide trace i (.transition t k)) =
        c.transitionQuotient (committed tables) wide (trace t) k :=
    funext fun i => sub_zero _
  constructor
  · intro hmem t hrows k hk
    have := hmem _ (transition_mem_constraints.mpr (c.mem_transitions.mpr ⟨hrows, hk⟩))
    rw [htransition] at this
    exact (transitionQuotient_mem_code_iff h hwide hheights hdouble hk hrows).mp this
  · intro hholds s hs
    cases s with
    | transition t k =>
      obtain ⟨hrows, hk⟩ := c.mem_transitions.mp (transition_mem_constraints.mp hs)
      rw [htransition]
      exact (transitionQuotient_mem_code_iff h hwide hheights hdouble hk hrows).mpr
        (hholds t hrows k hk)
    | point t p =>
      have hle : (trace t).size ≤ c.heights.degreeBound := Heights.le_degreeBound (hheights t)
      refine ⟨(tables.get t).pointQuotient (trace t) 1 p,
        (TableCode.degree_pointQuotient_lt (h t) 1 p).trans_le (by exact_mod_cast hle),
        fun i hi => ?_⟩
      rw [eval_pointQuotient_committed (c := c) h hwide hi, one_mul]

/-- Under all weights the prover's values are below the bound exactly if all transitions hold; masks
below the bound change nothing. -/
theorem combination_mem_code_iff (hrandomizers : 0 ≤ c.randomizers) {masks : List (Polynomial F)}
    (hmasks : ∀ p ∈ masks, p.degree < c.heights.degreeBound) :
    (∀ weights : List F, (weights.length : Int) = c.numWeights →
        c.combination tables cell wide trace masks weights ∈ wide.code F c.heights.degreeBound) ↔
      c.TransitionsHold trace cell := by
  have hcount : (c.constraints.map fun s i => c.share tables cell wide trace i s).length ≤
      c.numWeights.toNat := by
    rw [List.length_map, length_constraints, numWeights]
    omega
  have hmasks' : ∀ f ∈ masks.map fun p i => p.eval (ofBase (wide.element i)),
      f ∈ wide.code F c.heights.degreeBound :=
    List.forall_mem_map.mpr fun p hp => ⟨p, hmasks p hp, fun i _ => rfl⟩
  rw [← shares_mem_code_iff h hwide hheights hdouble, ← List.forall_mem_map,
    ← combinations_mem_iff _ hcount hmasks']
  refine forall_congr' fun weights => ?_
  rw [eq_numWeights_iff hrandomizers]
  have hsame : c.combination tables cell wide trace masks weights =
      (List.zipWith (· • ·) weights ((c.constraints.map fun s i => c.share tables cell wide trace i s)
        ++ masks.map fun p i => p.eval (ofBase (wide.element i)))).sum := by
    funext i
    rw [combination_apply, combination, List.map_append, List.map_map, List.map_map]
    rfl
  rw [hsame]

end Quotients

/-- The check accepts, or says by how much the degree is too large. -/
theorem checkDegree_cases (hoffset : wide.offset ≠ 0) {codeword : Array F}
    (hsize : codeword.size = wide.size) (bound : Int) :
    checkDegree codeword wide bound = .ok () ∨ ∃ actual, bound ≤ actual ∧
      checkDegree codeword wide bound = .error (.compositionDegree actual bound) := by
  obtain ⟨cs, hok, -, -⟩ := Fourier.exists_interpolate hsize hoffset
  rw [checkDegree, hok, ok_bind]
  by_cases hle : bound ≤ Polynomial.degree cs
  · exact .inr ⟨_, hle, by simp [hle]⟩
  · exact .inl (by simp [hle])

/-- The codeword of the composition passes under all weights exactly if all transitions of tables
with more than one row hold; otherwise its degree is too large under some weights. -/
theorem checkDegree_compose_iff {a : Assignment F} (h : a.Over c.heights trace) {expansion : Int}
    (hexpansion : 2 ≤ expansion)
    (hwide : Domain.coset? (c.heights.degreeBound * expansion) = .ok wide)
    (hrandomizers : 0 ≤ c.randomizers) {masks : List (Polynomial F)}
    (hmasks : ∀ p ∈ masks, p.degree < c.heights.degreeBound) :
    let codewords := masks.map fun p => (Fourier.values p wide).toArray
    ∃ tables, a.code wide = .ok tables ∧
      ((∀ weights : List F, (weights.length : Int) = c.numWeights →
        ∃ codeword, c.compose tables weights codewords wide = .ok codeword ∧
          checkDegree codeword wide c.heights.degreeBound = .ok ()) ↔
        c.TransitionsHold trace fun t => (a.get t).cell) ∧
      (¬ c.TransitionsHold trace (fun t => (a.get t).cell) →
        ∃ weights : List F, (weights.length : Int) = c.numWeights ∧
          ∃ codeword actual, c.compose tables weights codewords wide = .ok codeword ∧
            checkDegree codeword wide c.heights.degreeBound =
              .error (.compositionDegree actual c.heights.degreeBound)) := by
  intro codewords
  have hcoset : wide.offset = Fp.generator := (Domain.ofSize?_eq_ok.mp hwide).2.symm
  have hoffset : wide.offset ≠ 0 := hcoset ▸ Fp.generator_ne_zero
  have hbound := Heights.degreeBound_le_size hwide
  have hdouble : 2 * c.heights.degreeBound ≤ wide.size := by
    have hsize := (Domain.ofSize?_eq_ok.mp hwide).1
    nlinarith
  have hle (t : Table) : (trace t).size ≤ wide.size := (h.size_le_degreeBound t).trans hbound
  obtain ⟨tables, hcode, hextends⟩ := h.exists_code hbound
  let entries (weights : List F) : Array F := ((List.range wide.size).map
    (c.combination tables (fun t => (a.get t).cell) wide trace masks weights)).toArray
  have hcompose (weights : List F) (hweights : (weights.length : Int) = c.numWeights) :
      c.compose tables weights codewords wide = .ok (entries weights) :=
    compose_committed hextends hcoset hle h.height_eq hrandomizers hweights masks
  have hiff : (∀ weights : List F, (weights.length : Int) = c.numWeights →
      checkDegree (entries weights) wide c.heights.degreeBound = .ok ()) ↔
      c.TransitionsHold trace fun t => (a.get t).cell := by
    rw [← combination_mem_code_iff hextends hcoset h.height_eq hdouble hrandomizers hmasks]
    exact forall₂_congr fun weights _ => (Domain.mem_code_iff_checkDegree hoffset hbound).symm
  refine ⟨tables, hcode, ?_, ?_⟩
  · rw [← hiff]
    refine forall₂_congr fun weights hweights => ?_
    simp [hcompose weights hweights]
  · intro hnot
    rw [← hiff] at hnot
    push Not at hnot
    obtain ⟨weights, hweights, hrefuses⟩ := hnot
    have hsize : (entries weights).size = wide.size := by simp [entries]
    rcases checkDegree_cases hoffset hsize c.heights.degreeBound with haccepts | ⟨actual, -, herror⟩
    · exact absurd haccepts hrefuses
    · exact ⟨weights, hweights, entries weights, actual, hcompose weights hweights, herror⟩

/-- A clock that stands still is found out. -/
theorem checkDegree_compose_of_threes :
    let codewords : List (Array Fp) := [(Fourier.values Polynomial.X Skewed.wide).toArray]
    ∃ tables, Skewed.threes.code Skewed.wide = .ok tables ∧
      ∃ weights : List Fp, (weights.length : Int) = Skewed.masked.numWeights ∧
        ∃ codeword actual,
          Skewed.masked.compose tables weights codewords Skewed.wide = .ok codeword ∧
          checkDegree codeword Skewed.wide Skewed.masked.heights.degreeBound =
            .error (.compositionDegree actual Skewed.masked.heights.degreeBound) := by
  have hmasks : ∀ p ∈ [(Polynomial.X : Polynomial Fp)],
      p.degree < Skewed.masked.heights.degreeBound := by
    have hbound : Skewed.masked.heights.degreeBound = 8 := by decide +kernel
    rw [hbound, List.forall_mem_singleton, Polynomial.degree_X]
    norm_num
  obtain ⟨tables, hcode, -, hrefuses⟩ := checkDegree_compose_iff Skewed.threes_over le_rfl
    Skewed.coset_eq (by decide) hmasks
  refine ⟨tables, hcode, hrefuses fun hholds => ?_⟩
  have hclock : (⟨"clock", 1, Air.Processor.clock, []⟩ : Transition Table.processor.Column) ∈
      Table.processor.transitions := List.mem_cons_self ..
  exact absurd (hholds .processor (by decide) _ hclock 0 (by decide)) (by decide)

end Composition

end TapeStark
