import Mathlib
import TapeStark.Air.Expr
import TapeStark.Air.Witness
import TapeStark.Proofs.Air.Columns
import TapeStark.Proofs.Field.Lawful
import TapeStark.Proofs.Trace.Padded

/-! Lists folded with a challenge: the bytes of a stream table, and the words of a program. -/

namespace TapeStark

/-! Folding a list with a challenge: two lists fold alike at every challenge exactly when they agree
up to zeros at the front. -/

section Horner

open ExtensionField

variable {F : Type} [ExtensionField F]

/-- The elements as coefficients, the first one highest, evaluated at a point. -/
def horner (values : List Fp) (x : F) : F := values.foldl (fun acc a => acc * x + ofBase a) 0

theorem horner_append (values : List Fp) (a : Fp) (x : F) :
    horner (values ++ [a]) x = horner values x * x + ofBase a := by
  rw [horner, List.foldl_append]
  rfl

/-- The list without the zeros at its front. -/
def significant (values : List Fp) : List Fp := values.dropWhile (· = 0)

theorem significant_append (values : List Fp) (a : Fp) :
    significant (values ++ [a]) =
      if significant values = [] then significant [a] else significant values ++ [a] := by
  rw [significant, List.dropWhile_append]
  simp only [List.isEmpty_iff]
  rfl

theorem eq_of_significant {values values' : List Fp} (hlen : values.length = values'.length)
    (h : significant values = significant values') : values = values' := by
  have front (l : List Fp) : l.takeWhile (· = 0) = List.replicate (l.takeWhile (· = 0)).length 0 :=
    List.eq_replicate_iff.mpr ⟨rfl, fun a ha => by simpa using List.mem_takeWhile_imp ha⟩
  have parts (l : List Fp) : l.takeWhile (· = 0) ++ significant l = l :=
    List.takeWhile_append_dropWhile
  have hlen' : (values.takeWhile (· = 0)).length = (values'.takeWhile (· = 0)).length := by
    have h1 := congrArg List.length (parts values)
    have h2 := congrArg List.length (parts values')
    rw [List.length_append] at h1 h2
    rw [h] at h1
    omega
  rw [← parts values, ← parts values', front values, front values', hlen', h]

private noncomputable def listPolynomial (values : List Fp) : Polynomial Fp :=
  values.foldl (fun acc a => acc * Polynomial.X + Polynomial.C a) 0

private theorem listPolynomial_append (values : List Fp) (a : Fp) :
    listPolynomial (values ++ [a]) = listPolynomial values * Polynomial.X + Polynomial.C a := by
  rw [listPolynomial, List.foldl_append]
  rfl

private theorem listPolynomial_append_inj (values values' : List Fp) (a a' : Fp) :
    listPolynomial (values ++ [a]) = listPolynomial (values' ++ [a']) ↔
      listPolynomial values = listPolynomial values' ∧ a = a' := by
  rw [listPolynomial_append, listPolynomial_append]
  constructor
  · intro h
    refine ⟨Polynomial.ext fun n => ?_, ?_⟩
    · simpa using congrArg (fun p => p.coeff (n + 1)) h
    · simpa using congrArg (fun p => p.coeff 0) h
  · rintro ⟨h, rfl⟩
    rw [h]

private theorem degree_listPolynomial (values : List Fp) :
    (listPolynomial values).degree < values.length := by
  rw [Polynomial.degree_lt_iff_coeff_zero]
  induction values using List.reverseRecOn with
  | nil => simp [listPolynomial]
  | append_singleton values a ih =>
    intro m hm
    rw [List.length_append, List.length_singleton] at hm
    obtain ⟨m, rfl⟩ : ∃ k, m = k + 1 := ⟨m - 1, by omega⟩
    rw [listPolynomial_append, Polynomial.coeff_add, Polynomial.coeff_mul_X,
      Polynomial.coeff_C_succ, add_zero]
    exact ih m (by omega)

private theorem eval_listPolynomial (values : List Fp) (x : Fp) :
    (listPolynomial values).eval x = horner values x := by
  induction values using List.reverseRecOn with
  | nil => simp [listPolynomial, horner]
  | append_singleton values a ih =>
    rw [listPolynomial_append, horner_append, Polynomial.eval_add, Polynomial.eval_mul_X,
      Polynomial.eval_C, ih]
    rfl

private theorem significant_append_eq_nil (values : List Fp) (a : Fp) :
    significant (values ++ [a]) = [] ↔ significant values = [] ∧ a = 0 := by
  rw [significant_append]
  split
  · rename_i h
    rw [h]
    by_cases ha : a = 0 <;> simp [significant, ha]
  · rename_i h
    simp [h]

private theorem significant_append_inj (values values' : List Fp) (a a' : Fp) :
    significant (values ++ [a]) = significant (values' ++ [a']) ↔
      significant values = significant values' ∧ a = a' := by
  have single (b : Fp) : (significant [b]).length ≤ 1 := List.length_dropWhile_le _ _
  rw [significant_append, significant_append]
  split <;> split
  · rename_i h h'
    rw [h, h']
    by_cases ha : a = 0 <;> by_cases ha' : a' = 0 <;> simp [significant, ha, ha', Ne.symm]
  · rename_i h h'
    rw [h]
    refine iff_of_false (fun e => ?_) fun e => h' e.1.symm
    have := congrArg List.length e
    have := List.length_pos_iff.mpr h'
    have := single a
    simp at *
    omega
  · rename_i h h'
    rw [h']
    refine iff_of_false (fun e => ?_) fun e => h e.1
    have := congrArg List.length e
    have := List.length_pos_iff.mpr h
    have := single a'
    simp at *
    omega
  · rw [List.append_singleton_inj]

private theorem listPolynomial_eq_zero_iff (values : List Fp) :
    listPolynomial values = listPolynomial [] ↔ significant values = [] := by
  induction values using List.reverseRecOn with
  | nil => simp [significant]
  | append_singleton values a ih =>
    have zero : listPolynomial [] = listPolynomial ([] ++ [0]) := by simp [listPolynomial]
    rw [zero, listPolynomial_append_inj, ih, significant_append_eq_nil]

private theorem listPolynomial_eq_iff (values values' : List Fp) :
    listPolynomial values = listPolynomial values' ↔ significant values = significant values' := by
  induction values using List.reverseRecOn generalizing values' with
  | nil => rw [eq_comm, listPolynomial_eq_zero_iff, eq_comm (b := significant values')]; rfl
  | append_singleton values a ih =>
    rcases List.eq_nil_or_concat values' with rfl | ⟨values', a', rfl⟩
    · rw [listPolynomial_eq_zero_iff]; rfl
    · rw [List.concat_eq_append, listPolynomial_append_inj, significant_append_inj, ih]

def Fp.equivFin : Fp ≃ Fin prime where
  toFun a := ⟨a.val, a.isLt⟩
  invFun i := ⟨i.val, i.isLt⟩
  left_inv _ := rfl
  right_inv _ := rfl

instance : Fintype Fp := Fintype.ofEquiv _ Fp.equivFin.symm

theorem card_fp : Fintype.card Fp = prime :=
  (Fintype.card_congr Fp.equivFin).trans (Fintype.card_fin prime)

private theorem horner_ofBase [LawfulExtension F] (values : List Fp) (x : Fp) :
    horner values (ofBase x : F) = ofBase (horner values x) := by
  induction values using List.reverseRecOn with
  | nil => exact ofBase_zero.symm
  | append_singleton values a ih =>
    rw [horner_append, horner_append, ih, ofBase_add, ofBase_mul]
    rfl

theorem horner_significant [LawfulExtension F] (values : List Fp) (x : F) :
    horner (significant values) x = horner values x := by
  induction values with
  | nil => rfl
  | cons a values ih =>
    rw [significant, List.dropWhile_cons]
    split
    · rename_i h
      refine ih.trans ?_
      rw [of_decide_eq_true h, horner, horner, List.foldl_cons, zero_mul, ofBase_zero, zero_add]
    · rfl

/-- Shorter lists than the field has elements are told apart by the challenge. -/
theorem horner_eq_iff [LawfulExtension F] {values values' : List Fp}
    (h : values.length ≤ prime) (h' : values'.length ≤ prime) :
    (∀ x : F, horner values x = horner values' x) ↔ significant values = significant values' := by
  constructor
  · intro hall
    rw [← listPolynomial_eq_iff]
    refine Polynomial.eq_of_degree_sub_lt_of_eval_finset_eq Finset.univ ?_ fun x _ => ?_
    · rw [Finset.card_univ, card_fp]
      refine lt_of_le_of_lt (Polynomial.degree_sub_le _ _) (max_lt ?_ ?_)
      · exact (degree_listPolynomial values).trans_le (by exact_mod_cast h)
      · exact (degree_listPolynomial values').trans_le (by exact_mod_cast h')
    · rw [eval_listPolynomial, eval_listPolynomial]
      refine ofBase_injective (F := F) ?_
      rw [← horner_ofBase, ← horner_ofBase, hall]
  · intro heq x
    rw [← horner_significant values, heq, horner_significant]

end Horner

/-! What the constraints of a stream table say: the evaluation column folds the values, and at the
last public byte it is the public evaluation. -/

namespace Air.Stream

open ExtensionField

variable {F : Type} [ExtensionField F] [LawfulExtension F]

section Evaluation

variable (rows : List StreamRow) (cell : Nat → Column StreamBase StreamExt → F)
  (challenge : Challenge) (ch : Challenges F)

def values (rows : List StreamRow) : List Fp := rows.map (·.value)

omit [LawfulExtension F] in
theorem eval_evaluation (cur next : Column StreamBase StreamExt → F) :
    (evaluation challenge).eval cur next ch =
      next (.ext .eval) - cur (.ext .eval) * ch.get challenge - next (.base .value) := rfl

/-- The constraints that do not concern the last byte make the column fold the values. -/
theorem evaluation_iff (hpos : 0 < rows.length)
    (hcell : ∀ i (_ : i < rows.length), cell i (.base .value) = ofBase rows[i].value) :
    ((∀ c ∈ transitions challenge, c.Holds rows.length cell ch) ∧
      (∀ p ∈ (boundary : List (PointConstraint _ F)), p.Holds rows.length cell)) ↔
      ∀ i < rows.length,
        cell i (.ext .eval) = horner ((values rows).take (i + 1)) (ch.get challenge) := by
  have hlen : (values rows).length = rows.length := List.length_map _
  have next (i : Nat) (hi : i + 1 < rows.length) :
      horner ((values rows).take (i + 2)) (ch.get challenge) =
        horner ((values rows).take (i + 1)) (ch.get challenge) * ch.get challenge +
          cell (i + 1) (.base .value) := by
    rw [List.take_succ_eq_append_getElem (by omega), horner_append, hcell _ hi]
    simp [values]
  have first : horner ((values rows).take 1) (ch.get challenge) = cell 0 (.base .value) := by
    rw [List.take_succ_eq_append_getElem (by omega), horner_append, hcell _ hpos]
    simp [values, horner]
  simp only [transitions, boundary, List.forall_mem_singleton, Transition.Holds, eval_evaluation]
  rw [PointConstraint.holds_iff (k := 0) rfl hpos]
  simp only [PointConstraint.eval, List.foldl_cons, List.foldl_nil]
  constructor
  · rintro ⟨step, start⟩ k hk
    induction k with
    | zero =>
      rw [first]
      linear_combination start
    | succ k ih =>
      rw [next k hk, ← ih (by omega)]
      linear_combination step k hk
  · intro all
    refine ⟨fun i hi => ?_, ?_⟩
    · rw [all i (by omega), all (i + 1) hi, next i hi]
      ring
    · rw [all 0 hpos, first]
      ring

/-- The constraint on the last of `n` bytes compares the fold of the first `n` values. -/
theorem terminal_iff {n : Nat} (hn : n ≤ rows.length) (value : F)
    (hall : ∀ i < rows.length,
      cell i (.ext .eval) = horner ((values rows).take (i + 1)) (ch.get challenge)) :
    (∀ p ∈ terminal value n, p.Holds rows.length cell) ↔
      (n ≠ 0 → horner ((values rows).take n) (ch.get challenge) = value) := by
  cases n with
  | zero => simp [terminal]
  | succ k =>
    rw [terminal, if_neg (by omega)]
    simp only [List.forall_mem_singleton]
    rw [PointConstraint.holds_iff (k := k) (by simp) (by omega)]
    simp only [PointConstraint.eval, List.foldl_cons, List.foldl_nil, hall k (by omega)]
    constructor
    · intro h _
      linear_combination h
    · intro h
      rw [h (Nat.succ_ne_zero k)]
      ring

/-- All constraints of a stream table for `n` public bytes. -/
theorem holds_iff {n : Nat} (hn : n ≤ rows.length) (hpos : 0 < rows.length) (value : F)
    (hcell : ∀ i (_ : i < rows.length), cell i (.base .value) = ofBase rows[i].value) :
    ((∀ c ∈ transitions challenge, c.Holds rows.length cell ch) ∧
      (∀ p ∈ boundary ++ terminal value n, p.Holds rows.length cell)) ↔
      (∀ i < rows.length,
        cell i (.ext .eval) = horner ((values rows).take (i + 1)) (ch.get challenge)) ∧
      (n ≠ 0 → horner ((values rows).take n) (ch.get challenge) = value) := by
  rw [List.forall_mem_append, ← and_assoc, evaluation_iff rows cell challenge ch hpos hcell]
  exact and_congr_right fun hall => terminal_iff rows cell challenge ch hn value hall

end Evaluation

end Air.Stream

/-! The evaluation of a program whose words are representatives of field elements. -/

section Program

open ExtensionField Trace

theorem foldlM_eq_foldl {ε α β : Type} {f : β → α → Except ε β} {g : β → α → β} {xs : List α}
    (h : ∀ x ∈ xs, ∀ acc, f acc x = .ok (g acc x)) (acc : β) :
    xs.foldlM f acc = .ok (xs.foldl g acc) := by
  induction xs generalizing acc with
  | nil => rfl
  | cons x xs ih =>
    rw [List.foldlM_cons, h x (List.mem_cons_self ..), ok_bind, List.foldl_cons]
    exact ih (fun y hy => h y (List.mem_cons_of_mem _ hy)) _

variable {F : Type} [ExtensionField F] [LawfulExtension F]

theorem ofInt?_of_isCell {n : Int} (h : IsCell n) :
    (ofInt? n : Option F) = some (ofBase (Fp.ofInt n)) := by
  obtain ⟨h0, hp⟩ := h
  obtain ⟨n, rfl⟩ := Int.eq_ofNat_of_zero_le h0
  rw [Fp.ofInt_natCast, ofInt?_natCast (by exact_mod_cast hp)]

def foldRows (ch : Challenges F) (rows : List InstructionRow) : F :=
  rows.foldl (fun acc row => acc * ch.eta + ch.compress row) 0

/-- The rows up to some address, compressed and folded. -/
def foldProgram (ch : Challenges F) (program : Program) (count : Nat) : F :=
  (List.range count).foldl (fun acc k => acc * ch.eta + ch.compress (wordRow program k)) 0

omit [LawfulExtension F] in
theorem foldProgram_eq (ch : Challenges F) (program : Program) (count : Nat) :
    foldProgram ch program count = foldRows ch ((List.range count).map (wordRow program)) := by
  rw [foldRows, List.foldl_map]
  rfl

theorem evaluateProgram_eq {program : Program} (hprogram : CellProgram program) (ch : Challenges F)
    {padding : Int} {count : Nat} (hcount : program.size + 1 + padding = count)
    (hp : count ≤ prime) : evaluateProgram program padding ch = .ok (foldProgram ch program count) := by
  rw [evaluateProgram, hcount, Int.toNat_natCast]
  refine foldlM_eq_foldl (fun k hk acc => ?_) 0
  have hk := List.mem_range.mp hk
  simp only [ofInt?_natCast (F := F) (hk.trans_le hp), ofInt?_of_isCell (hprogram.word k),
    ofInt?_of_isCell (hprogram.word (k + 1))]
  rw [Challenges.compress, wordRow, ← add_assoc, ← add_assoc]

theorem compute_eq {claim : Claim} (hprogram : CellProgram claim.program) (ch : Challenges F)
    {padding : Int} {count : Nat} (hcount : claim.program.size + 1 + padding = count)
    (hp : count ≤ prime) (pi pm : F) :
    Terminals.compute ch claim padding pi pm = .ok {
      processorInstruction := pi
      processorMemory := pm
      inputEvaluation := evaluateBytes claim.input ch.gamma
      outputEvaluation := evaluateBytes claim.output ch.delta
      programEvaluation := foldProgram ch claim.program count } := by
  rw [Terminals.compute, evaluateProgram_eq hprogram ch hcount hp]
  rfl

end Program

end TapeStark
