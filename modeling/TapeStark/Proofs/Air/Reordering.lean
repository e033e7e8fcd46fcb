import Mathlib
import TapeStark.Proofs.Air.Columns
import TapeStark.Proofs.Air.Evaluation

/-! Running products against the order of rows. A row of three cells is folded with the powers of a
challenge and enters the product as its distance from a point. Few rows are told apart by some
challenge, and then the points at which the product vanishes count every row as often as it occurs:
the products of two tables agree at all challenges exactly when one table is a reordering of the
other. -/

namespace TapeStark

open ExtensionField

section Fold

def foldCells (t : Fp) (r : Fp × Fp × Fp) : Fp := r.1 + r.2.1 * t + r.2.2 * t ^ 2

/-- The difference of two folded rows as a polynomial in the challenge. -/
private noncomputable def foldDifference (r q : Fp × Fp × Fp) : Polynomial Fp :=
  .C (r.2.2 - q.2.2) * .X ^ 2 + .C (r.2.1 - q.2.1) * .X + .C (r.1 - q.1)

private theorem eval_foldDifference (t : Fp) (r q : Fp × Fp × Fp) :
    (foldDifference r q).eval t = foldCells t r - foldCells t q := by
  simp only [foldDifference, foldCells, Polynomial.eval_add, Polynomial.eval_mul,
    Polynomial.eval_C, Polynomial.eval_pow, Polynomial.eval_X]
  ring

private theorem foldDifference_ne_zero {r q : Fp × Fp × Fp} (h : r ≠ q) :
    foldDifference r q ≠ 0 := by
  intro h0
  have coeff (n : Nat) : (foldDifference r q).coeff n = 0 := by rw [h0, Polynomial.coeff_zero]
  have c0 := coeff 0
  have c1 := coeff 1
  have c2 := coeff 2
  simp [-map_sub, foldDifference, Polynomial.coeff_X, Polynomial.coeff_C] at c0 c1 c2
  exact h (Prod.ext (sub_eq_zero.mp c0) (Prod.ext (sub_eq_zero.mp c1) (sub_eq_zero.mp c2)))

/-- Two rows agree at two challenges at most, so some challenge tells few rows apart. -/
theorem exists_injOn_foldCells (s : Finset (Fp × Fp × Fp)) (hs : s.card * s.card * 2 < prime) :
    ∃ t, Set.InjOn (foldCells t) s := by
  have degree : (∏ p ∈ s.offDiag, foldDifference p.1 p.2).natDegree < prime := by
    refine lt_of_le_of_lt (Polynomial.natDegree_prod_le _ _) (lt_of_le_of_lt ?_ hs)
    calc ∑ p ∈ s.offDiag, (foldDifference p.1 p.2).natDegree
        ≤ s.offDiag.card • 2 :=
          Finset.sum_le_card_nsmul _ _ 2 fun p _ => Polynomial.natDegree_quadratic_le
      _ ≤ s.card * s.card * 2 := by
          rw [smul_eq_mul, Finset.offDiag_card]
          exact Nat.mul_le_mul_right 2 (Nat.sub_le _ _)
  have nonzero : ∏ p ∈ s.offDiag, foldDifference p.1 p.2 ≠ 0 :=
    Finset.prod_ne_zero_iff.mpr fun p hp => foldDifference_ne_zero (Finset.mem_offDiag.mp hp).2.2
  obtain ⟨t, ht⟩ := Polynomial.exists_eval_ne_zero_of_natDegree_lt_card _ nonzero
    (by rw [Cardinal.mk_fintype, card_fp]; exact_mod_cast degree)
  refine ⟨t, fun r hr q hq hrq => ?_⟩
  by_contra hne
  rw [Polynomial.eval_prod] at ht
  refine Finset.prod_ne_zero_iff.mp ht (r, q) (Finset.mem_offDiag.mpr ⟨hr, hq, hne⟩) ?_
  rw [eval_foldDifference, hrq, sub_self]

end Fold

section Product

private noncomputable def rootProduct (xs : List Fp) : Polynomial Fp :=
  ((xs : Multiset Fp).map fun a => Polynomial.X - Polynomial.C a).prod

private theorem eval_rootProduct (xs : List Fp) (x : Fp) :
    (rootProduct xs).eval x = (xs.map (x - ·)).prod := by
  rw [rootProduct, Polynomial.eval_multiset_prod, Multiset.map_map, Multiset.map_coe,
    Multiset.prod_coe]
  simp [Function.comp_def]

private theorem degree_rootProduct_le (xs : List Fp) : (rootProduct xs).degree ≤ xs.length := by
  refine Polynomial.degree_le_of_natDegree_le (le_of_eq ?_)
  rw [rootProduct, Polynomial.natDegree_multiset_prod_X_sub_C_eq_card, Multiset.coe_card]

/-- The points at which the product vanishes give the elements, each as often as it occurs. -/
theorem perm_of_prod_sub_eq {xs ys : List Fp} (hx : xs.length < prime) (hy : ys.length < prime)
    (h : ∀ x, (xs.map (x - ·)).prod = (ys.map (x - ·)).prod) : xs.Perm ys := by
  have polynomials : rootProduct xs = rootProduct ys := by
    refine Polynomial.eq_of_degree_sub_lt_of_eval_finset_eq Finset.univ ?_ fun x _ => ?_
    · rw [Finset.card_univ, card_fp]
      refine lt_of_le_of_lt (Polynomial.degree_sub_le _ _) (max_lt ?_ ?_)
      · exact (degree_rootProduct_le xs).trans_lt (by exact_mod_cast hx)
      · exact (degree_rootProduct_le ys).trans_lt (by exact_mod_cast hy)
    · rw [eval_rootProduct, eval_rootProduct, h]
  have roots (zs : List Fp) : (rootProduct zs).roots = zs :=
    Polynomial.roots_multiset_prod_X_sub_C _
  rw [← Multiset.coe_eq_coe, ← roots xs, polynomials, roots ys]

/-- A function that tells the elements apart takes the order along. -/
theorem perm_of_map_perm {α β : Type} [Nonempty α] {f : α → β} {xs ys : List α}
    (hf : Set.InjOn f {a | a ∈ xs ++ ys}) (h : (xs.map f).Perm (ys.map f)) : xs.Perm ys := by
  have back {zs : List α} (hzs : ∀ a ∈ zs, a ∈ xs ++ ys) :
      (zs.map f).map (Function.invFunOn f {a | a ∈ xs ++ ys}) = zs := by
    rw [List.map_map]
    exact (List.map_congr_left fun a ha => hf.leftInvOn_invFunOn (hzs a ha)).trans (List.map_id _)
  have := h.map (Function.invFunOn f {a | a ∈ xs ++ ys})
  rwa [back fun a ha => List.mem_append_left _ ha, back fun a ha => List.mem_append_right _ ha]
    at this

/-- Few rows are determined, up to their order, by the products at all challenges and points. -/
theorem prod_sub_foldCells_iff {xs ys : List (Fp × Fp × Fp)} (hx : xs.length ≤ 2 ^ 30)
    (hy : ys.length ≤ 2 ^ 30) :
    (∀ t x, (xs.map fun r => x - foldCells t r).prod = (ys.map fun r => x - foldCells t r).prod) ↔
      xs.Perm ys := by
  constructor
  · intro h
    have few : (xs ++ ys).toFinset.card ≤ 2 ^ 31 := by
      refine (List.toFinset_card_le _).trans ?_
      rw [List.length_append]
      omega
    obtain ⟨t, ht⟩ := exists_injOn_foldCells (xs ++ ys).toFinset
      ((Nat.mul_le_mul_right 2 (Nat.mul_le_mul few few)).trans_lt (by decide))
    refine perm_of_map_perm (f := foldCells t) (ht.mono fun r hr => by simpa using hr)
      (perm_of_prod_sub_eq ?_ ?_ fun x => ?_)
    · rw [List.length_map]
      exact hx.trans_lt (by decide)
    · rw [List.length_map]
      exact hy.trans_lt (by decide)
    · rw [List.map_map, List.map_map]
      exact h t x
  · intro h t x
    exact (h.map _).prod_eq

end Product

section Challenges

variable (F : Type) [ExtensionField F] [LawfulExtension F]

/-- Challenges that fold rows with the powers of `t` and take the products at the point `x`. -/
def Challenges.powers (t x : Fp) : Challenges F where
  a := 1
  b := ofBase t
  c := ofBase (t ^ 2)
  d := 1
  e := ofBase t
  f := ofBase (t ^ 2)
  alpha := ofBase x
  beta := ofBase x
  gamma := 0
  delta := 0
  eta := 0

/-- The products of factors that are distances of folded rows at some challenges. -/
theorem prod_factor_iff {ρ : Type} (cells : ρ → Fp × Fp × Fp) (hcells : cells.Injective)
    {factor : Challenges F → ρ → F}
    (hfactor : ∀ t x r, factor (.powers F t x) r = ofBase (x - foldCells t (cells r)))
    {xs ys : List ρ} (hx : xs.length ≤ 2 ^ 30) (hy : ys.length ≤ 2 ^ 30) :
    (∀ ch : Challenges F, (xs.map (factor ch)).prod = (ys.map (factor ch)).prod) ↔ xs.Perm ys := by
  constructor
  · intro h
    refine (List.map_perm_map_iff hcells).mp
      ((prod_sub_foldCells_iff (by simpa using hx) (by simpa using hy)).mp fun t x => ?_)
    have base (zs : List ρ) : (zs.map (factor (.powers F t x))).prod =
        ofBase (((zs.map cells).map fun r => x - foldCells t r).prod) := by
      rw [← baseHom_apply, map_list_prod, List.map_map, List.map_map]
      exact congrArg List.prod (List.map_congr_left fun r _ => hfactor t x r)
    refine ofBase_injective (F := F) ?_
    rw [← base xs, ← base ys, h]
  · intro h ch
    exact (h.map _).prod_eq

variable {F}

theorem prod_instructionFactor_iff {xs ys : List InstructionRow} (hx : xs.length ≤ 2 ^ 30)
    (hy : ys.length ≤ 2 ^ 30) : (∀ ch : Challenges F,
      (xs.map ch.instructionFactor).prod = (ys.map ch.instructionFactor).prod) ↔ xs.Perm ys := by
  refine prod_factor_iff F (fun r => (r.ip, r.ci, r.ni)) ?_ (fun t x r => ?_) hx hy
  · rintro ⟨_, _, _⟩ ⟨_, _, _⟩ h
    cases h
    rfl
  · simp only [Challenges.instructionFactor, Challenges.compress, Challenges.powers, foldCells,
      ofBase_sub, ofBase_add, ofBase_mul, ofBase_pow]
    ring

theorem prod_memoryFactor_iff {xs ys : List MemoryRow} (hx : xs.length ≤ 2 ^ 30)
    (hy : ys.length ≤ 2 ^ 30) : (∀ ch : Challenges F,
      (xs.map ch.memoryFactor).prod = (ys.map ch.memoryFactor).prod) ↔ xs.Perm ys := by
  refine prod_factor_iff F (fun r => (r.clk, r.mp, r.mv)) ?_ (fun t x r => ?_) hx hy
  · rintro ⟨_, _, _⟩ ⟨_, _, _⟩ h
    cases h
    rfl
  · simp only [Challenges.memoryFactor, Challenges.powers, foldCells, ofBase_sub, ofBase_add,
      ofBase_mul, ofBase_pow]
    ring

end Challenges

section Ends

variable {F : Type} [ExtensionField F] [LawfulExtension F]

theorem getLast?_product {ρ : Type} (factor : ρ → F) {rows : List ρ} (hne : rows ≠ []) :
    (Witness.product factor rows).getLast? = some (rows.map factor).prod := by
  match rows, hne with
  | r :: rest, _ =>
    have column : scanRows (fun acc _ r' => acc * factor r') (factor r) (r :: rest) ≠ [] := by
      rw [← List.length_pos_iff, length_scanRows]
      simp
    have last := getLastD_scanRows_mul factor (factor r) 0 r rest
    rw [List.getLastD_eq_getLast?, List.getLast?_eq_some_getLast column, Option.getD_some] at last
    rw [Witness.product, List.getLast?_eq_some_getLast column, last, List.map_cons, List.prod_cons]

end Ends

/-- The memory products of the processor and of the memory table end alike at all challenges exactly
when the memory table lists the processor's rows in some order. -/
theorem memoryEnds_eq_iff_perm (F : Type) [ExtensionField F] [LawfulExtension F]
    {processor : List ProcessorRow} {memory : List MemoryRow}
    (hlength : processor.length = memory.length) (hle : memory.length ≤ 2 ^ 30) :
    (∀ ch : Challenges F, (Table.extension ch .processor processor .mpa).getLast? =
      (Table.extension ch .memory memory .ppa).getLast?) ↔
        memory.Perm (processor.map (·.memory)) := by
  by_cases hmemory : memory = []
  · obtain rfl : processor = [] := List.length_eq_zero_iff.mp (by rw [hlength, hmemory]; rfl)
    rw [hmemory]
    exact iff_of_true (fun _ => rfl) (List.Perm.refl _)
  · have hprocessor : processor ≠ [] := by
      rw [← List.length_pos_iff, hlength]
      exact List.length_pos_iff.mpr hmemory
    have ends (ch : Challenges F) :
        (Table.extension ch .processor processor .mpa).getLast? =
            (Table.extension ch .memory memory .ppa).getLast? ↔
          (memory.map ch.memoryFactor).prod =
            ((processor.map (·.memory)).map ch.memoryFactor).prod := by
      have hmpa := getLast?_product (fun row : ProcessorRow => ch.memoryFactor row.memory)
        hprocessor
      have hppa := getLast?_product ch.memoryFactor hmemory
      rw [Table.extension, Table.extension, Witness.processor, Witness.memory, hmpa, hppa,
        List.map_map, Option.some.injEq]
      exact eq_comm
    simp only [ends]
    exact prod_memoryFactor_iff hle (by rw [List.length_map, hlength]; exact hle)

/-- Two rows pass in either order, and do not pass with another value. -/
theorem memoryEnds_eq_of_swapped :
    (∀ ch : Challenges Fp,
      (Table.extension ch .processor [⟨0, 0, 62, 43, 0, 0, 0, 0⟩, ⟨1, 1, 43, 0, 1, 0, 0, 0⟩]
        .mpa).getLast? = (Table.extension ch .memory [⟨1, 1, 0⟩, ⟨0, 0, 0⟩] .ppa).getLast?) ∧
    ¬ ∀ ch : Challenges Fp,
      (Table.extension ch .processor [⟨0, 0, 62, 43, 0, 0, 0, 0⟩, ⟨1, 1, 43, 0, 1, 0, 0, 0⟩]
        .mpa).getLast? = (Table.extension ch .memory [⟨1, 1, 1⟩, ⟨0, 0, 0⟩] .ppa).getLast? :=
  ⟨(memoryEnds_eq_iff_perm Fp rfl (by decide)).mpr (by decide),
    fun h => absurd ((memoryEnds_eq_iff_perm Fp rfl (by decide)).mp h) (by decide)⟩

end TapeStark
