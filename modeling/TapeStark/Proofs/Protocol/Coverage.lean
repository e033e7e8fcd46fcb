import Mathlib
import TapeStark.Proofs.Protocol.Composition

/-! What a composition below the degree bound says about the columns. -/

namespace TapeStark

/-! The constraints of all tables in the order of their weights, and sums over them. -/

namespace Composition

inductive Constraint (F : Type)
  | transition (t : Table) (k : Transition t.Column)
  | point (t : Table) (p : PointConstraint t.Column F)

variable {F : Type} [ExtensionField F] (c : Composition F)

/-- Table by table, the transitions and then the points, as the weights are split. -/
def constraints : List (Constraint F) :=
  Table.all.flatMap fun t =>
    (c.transitions t).map (Constraint.transition t) ++ (c.points t).map (Constraint.point t)

theorem length_constraints : c.constraints.length = c.constraintCount := by
  simp [constraints, constraintCount, Table.total, Table.all, add_assoc]

variable {c} in
theorem eq_numWeights_iff (h : 0 ≤ c.randomizers) {n : Nat} :
    n = c.numWeights.toNat ↔ (n : Int) = c.numWeights := by
  rw [numWeights]
  omega

variable {c} in
theorem transition_mem_constraints {t : Table} {k : Transition t.Column} :
    Constraint.transition t k ∈ c.constraints ↔ k ∈ c.transitions t := by
  simp only [constraints, List.mem_flatMap, List.mem_append, List.mem_map]
  constructor
  · rintro ⟨t', -, ⟨k', hk', h⟩ | ⟨p, -, h⟩⟩
    · cases h
      exact hk'
    · cases h
  · intro hk
    exact ⟨t, t.mem_all, .inl ⟨k, hk, rfl⟩⟩

variable {c} in
theorem point_mem_constraints {t : Table} {p : PointConstraint t.Column F} :
    Constraint.point t p ∈ c.constraints ↔ p ∈ c.points t := by
  simp only [constraints, List.mem_flatMap, List.mem_append, List.mem_map]
  constructor
  · rintro ⟨t', -, ⟨k, -, h⟩ | ⟨p', hp', h⟩⟩
    · cases h
    · cases h
      exact hp'
  · intro hp
    exact ⟨t, t.mem_all, .inr ⟨p, hp, rfl⟩⟩

variable [LawfulExtension F]

/-- A combination of some values and then others, with the weights in one list. -/
theorem sum_zipWith_append {α : Type} (g : F → α → F)
    (ws : List F) (xs ys : List α) :
    (List.zipWith g ws (xs ++ ys)).sum =
      (List.zipWith g (ws.take xs.length) xs).sum + (List.zipWith g (ws.drop xs.length) ys).sum := by
  induction xs generalizing ws with
  | nil => simp
  | cons x xs ih =>
    cases ws with
    | nil => simp
    | cons w ws =>
      rw [List.cons_append, List.zipWith_cons_cons, List.sum_cons, ih, List.length_cons,
        List.take_succ_cons, List.drop_succ_cons, List.zipWith_cons_cons, List.sum_cons, add_assoc]

/-- A sum over the tables, each with its own weights, is one over all constraints with the weights as
they come; the weights that are left are for the rest. -/
theorem sum_takeTables (term : Constraint F → F) (weights rest : List F) :
    (Table.all.map fun t =>
        (List.zipWith (fun w k => w * term (.transition t k))
          ((c.takeTables weights).1.get t).transition (c.transitions t)).sum +
        (List.zipWith (fun w p => w * term (.point t p))
          ((c.takeTables weights).1.get t).point (c.points t)).sum).sum +
      (List.zipWith (· * ·) (c.takeTables weights).2 rest).sum =
    (List.zipWith (· * ·) weights (c.constraints.map term ++ rest)).sum := by
  simp only [constraints, Table.all, List.flatMap_cons, List.flatMap_nil, List.append_nil,
    List.map_append, List.map_map, List.append_assoc, sum_zipWith_append, List.zipWith_map_right,
    List.length_map, List.map_cons, List.map_nil, List.sum_cons, List.sum_nil, add_assoc,
    Function.comp_apply, zero_add]
  rfl

end Composition

/-! What a composition below the degree bound says about columns that need not extend any cells.
Every quotient is below the bound, so a column that a point constraint fixes by itself is a
polynomial of at most the bound's degree; a column that occurs in products only is free. -/

section Coverage

open ExtensionField

section Code

variable {F : Type} [ExtensionField F] [LawfulExtension F]

/-- The functions on the positions of a domain that are the values of a polynomial of degree
below `n`. -/
def Domain.code (F : Type) [ExtensionField F] [LawfulExtension F] (wide : Domain) (n : Nat) :
    Submodule F (Nat → F) where
  carrier := {f | ∃ p : Polynomial F, p.degree < n ∧
    ∀ i < wide.size, f i = p.eval (ofBase (wide.element i))}
  zero_mem' := ⟨0, Polynomial.degree_zero.trans_lt (WithBot.bot_lt_coe n), fun _ _ => by simp⟩
  add_mem' := by
    rintro f g ⟨p, hp, hf⟩ ⟨q, hq, hg⟩
    refine ⟨p + q, (Polynomial.degree_add_le p q).trans_lt (max_lt hp hq), fun i hi => ?_⟩
    rw [Pi.add_apply, Polynomial.eval_add, hf i hi, hg i hi]
  smul_mem' := by
    rintro w f ⟨p, hp, hf⟩
    refine ⟨Polynomial.C w * p, ?_, fun i hi => ?_⟩
    · rw [← Polynomial.mem_degreeLT, ← Polynomial.smul_eq_C_mul]
      exact Submodule.smul_mem _ w (Polynomial.mem_degreeLT.mpr hp)
    · rw [Pi.smul_apply, smul_eq_mul, Polynomial.eval_mul, Polynomial.eval_C, hf i hi]

namespace Domain

variable {wide : Domain} {n : Nat} {f g : Nat → F}

theorem mem_code : f ∈ wide.code F n ↔ ∃ p : Polynomial F, p.degree < n ∧
    ∀ i < wide.size, f i = p.eval (ofBase (wide.element i)) := Iff.rfl

/-- Membership can be computed, by interpolation. -/
theorem mem_code_iff_checkDegree (hoffset : wide.offset ≠ 0) (hn : n ≤ wide.size) :
    f ∈ wide.code F n ↔
      Composition.checkDegree ((List.range wide.size).map f).toArray wide n = .ok () := by
  constructor
  · rintro ⟨p, hp, hf⟩
    have hvalues : (List.range wide.size).map f = Fourier.values p wide :=
      List.map_congr_left fun i hi => hf i (List.mem_range.mp hi)
    rw [hvalues]
    exact (Composition.checkDegree_values_iff hoffset (hp.trans_le (by exact_mod_cast hn))).mpr hp
  · intro h
    have hcount : ((List.range wide.size).map f).toArray.size = wide.size := by simp
    obtain ⟨cs, -, hsize, hvalues⟩ := Fourier.exists_interpolate hcount hoffset
    have hdegree := degree_poly_lt cs.toList
    rw [Array.length_toList, hsize] at hdegree
    have hmap : (List.range wide.size).map f = Fourier.values (poly cs.toList) wide := hvalues.symm
    rw [hmap, Composition.checkDegree_values_iff hoffset hdegree] at h
    refine ⟨poly cs.toList, h, fun i hi => ?_⟩
    rw [← Fourier.getD_values _ _ hi 0, hvalues]
    simp [hi]

/-- A function whose difference to `v` has a quotient by a linear factor has one degree more. -/
theorem mem_code_succ {z : F} (v : F) (hz : ∀ i < wide.size, (ofBase (wide.element i) : F) - z ≠ 0)
    (h : (fun i => (f i - v) * (ofBase (wide.element i) - z)⁻¹) ∈ wide.code F n) :
    f ∈ wide.code F (n + 1) := by
  obtain ⟨q, hq, hvalue⟩ := h
  refine ⟨q * (Polynomial.X - Polynomial.C z) + Polynomial.C v, ?_, fun i hi => ?_⟩
  · refine (Polynomial.degree_add_le _ _).trans_lt (max_lt ?_ ?_)
    · rw [Polynomial.degree_mul, Polynomial.degree_X_sub_C]
      by_cases hzero : q = 0
      · rw [hzero, Polynomial.degree_zero, WithBot.bot_add]
        exact WithBot.bot_lt_coe _
      · rw [Polynomial.degree_eq_natDegree hzero] at hq ⊢
        exact_mod_cast Nat.succ_lt_succ (by exact_mod_cast hq)
    · exact Polynomial.degree_C_le.trans_lt (by exact_mod_cast n.succ_pos)
  · have := hvalue i hi
    rw [mul_inv_eq_iff_eq_mul₀ (hz i hi)] at this
    simp only [Polynomial.eval_add, Polynomial.eval_mul, Polynomial.eval_sub, Polynomial.eval_X,
      Polynomial.eval_C, ← this, sub_add_cancel]

end Domain

/-- Beside others that lie in a subspace, all combinations of some vectors lie in it exactly if each
of these does. -/
theorem combinations_mem_iff {V : Type} [AddCommGroup V] [Module F V] (S : Submodule F V) {n : Nat}
    {vs rest : List V} (hn : vs.length ≤ n) (hrest : ∀ v ∈ rest, v ∈ S) :
    (∀ ws : List F, ws.length = n → (List.zipWith (· • ·) ws (vs ++ rest)).sum ∈ S) ↔
      ∀ v ∈ vs, v ∈ S := by
  constructor
  · intro h
    induction vs generalizing n with
    | nil => exact fun v hv => absurd hv List.not_mem_nil
    | cons v vs ih =>
      obtain ⟨m, rfl⟩ : ∃ m, n = m + 1 := ⟨n - 1, by simp at hn; omega⟩
      refine List.forall_mem_cons.mpr ⟨?_, ih (Nat.le_of_succ_le_succ hn) fun ws hws => ?_⟩
      · have hzero : (List.zipWith (· • ·) (List.replicate m (0 : F)) (vs ++ rest)).sum = 0 := by
          refine List.sum_eq_zero fun x hx => ?_
          obtain ⟨i, hi, rfl⟩ := List.getElem_of_mem hx
          rw [List.getElem_zipWith, List.getElem_replicate, zero_smul]
        have := h (1 :: List.replicate m 0) (by simp)
        rwa [List.cons_append, List.zipWith_cons_cons, List.sum_cons, hzero, one_smul,
          add_zero] at this
      · have := h (0 :: ws) (by simp [hws])
        rwa [List.cons_append, List.zipWith_cons_cons, List.sum_cons, zero_smul, zero_add] at this
  · intro h ws _
    refine list_sum_mem fun x hx => ?_
    obtain ⟨i, hi, rfl⟩ := List.getElem_of_mem hx
    rw [List.getElem_zipWith]
    exact S.smul_mem _ (List.forall_mem_append.mpr ⟨h, hrest⟩ _ (List.getElem_mem _))

/-- A combination of functions, position by position. -/
theorem combination_apply (ws : List F) (fs : List (Nat → F)) (i : Nat) :
    (List.zipWith (· • ·) ws fs).sum i = (List.zipWith (· * ·) ws (fs.map (· i))).sum := by
  rw [Pi.list_sum_apply, List.map_zipWith, List.zipWith_map_right]
  rfl

end Code

/-- A function on the positions of a domain for every column: what a prover can commit to, be it
the extension of cells or not. -/
structure Committed (F : Type) where
  base : (t : Table) → t.Base → Nat → Fp
  ext : (t : Table) → t.Ext → Nat → F

namespace Committed

variable {F : Type} [ExtensionField F] (f : Committed F)

def value (t : Table) (i : Nat) : t.Column → F
  | .base c => ofBase (f.base t c i)
  | .ext c => f.ext t c i

/-- What a query of position `i` opens of a table. -/
def opening (heights : Heights) (size i : Nat) (t : Table) : TableOpening t F :=
  ⟨f.value t i, f.value t (Composition.nextPosition i size (heights.get t)).toNat⟩

end Committed

namespace Composition

section Quotients

variable {F : Type} [ExtensionField F] (c : Composition F) (f : Committed F) (wide : Domain)

/-- The test of the verifier at every point, for all weights: the values are those of one
polynomial below the degree bound. -/
def Passes [LawfulExtension F] : Prop :=
  ∀ weights : List F, (weights.length : Int) = c.numWeights →
    ∃ p : Polynomial F, p.degree < c.heights.degreeBound ∧ ∀ i < wide.size,
      c.evaluate (ofBase (wide.element i)) (PerTable.ofFn (f.opening c.heights wide.size i)) []
        weights = .ok (p.eval (ofBase (wide.element i)))

def transitionQuotient {t : Table} (trace : Domain) (k : Transition t.Column) (i : Nat) : F :=
  let o := f.opening c.heights wide.size i t
  let x : F := ofBase (wide.element i)
  k.expr.eval o.current o.next c.challenges *
    ((x - ofBase (trace.element (trace.size - 1))) * (power x trace.size - 1)⁻¹)

def pointQuotient {t : Table} (trace : Domain) (p : PointConstraint t.Column F) (i : Nat) : F :=
  p.eval (f.value t i) * (ofBase (wide.element i) - ofBase (trace.elementAt p.row))⁻¹

def quotient (trace : Table → Domain) (i : Nat) : Constraint F → F
  | .transition t k => c.transitionQuotient f wide (trace t) k i
  | .point t p => pointQuotient f wide (trace t) p i

/-- The quotients of the constraints of all tables, in the order of the weights. -/
def allQuotients (trace : Table → Domain) : List (Nat → F) :=
  Table.all.flatMap fun t => (c.transitions t).map (c.transitionQuotient f wide (trace t)) ++
    (c.points t).map (pointQuotient f wide (trace t))

end Quotients

variable {F : Type} [ExtensionField F] [LawfulExtension F] {c : Composition F} {f : Committed F}
  {wide : Domain} {trace : Table → Domain}

omit [LawfulExtension F] in
theorem allQuotients_eq : c.allQuotients f wide trace =
    c.constraints.map fun s i => c.quotient f wide trace i s := by
  simp only [allQuotients, constraints, List.map_flatMap, List.map_append, List.map_map]
  rfl

/-- The verifier's part of a table is the combination of its quotients, whatever is opened. -/
theorem tableValue_opening {t : Table} {trace : Domain} (hwide : wide.offset = Fp.generator)
    (hone : trace.offset = 1) (hheight : c.heights.get t = trace.size) (weights : TableWeights F)
    (i : Nat) :
    c.tableValue (ofBase (wide.element i)) (f.opening c.heights wide.size i t) weights =
      .ok ((List.zipWith (fun w q => w * q i) weights.transition
          ((c.transitions t).map (c.transitionQuotient f wide trace))).sum +
        (List.zipWith (fun w q => w * q i) weights.point
          ((c.points t).map (pointQuotient f wide trace))).sum) := by
  have hdomain : Domain.subgroup? (c.heights.get t) = .ok trace := by
    rw [hheight, Domain.size_eq, Domain.subgroup?_two_pow trace.logSize_le, ← hone]
  have hquotients := quotients_eq weights
    ((c.transitions t).map fun k => k.expr.eval (f.opening c.heights wide.size i t).current
      (f.opening c.heights wide.size i t).next c.challenges)
    ((c.points t).map fun p => (p.row, p.eval (f.opening c.heights wide.size i t).current))
    (Domain.coset_pow_sub_one_ne_zero (F := F) hwide trace i)
    (fun row => Domain.coset_sub_ne_zero hwide hone i row)
  rw [List.map_map, List.map_map] at hquotients
  rw [tableValue, hdomain, ok_bind]
  refine hquotients.trans (congrArg Except.ok (congrArg₂ (· + ·) ?_ ?_))
  · rw [mul_assoc, ← AddMonoidHom.mulRight_apply, map_list_sum, List.map_zipWith,
      List.zipWith_map_right, List.zipWith_map_right]
    simp only [AddMonoidHom.mulRight_apply, transitionQuotient, TableCode.lastPoint, power_eq_pow,
      mul_assoc]
  · rw [List.map_zip_eq_zipWith, List.zipWith_map_right, List.zipWith_map_right]
    simp only [pointQuotient, mul_assoc]
    rfl

/-- The composition value is the combination of all quotients and then of the randomizers' values,
whatever is opened. -/
theorem evaluate_opening (hwide : wide.offset = Fp.generator) (hone : ∀ t, (trace t).offset = 1)
    (hheights : ∀ t, c.heights.get t = (trace t).size) (hrandomizers : 0 ≤ c.randomizers)
    {weights : List F} (hweights : (weights.length : Int) = c.numWeights) (rest : List F) (i : Nat) :
    c.evaluate (ofBase (wide.element i)) (PerTable.ofFn (f.opening c.heights wide.size i)) rest
        weights =
      .ok (List.zipWith (· * ·) weights
        (c.constraints.map (c.quotient f wide trace i) ++ rest)).sum := by
  have hparts : (Table.all.mapM fun t => c.tableValue (ofBase (wide.element i))
      ((PerTable.ofFn (f.opening c.heights wide.size i)).get t)
      ((c.takeTables weights).1.get t)) = .ok _ :=
    mapM_eq_map fun t _ => by
      rw [PerTable.get_ofFn]
      exact tableValue_opening hwide (hone t) (hheights t) ((c.takeTables weights).1.get t) i
  rw [evaluate, weightsOf_eq hrandomizers hweights, ok_bind, hparts, ok_bind, pure_eq_ok,
    ← List.sum_eq_foldl, List.sum_append, ← sum_takeTables]
  simp only [List.zipWith_map_right]
  rfl

/-- The test passes exactly if every quotient is below the bound by itself. -/
theorem passes_iff (hwide : wide.offset = Fp.generator) (hone : ∀ t, (trace t).offset = 1)
    (hheights : ∀ t, c.heights.get t = (trace t).size) (hrandomizers : 0 ≤ c.randomizers) :
    c.Passes f wide ↔
      ∀ q ∈ c.allQuotients f wide trace, q ∈ wide.code F c.heights.degreeBound := by
  have hlength : (c.allQuotients f wide trace).length ≤ c.numWeights.toNat := by
    rw [allQuotients_eq, List.length_map, length_constraints, numWeights]
    omega
  have hlist (weights : List F) (i : Nat) :
      (List.zipWith (· • ·) weights (c.allQuotients f wide trace)).sum i =
        (List.zipWith (· * ·) weights (c.constraints.map (c.quotient f wide trace i))).sum := by
    rw [combination_apply, allQuotients_eq, List.map_map]
    rfl
  rw [← combinations_mem_iff (wide.code F c.heights.degreeBound) hlength
    (fun q hq => absurd hq List.not_mem_nil), Passes]
  refine forall_congr' fun weights => ?_
  rw [eq_numWeights_iff hrandomizers]
  refine imp_congr_right fun hweights => ?_
  rw [Domain.mem_code]
  simp only [evaluate_opening hwide hone hheights hrandomizers hweights, List.append_nil, hlist,
    Except.ok.injEq]

/-- The columns that the point constraints fix. -/
def fixedColumns : (t : Table) → List t.Column
  | .processor => [.base .clk, .base .ip, .base .ci, .base .mp, .base .mv,
      .ext .ipa, .ext .mpa, .ext .ipo, .ext .opo]
  | .memory => [.base .clk, .base .mp, .base .mv, .ext .ppa]
  | .instruction => [.base .ip, .ext .ppa, .ext .pea]
  | .input | .output => [.ext .eval, .base .value]

omit [ExtensionField F] [LawfulExtension F] in
/-- The domains of the tables, within that of the test. -/
theorem exists_traces {h : Heights} {k program input output : Nat} {expansion : Int}
    (hheights : h = Heights.ofLengths (2 ^ k : Nat) program input output)
    (hwide : Domain.coset? (h.degreeBound * expansion) = .ok wide) :
    wide.offset = Fp.generator ∧
      ∃ trace : Table → Domain, ∀ t, (trace t).offset = 1 ∧ h.get t = (trace t).size := by
  refine ⟨(Domain.ofSize?_eq_ok.mp hwide).2.symm, ?_⟩
  have hpower (t : Table) : ∃ j : Nat, h.get t = (2 ^ j : Nat) := by
    rw [hheights]
    cases t with
    | processor => exact ⟨k, rfl⟩
    | memory => exact ⟨k, rfl⟩
    | instruction => exact (exists_nextPowerOfTwo _).imp fun _ => congrArg Nat.cast
    | input => exact (exists_nextPowerOfTwo _).imp fun _ => congrArg Nat.cast
    | output => exact (exists_nextPowerOfTwo _).imp fun _ => congrArg Nat.cast
  choose j hj using hpower
  have hbound : (h.degreeBound : Int) ≤ wide.size := by
    exact_mod_cast Heights.degreeBound_le_size hwide
  have hle (t : Table) : j t ≤ Fp.twoAdicity := by
    have := (hj t).symm.trans_le ((h.lt_degreeBound t).1.trans hbound)
    exact ((Nat.pow_le_pow_iff_right (Nat.lt_succ_self 1)).mp (by exact_mod_cast this)).trans
      wide.logSize_le
  exact ⟨fun t => ⟨j t, 1, hle t⟩, fun t => ⟨rfl, hj t⟩⟩

/-- The sum that a point constraint is about is a polynomial of at most the bound's degree. -/
theorem sum_mem_of_passes (hwide : wide.offset = Fp.generator) (hone : ∀ t, (trace t).offset = 1)
    (hheights : ∀ t, c.heights.get t = (trace t).size) (hrandomizers : 0 ≤ c.randomizers)
    (hpasses : c.Passes f wide) {t : Table} {p : PointConstraint t.Column F}
    (hp : p ∈ c.points t) : (fun i => (p.terms.map fun term => term.2 * f.value t i term.1).sum) ∈
      wide.code F (c.heights.degreeBound + 1) := by
  have hmem : pointQuotient f wide (trace t) p ∈ c.allQuotients f wide trace :=
    List.mem_flatMap.mpr ⟨t, t.mem_all, List.mem_append_right _ (List.mem_map_of_mem hp)⟩
  refine Domain.mem_code_succ p.value
    (fun i _ => Domain.coset_sub_ne_zero hwide (hone t) i p.row) ?_
  simp only [← p.eval_eq_sum]
  exact (passes_iff hwide hone hheights hrandomizers).mp hpasses _ hmem

section Columns

variable {S : Submodule F (Nat → F)}
  (hsum : ∀ {t : Table} {p : PointConstraint t.Column F}, p ∈ c.points t →
    (fun i => (p.terms.map fun term => term.2 * f.value t i term.1).sum) ∈ S)

include hsum

theorem column_mem {t : Table} {k : t.Column} (h : ∃ p ∈ c.points t, p.terms = [(k, 1)]) :
    (fun i => f.value t i k) ∈ S := by
  obtain ⟨p, hp, hterms⟩ := h
  simpa [hterms] using hsum hp

/-- A stream with a last byte has its evaluation fixed there, and its values from that. -/
theorem stream_mem {t : Table} {eval value : t.Column} {row : Int} {v : F}
    (hend : ⟨"eval_end", row, [(eval, 1)], v⟩ ∈ c.points t)
    (hstart : ⟨"eval_start", 0, [(eval, 1), (value, -1)], 0⟩ ∈ c.points t) :
    ∀ k ∈ [eval, value], (fun i => f.value t i k) ∈ S := by
  have heval : (fun i => f.value t i eval) ∈ S := column_mem hsum ⟨_, hend, rfl⟩
  have hvalue := S.sub_mem heval (hsum hstart)
  have heq : ((fun i => f.value t i eval) - fun i =>
      ([(eval, (1 : F)), (value, -1)].map fun term => term.2 * f.value t i term.1).sum) =
      fun i => f.value t i value := by
    funext i
    simp
  rw [heq] at hvalue
  simpa using ⟨heval, hvalue⟩

theorem fixedColumns_mem (hinput : 1 < c.heights.input → c.inputLength ≠ 0)
    (houtput : 1 < c.heights.output → c.outputLength ≠ 0) (t : Table)
    (hrows : 1 < c.heights.get t) : ∀ k ∈ fixedColumns t, (fun i => f.value t i k) ∈ S := by
  cases t with
  | processor =>
    simp only [fixedColumns, List.forall_mem_cons]
    refine ⟨?_, ?_, ?_, ?_, ?_, ?_, ?_, ?_, ?_, fun _ h => absurd h List.not_mem_nil⟩
    all_goals exact column_mem hsum (by simp [points, Table.points, Table.boundary, Table.terminal,
      Air.Processor.boundary, Air.Processor.terminal])
  | memory =>
    simp only [fixedColumns, List.forall_mem_cons]
    refine ⟨?_, ?_, ?_, ?_, fun _ h => absurd h List.not_mem_nil⟩
    all_goals exact column_mem hsum (by simp [points, Table.points, Table.boundary, Table.terminal,
      Air.Memory.boundary, Air.Memory.terminal])
  | instruction =>
    simp only [fixedColumns, List.forall_mem_cons]
    refine ⟨?_, ?_, ?_, fun _ h => absurd h List.not_mem_nil⟩
    all_goals exact column_mem hsum (by simp [points, Table.points, Table.boundary, Table.terminal,
      Air.Instruction.boundary, Air.Instruction.terminal])
  | input =>
    have hend : Air.Stream.terminal c.terminals.inputEvaluation c.inputLength = [_] :=
      if_neg (Int.natCast_ne_zero.mpr (hinput hrows))
    exact stream_mem hsum (List.mem_append_right _ (hend ▸ List.mem_singleton_self _))
      (List.mem_append_left _ (List.mem_singleton_self _))
  | output =>
    have hend : Air.Stream.terminal c.terminals.outputEvaluation c.outputLength = [_] :=
      if_neg (Int.natCast_ne_zero.mpr (houtput hrows))
    exact stream_mem hsum (List.mem_append_right _ (hend ▸ List.mem_singleton_self _))
      (List.mem_append_left _ (List.mem_singleton_self _))

/-- The start of the instruction product fixes the next word of the processor, weighted. -/
theorem processor_words_mem
    (hfixed : ∀ k ∈ fixedColumns .processor, (fun i => f.value .processor i k) ∈ S) :
    (fun i => c.challenges.c * f.value .processor i (.base .ni)) ∈ S := by
  have hstart : ⟨"ipa_start", 0, [(.ext .ipa, 1), (.base .ip, c.challenges.a),
      (.base .ci, c.challenges.b), (.base .ni, c.challenges.c)], c.challenges.alpha⟩ ∈
      c.points .processor := by
    simp [points, Table.points, Table.boundary, Air.Processor.boundary]
  have hipa := hfixed (.ext .ipa) (by simp [fixedColumns])
  have hip := S.smul_mem c.challenges.a (hfixed (.base .ip) (by simp [fixedColumns]))
  have hci := S.smul_mem c.challenges.b (hfixed (.base .ci) (by simp [fixedColumns]))
  convert S.sub_mem (S.sub_mem (S.sub_mem (hsum hstart) hipa) hip) hci using 1
  funext i
  simp only [Pi.sub_apply, Pi.smul_apply, smul_eq_mul, List.map_cons, List.map_nil, List.sum_cons,
    List.sum_nil]
  ring

/-- The start of the program's evaluation fixes the two words of the instruction table together. -/
theorem instruction_words_mem
    (hfixed : ∀ k ∈ fixedColumns .instruction, (fun i => f.value .instruction i k) ∈ S) :
    (fun i => c.challenges.b * f.value .instruction i (.base .ci) +
      c.challenges.c * f.value .instruction i (.base .ni)) ∈ S := by
  have hstart : ⟨"pea_start", 0, [(.ext .pea, 1), (.base .ip, -c.challenges.a),
      (.base .ci, -c.challenges.b), (.base .ni, -c.challenges.c)], 0⟩ ∈ c.points .instruction := by
    simp [points, Table.points, Table.boundary, Air.Instruction.boundary]
  have hpea := hfixed (.ext .pea) (by simp [fixedColumns])
  have hip := S.smul_mem c.challenges.a (hfixed (.base .ip) (by simp [fixedColumns]))
  convert S.sub_mem (S.sub_mem hpea hip) (hsum hstart) using 1
  funext i
  simp only [Pi.sub_apply, Pi.smul_apply, smul_eq_mul, List.map_cons, List.map_nil, List.sum_cons,
    List.sum_nil]
  ring

end Columns

/-- Where the composition passes, the columns that point constraints fix, and what these fix of
the words, are polynomials of at most the bound's degree. -/
theorem columns_of_passes {k program : Nat} {expansion : Int}
    (hheights : c.heights = Heights.ofLengths (2 ^ k : Nat) program c.inputLength c.outputLength)
    (hrandomizers : 0 ≤ c.randomizers)
    (hwide : Domain.coset? (c.heights.degreeBound * expansion) = .ok wide)
    (hpasses : c.Passes f wide) :
    (∀ t, 1 < c.heights.get t → ∀ k ∈ fixedColumns t,
      (fun i => f.value t i k) ∈ wide.code F (c.heights.degreeBound + 1)) ∧
    (1 < c.heights.processor → (fun i => c.challenges.c * f.value .processor i (.base .ni)) ∈
      wide.code F (c.heights.degreeBound + 1)) ∧
    (1 < c.heights.instruction → (fun i => c.challenges.b * f.value .instruction i (.base .ci) +
        c.challenges.c * f.value .instruction i (.base .ni)) ∈
      wide.code F (c.heights.degreeBound + 1)) := by
  obtain ⟨hoffset, trace, htrace⟩ := exists_traces hheights hwide
  have hsum {t : Table} {p : PointConstraint t.Column F} (hp : p ∈ c.points t) :=
    sum_mem_of_passes hoffset (fun t => (htrace t).1) (fun t => (htrace t).2) hrandomizers hpasses hp
  have hrows {length : Nat} (h : 1 < (nextPowerOfTwo (max (length : Int) 1) : Int)) :
      length ≠ 0 := by
    rintro rfl
    exact absurd h (by decide)
  have hfixed := fixedColumns_mem hsum (fun h => hrows (by rwa [hheights] at h))
    (fun h => hrows (by rwa [hheights] at h))
  refine ⟨hfixed, fun h => ?_, fun h => ?_⟩
  · exact processor_words_mem hsum (hfixed .processor h)
  · exact instruction_words_mem hsum (hfixed .instruction h)

end Composition

/-! Columns that pass although most of them are no polynomials below the bound: for the empty
program, whose bound is 8, over 16 points. -/

namespace Skewed

def wide : Domain := ⟨4, Fp.generator, by decide⟩

/-- Zero on every row, and of degree 8. -/
def onRows (i : Nat) : Fp := power (wide.element i) 8 - 1

def cell (i : Nat) : Fp := power (wide.element i) 2 - 1

/-- What a flag is turned by at the first position: these sum to zero, as they do when they are
weighted with the codes. -/
def turn : Instruction → Int
  | .closing => 3
  | .op .read => 106
  | .op .write => -114
  | _ => 1

/-- A linear polynomial that is zero on the first row, but at the first position one less it. -/
def flag (j : Instruction) (i : Nat) : Fp :=
  let slope := Fp.ofInt (1 + turn j) * (Fp.ofNat 2 * (wide.element 0 - 1))⁻¹
  if i = 0 then 1 - slope * (wide.element i - 1) else slope * (wide.element i - 1)

/-- Zero but for the first position, where it makes up for the turned flags. -/
def nextWord (i : Nat) : Fp :=
  if i = 0 then (Fp.ofNat 4 - Fp.ofNat 2 * cell i) * (cell i)⁻¹ else 0

def columns : Committed Fp where
  base
    | .processor, .clk, i => (1 - wide.element i) * (Fp.ofNat 2)⁻¹ + onRows i
    | .processor, .ip, _ => 0
    | .processor, .ci, i | .processor, .mp, i => onRows i
    | .processor, .ni, i => nextWord i
    | .processor, .mv, i => cell i
    | .processor, .inv, i => (cell i)⁻¹
    | .processor, .flag j, i => flag j i
    | .memory, _, i => onRows i
    | .instruction, .ip, i => onRows i
    | .instruction, _, i => if i % 4 = 0 then 1 else 0
    | .input, _, _ | .output, _, _ => 0
  ext
    | .processor, .ipa, i | .processor, .mpa, i => 1 + onRows i
    | .processor, .ipo, i | .processor, .opo, i => cell i
    | .memory, _, i => 1 + onRows i
    | .instruction, .ppa, i => 1 + onRows i
    | .instruction, .pea, i => onRows i
    | .input, _, _ | .output, _, _ => 0

def challenges : Challenges Fp := ⟨0, 0, 0, 0, 0, 0, 1, 1, 0, 0, 0⟩

def composition : Composition Fp := ⟨Heights.ofLengths 2 0 0 0, 0, 0, challenges, ⟨1, 1, 0, 0, 0⟩, 0⟩

def trace : Table → Domain
  | .processor | .memory => ⟨1, 1, by decide⟩
  | .instruction => ⟨2, 1, by decide⟩
  | .input | .output => ⟨0, 1, by decide⟩

theorem mem_code_iff {f : Nat → Fp} : f ∈ wide.code Fp 8 ↔
    Composition.checkDegree ((List.range wide.size).map f).toArray wide 8 = .ok () :=
  Domain.mem_code_iff_checkDegree (by decide) (by decide)

theorem composition_eq : Composition.of challenges ⟨#[], ByteArray.empty, ByteArray.empty⟩
    (Heights.ofLengths 2 0 0 0) 1 1 0 = .ok composition := by
  rfl

theorem coset_eq : Domain.coset? (composition.heights.degreeBound * 2) = .ok wide :=
  Domain.ofSize?_eq_ok.mpr ⟨by decide +kernel, rfl⟩

theorem passes : composition.Passes columns wide := by
  have hone (t : Table) : (trace t).offset = 1 := by cases t <;> rfl
  have hheights (t : Table) : composition.heights.get t = (trace t).size := by cases t <;> decide
  refine (Composition.passes_iff rfl hone hheights (by decide)).mpr fun q hq =>
    mem_code_iff.mpr ?_
  have : ∀ q ∈ composition.allQuotients columns wide trace,
      Composition.checkDegree ((List.range wide.size).map q).toArray wide 8 = .ok () := by
    decide +kernel
  exact this q hq

end Skewed

namespace Composition

theorem columns_of_skewed :
    Skewed.composition.heights = Heights.ofLengths (2 ^ 1 : Nat) (0 : Nat) (0 : Nat) (0 : Nat) ∧
    0 ≤ Skewed.composition.randomizers ∧
    Domain.coset? (Skewed.composition.heights.degreeBound * 2) = .ok Skewed.wide ∧
    Skewed.composition.Passes Skewed.columns Skewed.wide ∧
    (fun i => Skewed.columns.value .processor i (.base .clk)) ∈
      Skewed.wide.code Fp (Skewed.composition.heights.degreeBound + 1) :=
  ⟨rfl, le_rfl, Skewed.coset_eq, Skewed.passes,
    (columns_of_passes (k := 1) (f := Skewed.columns) rfl le_rfl Skewed.coset_eq Skewed.passes).1
      .processor (by decide) (.base .clk) (List.mem_cons_self ..)⟩

/-- The bound's degree is reached by columns that are fixed, and the other columns need be no
polynomials below the bound. -/
theorem exists_uncovered_columns : ∃ (c : Composition Fp) (wide : Domain) (f : Committed Fp),
    of Skewed.challenges ⟨#[], ByteArray.empty, ByteArray.empty⟩ (Heights.ofLengths 2 0 0 0) 1 1 0 =
      .ok c ∧
    Domain.coset? (c.heights.degreeBound * 2) = .ok wide ∧ c.Passes f wide ∧
    (∀ k ∈ ([.base .clk, .base .ci, .base .ni, .base .mp, .base .inv, .ext .ipa, .ext .mpa] ++
        Instruction.all.map fun j => .base (.flag j) : List Table.processor.Column),
      (fun i => f.value .processor i k) ∉ wide.code Fp c.heights.degreeBound) ∧
    (∀ k ∈ (ColumnSet.all : List Table.memory.Column),
      (fun i => f.value .memory i k) ∉ wide.code Fp c.heights.degreeBound) ∧
    (∀ k ∈ (ColumnSet.all : List Table.instruction.Column),
      (fun i => f.value .instruction i k) ∉ wide.code Fp c.heights.degreeBound) := by
  refine ⟨Skewed.composition, Skewed.wide, Skewed.columns, Skewed.composition_eq, Skewed.coset_eq,
    Skewed.passes, ?_⟩
  have hbound : Skewed.composition.heights.degreeBound = 8 := by decide +kernel
  simp only [hbound, Skewed.mem_code_iff]
  decide +kernel

end Composition

end Coverage

end TapeStark
