import Mathlib
import TapeStark.Proofs.Polynomial
import TapeStark.Proofs.Protocol.EvenOdd
import TapeStark.Proofs.Stream.Action

/-!
Division by a linear factor into a target in place. The pass goes down from the highest coefficient,
and its remainder is what the coefficients above divide to; so each slot gets its own coefficient of the
quotient. Divisions into one target add up, in whatever order they are made.
-/

namespace TapeStark

open ExtensionField

/-- A division whose operands are in one field. -/
structure Division (F : Type) where
  source : Array F
  root : F
  factor : F

namespace Division

section Pass

variable {F : Type} [ExtensionField F] (k : Division F)

def quotient : List F := Polynomial.quotient k.source.toList k.root

/-- The remainder with the coefficients from `i` on divided. -/
def remainder (i : Nat) : F := (Polynomial.divide (k.source.toList.drop i) k.root).1

/-- The pass over the slots below `i`, in place: each one is written before the remainder moves on. -/
def pass : (i : Nat) → (remainder : F) → (target : Array F) → Array F
  | 0, _, target => target
  | i + 1, remainder, target =>
    pass i (remainder * k.root + k.source.getD i 0) (target.modify i (· + remainder * k.factor))

theorem remainder_of_lt {i : Nat} (hi : i < k.source.size) :
    k.remainder i = k.remainder (i + 1) * k.root + k.source.getD i 0 := by
  rw [remainder, List.drop_eq_getElem_cons (by rwa [Array.length_toList])]
  have hsource : k.source.getD i 0 = k.source[i] := by simp [hi]
  rw [hsource]
  rfl

theorem remainder_size : k.remainder k.source.size = 0 := by
  rw [remainder, List.drop_eq_nil_of_le (by rw [Array.length_toList])]
  rfl

/-- A coefficient of the quotient is the remainder of the coefficients above. -/
theorem getElem?_quotient {i : Nat} (hi : i < k.source.size) :
    k.quotient[i]? = some (k.remainder (i + 1)) := by
  have general (cs : List F) {i : Nat} (hi : i < cs.length) :
      (Polynomial.quotient cs k.root)[i]? =
        some (Polynomial.divide (cs.drop (i + 1)) k.root).1 := by
    induction cs generalizing i with
    | nil => simp at hi
    | cons c cs ih =>
      cases i with
      | zero => rfl
      | succ i => exact ih (by simpa using hi)
  exact general _ (by rwa [Array.length_toList])

@[simp] theorem size_pass (i : Nat) (remainder : F) (target : Array F) :
    (k.pass i remainder target).size = target.size := by
  induction i generalizing remainder target with
  | zero => rfl
  | succ i ih => rw [pass, ih, Array.size_modify]

/-- The slots below are changed by their coefficients, the others are kept. -/
theorem getElem?_pass {i : Nat} (hi : i ≤ k.source.size) (target : Array F) (j : Nat) :
    (k.pass i (k.remainder i) target)[j]? =
      if j < i then target[j]?.map (· + k.remainder (j + 1) * k.factor) else target[j]? := by
  induction i generalizing target with
  | zero => rfl
  | succ i ih =>
    -- Slot `i` gets the remainder from before this step, so the invariant is about the one after it.
    rw [pass, ← k.remainder_of_lt hi, ih (by omega), Array.getElem?_modify]
    rcases Nat.lt_trichotomy j i with hlt | rfl | hgt
    · rw [if_pos hlt, if_neg (by omega), if_pos (by omega)]
    · rw [if_neg (by omega), if_pos rfl, if_pos (by omega)]
    · rw [if_neg (by omega), if_neg (by omega), if_neg (by omega)]

/-- The whole pass, with nothing left over at first. -/
def addTo (target : Array F) : Array F := k.pass k.source.size 0 target

variable {k} {target : Array F}

theorem getElem?_addTo (h : target.size = k.source.size) (i : Nat) :
    (k.addTo target)[i]? = target[i]?.map (· + k.quotient.getD i 0 * k.factor) := by
  rw [addTo, ← k.remainder_size, k.getElem?_pass le_rfl]
  rcases Nat.lt_or_ge i k.source.size with hi | hi
  · rw [if_pos hi, List.getD_eq_getElem?_getD, k.getElem?_quotient hi, Option.getD_some]
  · rw [if_neg (by omega), Array.getElem?_eq_none (by omega), Option.map_none]

theorem divideOutInto_eq (h : target.size = k.source.size) :
    Polynomial.divideOutInto target k.source k.root k.factor = .ok (k.addTo target) := by
  rw [Polynomial.divideOutInto, if_pos h]
  refine congrArg Except.ok (Array.ext_getElem? fun i => ?_)
  rw [getElem?_addTo h, List.getElem?_toArray, List.getElem?_zipWith, Array.getElem?_toList]
  rcases Nat.lt_or_ge i target.size with hi | hi
  · have hq : (Polynomial.quotient k.source.toList k.root)[i]? = some (k.remainder (i + 1)) :=
      k.getElem?_quotient (h ▸ hi)
    rw [List.getD_eq_getElem?_getD, k.getElem?_quotient (h ▸ hi), hq, Array.getElem?_eq_getElem hi]
    rfl
  · rw [Array.getElem?_eq_none hi, Option.map_none]

theorem size_foldl_addTo (ks : List (Division F)) (target : Array F) :
    (ks.foldl (fun t k => k.addTo t) target).size = target.size := by
  induction ks generalizing target with
  | nil => rfl
  | cons k ks ih => rw [List.foldl_cons, ih, addTo, size_pass]

end Pass

section Lawful

variable {F : Type} [ExtensionField F] [LawfulExtension F] (k : Division F)

/-- The quotient has as many coefficients as the source, the last one zero, and it is exact but for the
value at the root. -/
structure Exact (n : Nat) : Prop where
  length : k.quotient.length = n
  last : ∀ q ∈ k.quotient.getLast?, q = 0
  mul_add : (Polynomial.X - Polynomial.C k.root) * poly k.quotient +
    Polynomial.C (Polynomial.eval k.source k.root) = poly k.source.toList

theorem exact_quotient : k.Exact k.source.size := by
  constructor
  case length => exact length_quotient _ _
  case last =>
    intro q hq
    have hlength : k.quotient.length = k.source.size := length_quotient _ _
    rw [List.getLast?_eq_getElem?, Option.mem_def, hlength] at hq
    have hsome : k.source.size - 1 < k.source.size := by
      have := List.getElem?_eq_some_iff.mp hq |>.1
      omega
    rw [k.getElem?_quotient hsome, Nat.sub_add_cancel (by omega), k.remainder_size] at hq
    exact (Option.some.inj hq).symm
  case mul_add =>
    rw [eval_eq, quotient, mul_poly_quotient]
    ring

/-- What a list of divisions adds to a slot. -/
def shares (ks : List (Division F)) (i : Nat) : F :=
  (ks.map fun k => k.factor * k.quotient.getD i 0).sum

theorem getElem?_foldl_addTo {ks : List (Division F)} {target : Array F}
    (h : ∀ k ∈ ks, target.size = k.source.size) (i : Nat) :
    (ks.foldl (fun t k => k.addTo t) target)[i]? = target[i]?.map (· + shares ks i) := by
  induction ks generalizing target with
  | nil => simp [shares]
  | cons k ks ih =>
    have hrest : ∀ k' ∈ ks, (k.addTo target).size = k'.source.size := by
      intro k' hk'
      rw [addTo, size_pass]
      exact h k' (List.mem_cons_of_mem _ hk')
    rw [List.foldl_cons, ih hrest, getElem?_addTo (h k List.mem_cons_self), Option.map_map]
    congr 1
    funext t
    rw [Function.comp_apply, shares, shares, List.map_cons, List.sum_cons, mul_comm k.factor,
      add_assoc]

end Lawful

end Division

/-- A field that lies inside takes no part in the choice of the larger one. -/
theorem Element.exists_promote {a : Element} {d : Degree} (h : a.degree.max d = d) :
    ∃ b, a.promote d = .ok b := by
  obtain ⟨e, a⟩ := a
  cases e with
  | one => exact ⟨_, rfl⟩
  | three =>
    obtain rfl : Degree.three = d := h
    exact ⟨_, rfl⟩

theorem ElementArray.exists_promote {as : ElementArray} {d : Degree} (h : as.degree.max d = d) :
    ∃ bs, as.promote d = .ok bs := by
  obtain ⟨e, as⟩ := as
  cases e with
  | one => exact ⟨_, rfl⟩
  | three =>
    obtain rfl : Degree.three = d := h
    exact ⟨_, rfl⟩

/-- The operands of a division, each in a field of its own. -/
structure DivisionCall where
  source : ElementArray
  root : Element
  factor : Element

structure DivisionCall.FitsIn (call : DivisionCall) (d : Degree) : Prop where
  source : call.source.degree.max d = d
  root : call.root.degree.max d = d
  factor : call.factor.degree.max d = d

namespace DivisionCall

def carry (call : DivisionCall) (d : Degree) : Except Error (Division d.Carrier) := do
  let source ← call.source.promote d
  let root ← call.root.promote d
  let factor ← call.factor.promote d
  return ⟨source, root, factor⟩

def run (call : DivisionCall) : ExceptT Error (StateM ElementArray) Unit := do
  let target ← get
  if target.values.size ≠ call.source.values.size then
    throw (.length (.quotient target.values.size call.source.values.size))
  let k ← call.carry target.degree
  set (⟨target.degree, k.addTo target.values⟩ : ElementArray)

variable {call : DivisionCall} {d : Degree}

theorem exists_carry (h : call.FitsIn d) :
    ∃ k, call.carry d = .ok k ∧ k.source.size = call.source.values.size := by
  obtain ⟨source, hsource⟩ := ElementArray.exists_promote h.source
  obtain ⟨root, hroot⟩ := Element.exists_promote h.root
  obtain ⟨factor, hfactor⟩ := Element.exists_promote h.factor
  refine ⟨⟨source, root, factor⟩, ?_, (ElementArray.degree_of_promote hsource).1⟩
  rw [carry, hsource, ok_bind, hroot, ok_bind, hfactor]
  rfl

theorem divideOutInto_eq {target : ElementArray}
    (hsize : target.values.size = call.source.values.size) :
    target.divideOutInto call.source call.root call.factor =
      (call.carry target.degree).map fun k => ⟨target.degree, k.addTo target.values⟩ := by
  rw [ElementArray.divideOutInto, if_neg (not_not.mpr hsize), carry]
  cases hsource : call.source.promote target.degree with
  | error err => rfl
  | ok source =>
    have hsame : target.values.size = source.size := by
      rw [hsize, (ElementArray.degree_of_promote hsource).1]
    cases hroot : call.root.promote target.degree with
    | error err => rfl
    | ok root =>
      cases hfactor : call.factor.promote target.degree with
      | error err => rfl
      | ok factor =>
        have hdivide := Division.divideOutInto_eq (k := ⟨source, root, factor⟩) hsame
        change (Polynomial.divideOutInto target.values source root factor >>= _) = _
        rw [hdivide]
        rfl

/-- A division in place is a division; where that fails, the target stays as it is. -/
theorem run_eq (call : DivisionCall) (target : ElementArray) : call.run target =
    match target.divideOutInto call.source call.root call.factor with
    | .ok sum => (.ok (), sum)
    | .error err => (.error err, target) := by
  rw [run, bind_of_ok (get_apply _)]
  by_cases hsize : target.values.size = call.source.values.size
  · rw [if_neg (not_not.mpr hsize), divideOutInto_eq hsize]
    change (liftM (call.carry target.degree) >>= _ : ExceptT Error (StateM ElementArray) Unit) _ = _
    cases hcarry : call.carry target.degree with
    | error err => rfl
    | ok k => rfl
  · rw [ElementArray.divideOutInto, if_pos hsize, if_pos hsize]
    rfl

theorem run_of_carry {k : Division d.Carrier} {target : Array d.Carrier}
    (hsize : target.size = call.source.values.size) (hcarry : call.carry d = .ok k) :
    call.run ⟨d, target⟩ = (.ok (), ⟨d, k.addTo target⟩) := by
  rw [run, bind_of_ok (get_apply _), if_neg (not_not.mpr hsize)]
  change (liftM (call.carry d) >>= _ : ExceptT Error (StateM ElementArray) Unit) _ = _
  rw [hcarry]
  rfl

theorem run_of_size_ne {target : Array d.Carrier}
    (hsize : target.size ≠ call.source.values.size) : call.run ⟨d, target⟩ =
      (.error (.length (.quotient target.size call.source.values.size)), ⟨d, target⟩) := by
  rw [run, bind_of_ok (get_apply _), if_pos hsize]
  rfl

end DivisionCall

def runDivisions (calls : List DivisionCall) : ExceptT Error (StateM ElementArray) Unit :=
  calls.forM DivisionCall.run

/-- The call is one on `n` coefficients, with the operands of `k` in its own fields. -/
structure DivisionCall.Carries (call : DivisionCall) (d : Degree) (n : Nat)
    (k : Division d.Carrier) : Prop where
  carry : call.carry d = .ok k
  call_size : call.source.values.size = n
  size : k.source.size = n

section Runs

variable {d : Degree} {target : Array d.Carrier} {calls : List DivisionCall}
  {ks : List (Division d.Carrier)}

theorem runDivisions_eq (h : List.Forall₂ (DivisionCall.Carries · d target.size) calls ks) :
    runDivisions calls ⟨d, target⟩ = (.ok (), ⟨d, ks.foldl (fun t k => k.addTo t) target⟩) := by
  generalize hn : target.size = n at h
  induction h generalizing target with
  | nil => rfl
  | @cons call k calls ks hfirst _ ih =>
    have hrun := DivisionCall.run_of_carry (hn.trans hfirst.call_size.symm) hfirst.carry
    have hsize : (k.addTo target).size = n := by rw [Division.addTo, Division.size_pass, hn]
    exact (bind_of_ok hrun).trans (ih hsize)

theorem exists_carries {n : Nat}
    (h : ∀ call ∈ calls, call.FitsIn d ∧ call.source.values.size = n) :
    ∃ ks, List.Forall₂ (DivisionCall.Carries · d n) calls ks := by
  induction calls with
  | nil => exact ⟨[], .nil⟩
  | cons call calls ih =>
    obtain ⟨hfits, hsize⟩ := h call List.mem_cons_self
    obtain ⟨k, hcarry, hsame⟩ := DivisionCall.exists_carry hfits
    obtain ⟨ks, hks⟩ := ih fun call hcall => h call (List.mem_cons_of_mem _ hcall)
    exact ⟨k :: ks, .cons ⟨hcarry, hsize, hsame.trans hsize⟩ hks⟩

theorem sizes_of_carries {n : Nat} (h : List.Forall₂ (DivisionCall.Carries · d n) calls ks) :
    ∀ k ∈ ks, n = k.source.size := by
  induction h with
  | nil => simp
  | cons hfirst _ ih =>
    rintro k (_ | ⟨_, hk⟩)
    · exact hfirst.size.symm
    · exact ih k hk

/-- The last slot gets nothing. -/
theorem Division.shares_last {n : Nat} (h : ∀ k ∈ ks, n = k.source.size) : shares ks (n - 1) = 0 := by
  have hlast (k : Division d.Carrier) (hk : k ∈ ks) : k.quotient.getD (n - 1) 0 = 0 := by
    have hexact := k.exact_quotient
    rw [← h k hk] at hexact
    rw [List.getD_eq_getElem?_getD]
    cases hq : k.quotient[n - 1]? with
    | none => rfl
    | some q =>
      refine hexact.last q ?_
      rw [List.getLast?_eq_getElem?, hexact.length, hq]
      rfl
  refine List.sum_eq_zero fun share hshare => ?_
  obtain ⟨k, hk, rfl⟩ := List.mem_map.mp hshare
  rw [hlast k hk, mul_zero]

/-- Divisions into one target, all of its length and of fields inside its own, add the multiples of
their quotients to it in whatever order they are made, and keep its last coefficient; one of another
length is refused and keeps it all. -/
theorem runDivisions_any_order (d : Degree) (target : Array d.Carrier) :
    (∀ calls : List DivisionCall,
      (∀ call ∈ calls, call.FitsIn d ∧ call.source.values.size = target.size) →
      ∃ (ks : List (Division d.Carrier)) (result : Array d.Carrier),
        List.Forall₂ (fun call k => call.carry d = .ok k ∧ k.Exact target.size) calls ks ∧
        (∀ order, order.Perm calls → runDivisions order ⟨d, target⟩ = (.ok (), ⟨d, result⟩)) ∧
        (∀ i : Nat, result[i]? = target[i]?.map (· + Division.shares ks i)) ∧
        result.back? = target.back?) ∧
    (∀ call : DivisionCall, target.size ≠ call.source.values.size → call.run ⟨d, target⟩ =
      (.error (.length (.quotient target.size call.source.values.size)), ⟨d, target⟩)) := by
  refine ⟨fun calls hfits => ?_, fun call hsize => DivisionCall.run_of_size_ne hsize⟩
  obtain ⟨ks, hks⟩ := exists_carries hfits
  have hslot (order : List (Division d.Carrier)) (horder : order.Perm ks) (i : Nat) :
      (order.foldl (fun t k => k.addTo t) target)[i]? =
        target[i]?.map (· + Division.shares ks i) := by
    have hsizes : ∀ k ∈ order, target.size = k.source.size := fun k hk =>
      sizes_of_carries hks k (horder.mem_iff.mp hk)
    rw [Division.getElem?_foldl_addTo hsizes, Division.shares, (horder.map _).sum_eq]
    rfl
  refine ⟨ks, ks.foldl (fun t k => k.addTo t) target, ?_, fun order horder => ?_, hslot ks (.refl ks), ?_⟩
  · refine hks.imp fun call k hcarries => ⟨hcarries.carry, ?_⟩
    have hexact := k.exact_quotient
    rwa [hcarries.size] at hexact
  · -- Another order of the calls carries the same divisions, in another order too.
    obtain ⟨ks', hks', hperm⟩ := List.perm_comp_forall₂ horder hks
    rw [runDivisions_eq hks']
    congr 2
    exact Array.ext_getElem? fun i => by rw [hslot ks' hperm, hslot ks (.refl ks)]
  · rw [Array.back?_eq_getElem?, Array.back?_eq_getElem?, Division.size_foldl_addTo,
      hslot ks (.refl ks), Division.shares_last (sizes_of_carries hks)]
    simp

theorem runDivisions_into_cubic :
    let base : DivisionCall := ⟨⟨.one, (#[1, 2, 3] : Array Fp)⟩, .ofBase 4, .ofBase 5⟩
    let cubic : DivisionCall :=
      ⟨⟨.three, (#[0, 1, 1] : Array Fp3)⟩, ⟨.three, (⟨0, 1, 0⟩ : Fp3)⟩, .ofBase 2⟩
    let target : ElementArray := ⟨.three, (#[1, 1, 7] : Array Fp3)⟩
    (∃ result : Array Fp3, runDivisions [base, cubic] target = (.ok (), ⟨.three, result⟩) ∧
      runDivisions [cubic, base] target = (.ok (), ⟨.three, result⟩) ∧ result.back? = some 7) ∧
    base.run ⟨.three, (#[1] : Array Fp3)⟩ =
      (.error (.length (.quotient 1 3)), ⟨.three, (#[1] : Array Fp3)⟩) := by
  intro base cubic target
  constructor
  · obtain ⟨-, result, -, horder, -, hlast⟩ :=
      (runDivisions_any_order .three (#[1, 1, 7] : Array Fp3)).1 [base, cubic] (by
        rintro call hcall
        rw [List.mem_cons, List.mem_singleton] at hcall
        rcases hcall with rfl | rfl
        · exact ⟨⟨rfl, rfl, rfl⟩, rfl⟩
        · exact ⟨⟨rfl, rfl, rfl⟩, rfl⟩)
    exact ⟨result, horder _ (.refl _), horder _ (.swap _ _ _), hlast⟩
  · exact (runDivisions_any_order .three (#[1] : Array Fp3)).2 base (by decide)

end Runs

end TapeStark
