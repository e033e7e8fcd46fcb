import Mathlib
import TapeStark.Proofs.Basic
import TapeStark.Protocol.Composition
import TapeStark.Protocol.Config
import TapeStark.Protocol.Fri
import TapeStark.Protocol.Verifier

/-! What the acceptance of parameters promises: sizes, queries and security. -/

namespace TapeStark

/-! What the acceptance of parameters promises, and the sizes that follow from it. -/

namespace Parameters

/-- What acceptance promises, a field for each check in the order of the checks. -/
structure Acceptable (p : Parameters) : Prop where
  expansionFactor : isPowerOfTwo p.expansionFactor = true ∧ 2 ≤ p.expansionFactor
  securityLevel : 1 ≤ p.securityLevel
  hashSecurity : p.securityLevel ≤ p.hashSecurity
  numRandomizers : 0 ≤ p.numRandomizers
  extensionDegree : p.extensionDegree = 1 ∨ p.extensionDegree = 3
  grindingBits : 0 ≤ p.grindingBits ∧ p.grindingBits ≤ maxGrindingBits
  terminalCoefficients : isPowerOfTwo p.terminalCoefficients = true
  numWorkers : 1 ≤ p.numWorkers
  queries : ∃ n, Security.queriesFor p.securityLevel p.expansionFactor p.grindingBits = .ok n

private theorem ite_some_eq_none {α : Type} {c : Prop} [Decidable c] {a : α} {o : Option α} :
    (if c then some a else o) = none ↔ ¬ c ∧ o = none := by
  split <;> simp_all

theorem fault_eq_none {p : Parameters} : p.fault = none ↔ p.Acceptable := by
  simp only [fault, ite_some_eq_none, Bool.or_eq_true, Bool.not_eq_true', decide_eq_true_eq,
    not_or, Bool.not_eq_false, not_lt, gt_iff_lt, ne_eq, not_and_or, not_not]
  constructor
  · rintro ⟨h1, h2, h3, h4, h5, h6, h7, h8, hqueries⟩
    refine ⟨h1, h2, h3, h4, h5, h6, h7, h8, ?_⟩
    split at hqueries
    · rename_i n hn
      exact ⟨n, hn⟩
    · cases hqueries
  · rintro ⟨h1, h2, h3, h4, h5, h6, h7, h8, n, hn⟩
    exact ⟨h1, h2, h3, h4, h5, h6, h7, h8, by rw [hn]⟩

end Parameters

namespace Config

variable (c : Config)

theorem acceptable : c.parameters.Acceptable := Parameters.fault_eq_none.mp c.accepted

/-- The expansion factor is a power of two, and not one. -/
theorem exists_expansion : ∃ e : Nat, c.expansion = 2 ^ (e + 1) ∧
    c.parameters.expansionFactor = (2 ^ (e + 1) : Nat) := by
  obtain ⟨hp, h2⟩ := c.acceptable.expansionFactor
  obtain ⟨k, hk⟩ := isPowerOfTwo_iff.mp hp
  cases k with
  | zero =>
    rw [hk] at h2
    norm_num at h2
  | succ e => exact ⟨e, by rw [expansion, hk, Int.toNat_natCast], hk⟩

theorem exists_terminalCoefficients : ∃ k : Nat, c.terminalCoefficients = 2 ^ k := by
  obtain ⟨k, hk⟩ := isPowerOfTwo_iff.mp c.acceptable.terminalCoefficients
  exact ⟨k, by rw [terminalCoefficients, hk, Int.toNat_natCast]⟩

end Config

theorem Heights.exists_degreeBound (h : Heights) : ∃ b : Nat, h.degreeBound = 2 ^ b :=
  exists_nextPowerOfTwo _

namespace Fri

/-- The test over a domain, for an expansion and a last polynomial whose sizes are powers of two. -/
theorem of?_two_pow (d : Domain) (e t : Nat) : of? d (2 ^ e : Nat) (2 ^ t : Nat) = .ok {
    domain := d
    rounds := d.logSize - min d.logSize (e + t)
    terminalSize := 2 ^ min d.logSize (e + t)
    maxCoefficients := max (2 ^ min d.logSize (e + t) / 2 ^ e) 1 } := by
  have hmin : min (d.size : Int) ((2 ^ e : Nat) * (2 ^ t : Nat)) =
      (2 ^ min d.logSize (e + t) : Nat) := by
    have hsize : d.size = 2 ^ d.logSize := rfl
    rw [hsize, ← Nat.cast_mul, ← pow_add]
    rcases Nat.le_total d.logSize (e + t) with h | h
    · have := Nat.pow_le_pow_right (n := 2) (by decide) h
      rw [min_eq_left h, min_eq_left (by exact_mod_cast this)]
    · have := Nat.pow_le_pow_right (n := 2) (by decide) h
      rw [min_eq_right h, min_eq_right (by exact_mod_cast this)]
  simp only [of?, hmin]
  rw [exactLog2_eq_ok.mpr rfl]
  simp only [ok_bind, pure_eq_ok, Int.toNat_natCast]
  rw [Int.fdiv_eq_ediv_of_nonneg _ (Int.natCast_nonneg _), ← Int.natCast_ediv]
  congr 2
  omega

end Fri

/-! How many queries a target asks for, and under which degree bounds the field is large enough for
it. The queries and the hash are never what an accepted set of parameters falls short of. -/

namespace Security

variable {blowup queries queries' grinding grinding' target : Int}

theorem bitLength_le_iff {n k : Nat} : bitLength n ≤ k ↔ n < 2 ^ k := by
  rcases Nat.eq_zero_or_pos n with rfl | hn
  · simp [bitLength]
  · have hne : (n : Int) ≠ 0 := by omega
    rw [bitLength, if_neg hne, Int.natAbs_natCast, Nat.succ_le_iff, Nat.log2_lt (by omega)]

theorem one_le_bitLength {n : Int} (hn : n ≠ 0) : 1 ≤ bitLength n := by
  rw [bitLength, if_neg hn]
  exact Nat.le_add_left 1 _

theorem ceilLog2_natCast {n : Nat} (hn : 1 ≤ n) : ceilLog2 n = Nat.clog 2 n := by
  refine eq_of_forall_ge_iff fun k => ?_
  have hpred : (n : Int) - 1 = (n - 1 : Nat) := by omega
  rw [ceilLog2, hpred, bitLength_le_iff, Nat.clog_le_iff_le_pow (by decide)]
  omega

theorem field_natCast {fieldBits : Int} {factor bound : Nat} (h : 1 ≤ factor * bound) :
    field fieldBits factor bound = fieldBits - Nat.clog 2 (factor * bound) := by
  rw [field, ← Nat.cast_mul, ceilLog2_natCast h]

/-- Neither more queries nor more grinding makes the queries weaker, also where grinding starts to
count. -/
theorem query_le_query (hblowup : blowup ≠ 0) (hqueries : queries ≤ queries')
    (hgrinding : 0 ≤ grinding) (hle : grinding ≤ grinding') :
    query blowup queries grinding ≤ query blowup queries' grinding' := by
  have hbits : ((bitLength blowup : Int) - 1) * queries ≤ (bitLength blowup - 1) * queries' := by
    have := one_le_bitLength hblowup
    exact mul_le_mul_of_nonneg_left hqueries (by omega)
  dsimp only [query]
  split <;> split <;> omega

/-- A target of at least one bit needs a query. -/
theorem one_le_of_le_query (hblowup : blowup ≠ 0) (htarget : 1 ≤ target)
    (h : target + 1 ≤ query blowup queries grinding) : 1 ≤ queries := by
  by_contra hneg
  have hbits : ((bitLength blowup : Int) - 1) * queries ≤ 0 := by
    have := one_le_bitLength hblowup
    exact mul_nonpos_of_nonneg_of_nonpos (by omega) (by omega)
  have hlow : ¬ ((bitLength blowup : Int) - 1) * queries ≥ grindingFloor := by
    rw [grindingFloor]
    omega
  have hquery : query blowup queries grinding = (bitLength blowup - 1) * queries := if_neg hlow
  omega

/-- The search finds the first count that is enough, within its range. -/
theorem queriesFor_eq_ok {n : Nat} : queriesFor target blowup grinding = .ok n ↔
    2 ≤ blowup ∧ 1 ≤ n ∧ n ≤ maxQueries ∧ target + 1 ≤ query blowup n grinding ∧
      ∀ m : Nat, 1 ≤ m → m < n → query blowup m grinding < target + 1 := by
  have hfind : (List.range' 1 maxQueries).find?
      (fun n : Nat => decide (query blowup n grinding - 1 ≥ target)) = some n ↔
      1 ≤ n ∧ n ≤ maxQueries ∧ target + 1 ≤ query blowup n grinding ∧
        ∀ m : Nat, 1 ≤ m → m < n → query blowup m grinding < target + 1 := by
    simp only [List.find?_range'_eq_some, List.mem_range'_1, decide_eq_true_eq,
      Bool.not_eq_true', decide_eq_false_iff_not, ge_iff_le, not_le, le_sub_iff_add_le]
    constructor
    · rintro ⟨henough, ⟨h1, hmax⟩, hbefore⟩
      exact ⟨h1, by omega, henough, hbefore⟩
    · rintro ⟨h1, hmax, henough, hbefore⟩
      exact ⟨henough, ⟨h1, by omega⟩, hbefore⟩
  rw [queriesFor]
  split
  · rename_i hlow
    constructor
    · intro h
      cases h
    · rintro ⟨h2, -⟩
      exact absurd hlow (not_lt.mpr h2)
  · rename_i hlow
    rw [← hfind, and_iff_right (not_lt.mp hlow)]
    dsimp only
    split
    · rename_i m hm
      rw [hm]
      exact ⟨fun h => by rw [Except.ok.inj h], fun h => by rw [Option.some.inj h]⟩
    · rename_i hnone
      rw [hnone]
      constructor
      · intro h
        cases h
      · intro h
        cases h

theorem conjectured_le_conjectured {fieldBits hashBits bound bound' : Int} (hblowup : blowup ≠ 0)
    (hbound : ceilLog2 (blowup * bound') ≤ ceilLog2 (blowup * bound)) (hqueries : queries ≤ queries')
    (hgrinding : 0 ≤ grinding) (hle : grinding ≤ grinding') :
    conjectured fieldBits hashBits blowup bound queries grinding ≤
      conjectured fieldBits hashBits blowup bound' queries' grinding' := by
  have hquery := query_le_query hblowup hqueries hgrinding hle
  have hfield : field fieldBits blowup bound ≤ field fieldBits blowup bound' := by
    dsimp only [field]
    omega
  dsimp only [conjectured]
  exact max_le_max_right 0 (min_le_min_right _ (sub_le_sub_right (min_le_min hfield hquery) 1))

end Security

namespace Config

open Security

variable (c : Config)

theorem queriesFor_numQueries : queriesFor c.parameters.securityLevel c.parameters.expansionFactor
    c.parameters.grindingBits = .ok c.numQueries := by
  obtain ⟨n, hn⟩ := c.acceptable.queries
  rw [numQueries, hn]

/-- There are never more queries than are searched through. -/
theorem numQueries_le : c.numQueries ≤ maxQueries :=
  (queriesFor_eq_ok.mp c.queriesFor_numQueries).2.2.1

/-- Among all counts, the configuration's own is the least that is enough. -/
theorem isLeast_numQueries : IsLeast {n : Int |
    c.securityLevel + 1 ≤ query c.parameters.expansionFactor n c.parameters.grindingBits}
    c.numQueries := by
  obtain ⟨h2, -, -, henough, hbefore⟩ := queriesFor_eq_ok.mp c.queriesFor_numQueries
  refine ⟨henough, fun n hn => ?_⟩
  have hpos : 1 ≤ n := one_le_of_le_query (by omega) c.acceptable.securityLevel hn
  by_contra hlt
  obtain ⟨m, rfl⟩ := Int.eq_ofNat_of_zero_le (by omega : 0 ≤ n)
  exact absurd (hbefore m (by omega) (by omega)) (not_lt.mpr hn)

theorem one_le_expansion_mul {bound : Nat} (hbound : 1 ≤ bound) : 1 ≤ c.expansion * bound := by
  obtain ⟨e, he, -⟩ := c.exists_expansion
  rw [he]
  exact Nat.mul_pos (Nat.two_pow_pos _) hbound

def FieldTooSmall (bound : Nat) : Prop :=
  (c.degree.bits : Int) - Nat.clog 2 (c.expansion * bound) < c.securityLevel + 1

instance (bound : Nat) : Decidable (c.FieldTooSmall bound) :=
  inferInstanceAs (Decidable (_ < _))

/-- The queries reach the target and so does the hash, so that the field decides. -/
theorem securityFor_lt_iff {bound : Nat} (hbound : 1 ≤ bound) :
    c.securityFor bound < c.securityLevel ↔ c.FieldTooSmall bound := by
  obtain ⟨e, he, hfactor⟩ := c.exists_expansion
  have hquery : c.securityLevel + 1 ≤
      query c.parameters.expansionFactor c.numQueries c.parameters.grindingBits :=
    c.isLeast_numQueries.1
  have hhash : c.securityLevel ≤ c.parameters.hashSecurity := c.acceptable.hashSecurity
  have hlevel : 1 ≤ c.securityLevel := c.acceptable.securityLevel
  have hfield : field c.degree.bits c.parameters.expansionFactor bound =
      (c.degree.bits : Int) - Nat.clog 2 (c.expansion * bound) := by
    have hcast : c.parameters.expansionFactor = (c.expansion : Int) := by rw [hfactor, he]
    rw [hcast, field_natCast (c.one_le_expansion_mul hbound)]
  -- The clamp at zero is no matter, as the target is not below one.
  rw [FieldTooSmall, ← hfield, securityFor, conjectured]
  omega

theorem fieldTooSmall_mono {bound bound' : Nat} (hle : bound ≤ bound')
    (h : c.FieldTooSmall bound) : c.FieldTooSmall bound' := by
  have hclog : Nat.clog 2 (c.expansion * bound) ≤ Nat.clog 2 (c.expansion * bound') :=
    Nat.clog_mono_right 2 (Nat.mul_le_mul_left _ hle)
  rw [FieldTooSmall] at *
  omega

theorem checkSecurity_eq {bound : Nat} (hbound : 1 ≤ bound) : c.checkSecurity bound =
    if c.FieldTooSmall bound then
      .error (.config
        (.degreeBound (c.securityFor bound) c.securityLevel bound c.degree.bits))
    else .ok () := by
  rw [checkSecurity]
  exact if_congr (c.securityFor_lt_iff hbound) rfl rfl

theorem checkSecurity_eq_ok {bound : Nat} (hbound : 1 ≤ bound) :
    c.checkSecurity bound = .ok () ↔ ¬ c.FieldTooSmall bound := by
  rw [c.checkSecurity_eq hbound]
  split <;> simp_all

theorem domainFor_eq_ite {bound : Nat} (hbound : 1 ≤ bound) : Verifier.domainFor c bound =
    if (bound * c.expansion).log2 > Fp.twoAdicity then .error (.malformed (.degreeBound bound))
    else if c.FieldTooSmall bound then
      .error (.malformed (.security (c.securityFor bound) c.securityLevel))
    else Domain.coset? (bound * c.expansion : Nat) := by
  rw [Verifier.domainFor]
  split
  · rfl
  · exact if_congr (c.securityFor_lt_iff hbound) rfl rfl

/-- The count of an accepted configuration is the least that reaches one bit above the target, and
prover and verifier refuse a degree bound for the same reason, that the field is too small for it:
the prover with the parameters, the verifier with the proof. More queries, more grinding and shorter
traces never give less security. -/
theorem security_decided_by_field :
    (∀ c : Config,
      queriesFor c.parameters.securityLevel c.parameters.expansionFactor
        c.parameters.grindingBits = .ok c.numQueries ∧
      1 ≤ c.numQueries ∧ c.numQueries ≤ 512 ∧
      IsLeast {n : Int | c.securityLevel + 1 ≤
        query c.parameters.expansionFactor n c.parameters.grindingBits} c.numQueries ∧
      ∀ bound : Nat, 1 ≤ bound →
        (c.securityFor bound < c.securityLevel ↔ c.FieldTooSmall bound) ∧
        (c.checkSecurity bound =
          if c.FieldTooSmall bound then
            .error (.config
              (.degreeBound (c.securityFor bound) c.securityLevel bound c.degree.bits))
          else .ok ()) ∧
        (Verifier.domainFor c bound =
          if (bound * c.expansion).log2 > Fp.twoAdicity then
            .error (.malformed (.degreeBound bound))
          else if c.FieldTooSmall bound then
            .error (.malformed (.security (c.securityFor bound) c.securityLevel))
          else Domain.coset? (bound * c.expansion : Nat)) ∧
        (c.checkSecurity bound = .ok () →
          ∀ smaller : Nat, 1 ≤ smaller → smaller ≤ bound → c.checkSecurity smaller = .ok ())) ∧
    ∀ (fieldBits hashBits : Int) (blowup : Nat), 2 ≤ blowup →
      (∀ trace grinding : Nat,
        Monotone fun queries : Nat =>
          conjectured fieldBits hashBits blowup trace queries grinding) ∧
      (∀ trace queries : Nat,
        Monotone fun grinding : Nat =>
          conjectured fieldBits hashBits blowup trace queries grinding) ∧
      ∀ queries grinding : Nat,
        AntitoneOn (fun trace : Nat =>
          conjectured fieldBits hashBits blowup trace queries grinding) (Set.Ici 1) := by
  refine ⟨fun c => ?_, fun fieldBits hashBits blowup hblowup => ?_⟩
  · obtain ⟨-, h1, hmax, -⟩ := queriesFor_eq_ok.mp c.queriesFor_numQueries
    refine ⟨c.queriesFor_numQueries, h1, hmax, c.isLeast_numQueries, fun bound hbound => ?_⟩
    refine ⟨c.securityFor_lt_iff hbound, c.checkSecurity_eq hbound, c.domainFor_eq_ite hbound, ?_⟩
    intro hpasses smaller hsmaller hle
    rw [c.checkSecurity_eq_ok hbound] at hpasses
    rw [c.checkSecurity_eq_ok hsmaller]
    exact fun hsmall => hpasses (c.fieldTooSmall_mono hle hsmall)
  · have hne : (blowup : Int) ≠ 0 := by omega
    refine ⟨fun trace grinding => ?_, fun trace queries => ?_, fun queries grinding => ?_⟩
    · intro queries queries' hle
      exact conjectured_le_conjectured hne le_rfl (Int.ofNat_le.mpr hle)
        (Int.natCast_nonneg grinding) le_rfl
    · intro grinding grinding' hle
      exact conjectured_le_conjectured hne le_rfl le_rfl (Int.natCast_nonneg grinding)
        (Int.ofNat_le.mpr hle)
    · intro trace htrace trace' htrace' hle
      have hpos : ∀ t : Nat, t ∈ Set.Ici 1 → 1 ≤ blowup * t := fun t ht =>
        Nat.mul_pos (by omega) ht
      have hlogs : ceilLog2 (blowup * trace : Int) ≤ ceilLog2 (blowup * trace' : Int) := by
        rw [← Nat.cast_mul, ← Nat.cast_mul, ceilLog2_natCast (hpos trace htrace),
          ceilLog2_natCast (hpos trace' htrace')]
        exact Nat.clog_mono_right 2 (Nat.mul_le_mul_left blowup hle)
      exact conjectured_le_conjectured hne hlogs le_rfl (Int.natCast_nonneg grinding) le_rfl

theorem security_decided_by_field_of_defaults :
    let c : Config := ⟨{}, by decide⟩
    c.numQueries = 17 ∧ c.checkSecurity (2 ^ 29 : Nat) = .ok () ∧
      Verifier.domainFor c (2 ^ 30) = .error (.malformed (.security 31 32)) := by
  intro c
  have hexpansion : c.expansion = 2 ^ 2 := rfl
  obtain ⟨-, -, -, -, hbounds⟩ := security_decided_by_field.1 c
  obtain ⟨-, hcheck, -⟩ := hbounds (2 ^ 29) (by decide)
  obtain ⟨-, -, hdomain, -⟩ := hbounds (2 ^ 30) (by decide)
  have hlarge : ¬ c.FieldTooSmall (2 ^ 29) := by
    rw [FieldTooSmall, hexpansion, ← pow_add, Nat.clog_pow 2 _ (by decide)]
    decide
  have hsmall : c.FieldTooSmall (2 ^ 30) := by
    rw [FieldTooSmall, hexpansion, ← pow_add, Nat.clog_pow 2 _ (by decide)]
    decide
  have hachieved : c.securityFor (2 ^ 30 : Nat) = 31 := by decide
  refine ⟨by decide, ?_, ?_⟩
  · rw [hcheck, if_neg hlarge]
  · rw [hdomain, if_neg (by decide), if_pos hsmall, hachieved]
    rfl

end Config

end TapeStark
