import Mathlib
import TapeStark.Proofs.Interpolation
import TapeStark.Proofs.Protocol.Fold

/-!
What folding does to coefficients. The fold of the values of a polynomial has, over the squared
domain, the even coefficients plus the challenge times the odd ones, and each entry is that of a
pair folded by itself. So a word whose folds by two challenges are of low degree has an even and an
odd part of low degree, and no word of high degree folds to low degree more than once.
-/

namespace TapeStark

open ExtensionField

theorem Element.inField_mk (d : Degree) (a : d.Carrier) : inField d ⟨d, a⟩ = .ok a := by
  cases d <;> rfl

namespace ElementArray

variable {D : Domain} {e : Degree} {c : ElementArray} {cs : Array e.Carrier}

theorem over_eq (hc : c.values.size ≤ D.size) :
    c.over D = .ok ⟨c.degree, (Fourier.values (poly c.values.toList) D).toArray⟩ := by
  rw [ElementArray.over, Fourier.evaluateOver_eq c.values D hc]
  rfl

/-- The values of a polynomial go into a larger field with its coefficients. -/
theorem promote_values (e d : Degree) (cs : Array d.Carrier) (D : Domain) :
    promote e ⟨d, (Fourier.values (poly cs.toList) D).toArray⟩ =
      (promote e ⟨d, cs⟩).map fun cs => (Fourier.values (poly cs.toList) D).toArray := by
  cases d with
  | one =>
    refine congrArg Except.ok (Array.toList_inj.mp ?_)
    simp only [Array.toList_map, Fourier.values, List.map_map]
    exact List.map_congr_left fun i _ => (eval_poly_map_ofBase _ _).symm
  | three => cases e <;> rfl

/-- A larger field changes neither the number of the coefficients nor the degree. -/
theorem degree_of_promote (h : c.promote e = .ok cs) :
    cs.size = c.values.size ∧ (poly cs.toList).degree = (poly c.values.toList).degree := by
  obtain ⟨d, values⟩ := c
  cases d with
  | one =>
    obtain rfl := Except.ok.inj h
    rw [Array.toList_map]
    exact ⟨Array.size_map, degree_poly_map_ofBase _⟩
  | three =>
    cases e with
    | one => cases h
    | three =>
      obtain rfl := Except.ok.inj h
      exact ⟨rfl, rfl⟩

end ElementArray

namespace Fourier

variable {F : Type} [ExtensionField F] [LawfulExtension F]

omit [LawfulExtension F] in
theorem getD_evens_odds (cs : List F) (j : Nat) :
    (evens cs).getD j 0 = cs.getD (2 * j) 0 ∧ (odds cs).getD j 0 = cs.getD (2 * j + 1) 0 := by
  induction cs using evens.induct generalizing j with
  | case1 => simp [evens, odds]
  | case2 a => cases j <;> simp [evens, odds, mul_add]
  | case3 a b cs ih =>
    cases j with
    | zero => simp [evens, odds]
    | succ j =>
      obtain ⟨heven, hodd⟩ := ih j
      simp only [evens, odds, List.getD_cons_succ, heven, hodd, mul_add, and_self]

/-- A polynomial is of low degree exactly when its even and its odd part are of half of it. -/
theorem degree_poly_lt_iff_evens_odds (cs : List F) (m : Nat) :
    (poly cs).degree < (2 * m : Nat) ↔
      (poly (evens cs)).degree < m ∧ (poly (odds cs)).degree < m := by
  simp only [Polynomial.degree_lt_iff_coeff_zero, coeff_poly, (getD_evens_odds cs _).1,
    (getD_evens_odds cs _).2]
  constructor
  · intro h
    exact ⟨fun j hj => h _ (by omega), fun j hj => h _ (by omega)⟩
  · rintro ⟨heven, hodd⟩ k hk
    obtain ⟨j, rfl | rfl⟩ := Nat.even_or_odd' k
    · exact heven j (by omega)
    · exact hodd j (by omega)

end Fourier

namespace Fri

variable {D E : Domain}

section Coefficients

variable {F : Type} [ExtensionField F] [LawfulExtension F] {alpha beta : F}

/-- Each even coefficient, and `alpha` times the odd one behind it, if there is one. -/
def foldCoefficients (alpha : F) (cs : Array F) : Array F :=
  ((List.range ((cs.size + 1) / 2)).map fun j =>
    cs.getD (2 * j) 0 + alpha * cs.getD (2 * j + 1) 0).toArray

omit [LawfulExtension F] in
theorem size_foldCoefficients (alpha : F) (cs : Array F) :
    (foldCoefficients alpha cs).size = (cs.size + 1) / 2 := by
  simp [foldCoefficients]

theorem poly_foldCoefficients (alpha : F) (cs : Array F) :
    poly (foldCoefficients alpha cs).toList = foldPoly alpha cs.toList := by
  ext j
  obtain ⟨heven, hodd⟩ := Fourier.getD_evens_odds cs.toList j
  rw [foldPoly, Polynomial.coeff_add, Polynomial.coeff_C_mul, coeff_poly, coeff_poly, coeff_poly,
    heven, hodd, foldCoefficients]
  rcases Nat.lt_or_ge j ((cs.size + 1) / 2) with hj | hj
  · simp [hj]
  · have heven : cs.size ≤ 2 * j := by omega
    have hodd : cs.size ≤ 2 * j + 1 := by omega
    simp [not_lt.mpr hj, heven, hodd]

/-- A pair is folded by the operations of its own field. -/
theorem foldValueWith_mk {e : Degree} {x : Fp} (hx : x ≠ 0) (alpha even odd : e.Carrier) :
    foldValueWith ⟨e, alpha⟩ ⟨e, even⟩ ⟨e, odd⟩ (.ofBase x) =
      .ok ⟨e, foldPair (alpha * (ofBase x)⁻¹) even odd⟩ := by
  have hpoint : (ofBase x : e.Carrier) ≠ 0 := ofBase_ne_zero hx
  have hpromote : (Element.ofBase x).promote e = .ok (ofBase x) := rfl
  rw [foldValueWith, hpromote, ok_bind, inverse?_eq hpoint, ok_bind]
  simp only [Element.inField_mk, ok_bind, pure_eq_ok]

/-- Two folds tell the odd part by their difference, and with it the even part. -/
theorem degree_lt_of_foldPoly {cs : List F} {m : Nat} (hne : alpha ≠ beta)
    (halpha : (foldPoly alpha cs).degree < m) (hbeta : (foldPoly beta cs).degree < m) :
    (poly cs).degree < (2 * m : Nat) := by
  rw [← Polynomial.mem_degreeLT] at halpha hbeta
  have hdifference : foldPoly alpha cs - foldPoly beta cs =
      (alpha - beta) • poly (Fourier.odds cs) := by
    rw [foldPoly, foldPoly, Polynomial.smul_eq_C_mul, Polynomial.C_sub]
    ring
  have hodd : poly (Fourier.odds cs) ∈ Polynomial.degreeLT F m := by
    rw [← inv_smul_smul₀ (sub_ne_zero.mpr hne) (poly (Fourier.odds cs)), ← hdifference]
    exact Submodule.smul_mem _ _ (Submodule.sub_mem _ halpha hbeta)
  have heven : poly (Fourier.evens cs) ∈ Polynomial.degreeLT F m := by
    have hrest : poly (Fourier.evens cs) = foldPoly alpha cs - alpha • poly (Fourier.odds cs) := by
      rw [foldPoly, Polynomial.smul_eq_C_mul, add_sub_cancel_right]
    rw [hrest]
    exact Submodule.sub_mem _ halpha (Submodule.smul_mem _ _ hodd)
  exact (Fourier.degree_poly_lt_iff_evens_odds cs m).mpr
    ⟨Polynomial.mem_degreeLT.mp heven, Polynomial.mem_degreeLT.mp hodd⟩

/-- The converse holds for every challenge. -/
theorem degree_foldPoly_lt_of_degree (alpha : F) {cs : List F} {m : Nat}
    (h : (poly cs).degree < (2 * m : Nat)) : (foldPoly alpha cs).degree < m := by
  obtain ⟨heven, hodd⟩ := (Fourier.degree_poly_lt_iff_evens_odds cs m).mp h
  rw [← Polynomial.mem_degreeLT] at heven hodd ⊢
  rw [foldPoly, ← Polynomial.smul_eq_C_mul]
  exact Submodule.add_mem _ heven (Submodule.smul_mem _ _ hodd)

end Coefficients

/-- The coefficients of a fold, from coefficients of any field that the challenge's own holds. -/
def foldCoefficientsWith (alpha : Element) (c : ElementArray) : Except Error ElementArray := do
  let cs ← c.promote alpha.degree
  return ⟨alpha.degree, foldCoefficients alpha.value cs⟩

/-- The fold of a codeword is the codeword of the even coefficients plus the challenge times the odd
ones, over the squares; both fail alike where the challenge's field does not hold the coefficients.
Each entry is the fold of the two values at a point and at its negative, in the challenge's field. -/
theorem foldWith_over (heven : 2 ∣ D.size) (hoffset : D.offset ≠ 0) (alpha : Element)
    (c : ElementArray) (hc : c.values.size ≤ D.size) : ∃ codeword E,
      c.over D = .ok codeword ∧ D.squared = .ok E ∧ D.size = 2 * E.size ∧
      foldWith alpha codeword D = (do (← foldCoefficientsWith alpha c).over E) ∧
      ∀ values, codeword.promote alpha.degree = .ok values → values.size = D.size ∧
        ∃ folded, foldWith alpha codeword D = .ok ⟨alpha.degree, folded⟩ ∧ folded.size = E.size ∧
          ∀ j < E.size, foldValueWith alpha ⟨alpha.degree, values.getD j 0⟩
            ⟨alpha.degree, values.getD (E.size + j) 0⟩ (.ofBase (D.element j)) =
              .ok ⟨alpha.degree, folded.getD j 0⟩ := by
  obtain ⟨e, alpha⟩ := alpha
  obtain ⟨E, hE⟩ := Domain.exists_squared (Nat.le_of_dvd D.size_pos heven)
  have hsize := Domain.size_of_squared hE
  refine ⟨_, E, ElementArray.over_eq hc, hE, by omega, ?_⟩
  rw [foldWith, foldCoefficientsWith, ElementArray.promote_values]
  dsimp only
  cases hcs : c.promote e with
  | error error => exact ⟨rfl, fun values h => nomatch h⟩
  | ok cs =>
    have hcsize := (ElementArray.degree_of_promote hcs).1
    have hover : (ElementArray.mk e (foldCoefficients alpha cs)).over E =
        .ok ⟨e, (Fourier.values (foldPoly alpha cs.toList) E).toArray⟩ := by
      rw [ElementArray.over_eq, poly_foldCoefficients]
      dsimp only
      rw [size_foldCoefficients]
      omega
    have hfold := fold_values hE hoffset alpha cs.toList
    have hlength : (Fourier.values (poly cs.toList) D).toArray.size = D.size := by simp
    obtain ⟨hfolded, hentry⟩ := (fold_eq_ok_iff hE hoffset alpha hlength).mp hfold
    simp only [Except.map, ok_bind, hfold]
    refine ⟨hover.symm, ?_⟩
    rintro _ ⟨⟩
    refine ⟨hlength, _, rfl, hfolded, fun j hj => ?_⟩
    rw [foldValueWith_mk (D.element_ne_zero hoffset j), hentry j hj]

/-- Three coefficients of the base field over a coset of four, folded by a challenge of the
extension. -/
theorem foldWith_over_of_three :
    let D : Domain := ⟨2, Fp.generator, by decide⟩
    let alpha : Element := ⟨.three, ⟨0, 1, 0⟩⟩
    let c : ElementArray := ⟨.one, #[5, 6, 7]⟩
    2 ∣ D.size ∧ D.offset ≠ 0 ∧ c.values.size ≤ D.size ∧ ∃ codeword E,
      c.over D = .ok codeword ∧ D.squared = .ok E ∧
        foldWith alpha codeword D = ElementArray.over ⟨.three, #[⟨5, 6, 0⟩, ⟨7, 0, 0⟩]⟩ E := by
  intro D alpha c
  obtain ⟨codeword, E, hcodeword, hE, -, hfold, -⟩ :=
    foldWith_over (D := D) (by decide) Fp.generator_ne_zero alpha c (by decide)
  refine ⟨by decide, Fp.generator_ne_zero, by decide, codeword, E, hcodeword, hE, hfold.trans ?_⟩
  have hentries : foldCoefficients (⟨0, 1, 0⟩ : Fp3) (#[5, 6, 7].map Fp3.ofBase) =
      #[⟨5, 6, 0⟩, ⟨7, 0, 0⟩] := by decide +kernel
  have hcoefficients : foldCoefficientsWith alpha c =
      .ok ⟨.three, #[⟨5, 6, 0⟩, ⟨7, 0, 0⟩]⟩ :=
    congrArg (fun cs => Except.ok (ElementArray.mk .three cs)) hentries
  rw [hcoefficients, ok_bind]

def DegreeBelow (f : ElementArray) (D : Domain) (m : Int) : Prop :=
  ∃ cs, Fourier.interpolate f.values D = .ok cs ∧ Polynomial.degree cs < m

/-- A word folds to one whose polynomial over the squares is below a degree. -/
def FoldBelow (alpha : Element) (f : ElementArray) (D : Domain) (m : Int) : Prop :=
  ∃ folded E, foldWith alpha f D = .ok folded ∧ D.squared = .ok E ∧ DegreeBelow folded E m

section Degree

variable {e : Degree} {f : ElementArray} {m : Int}

/-- The zero polynomial has the least degree, minus one. -/
theorem not_degreeBelow_of_neg (hm : m < 0) : ¬ DegreeBelow f D m := by
  rintro ⟨cs, -, hdegree⟩
  rw [Polynomial.degree] at hdegree
  omega

theorem degreeBelow_iff (hf : f.values.size = D.size) (hoffset : D.offset ≠ 0)
    {p : Polynomial f.degree.Carrier} (hp : p.degree < D.size)
    (hvalues : Fourier.values p D = f.values.toList) (m : Nat) :
    DegreeBelow f D m ↔ p.degree < m := by
  obtain ⟨cs, hcs, hsize, hthrough⟩ := Fourier.exists_interpolate hf hoffset
  have hpoly : poly cs.toList = p := by
    refine D.eq_of_values_eq hoffset ?_ hp (hthrough.trans hvalues.symm)
    exact hsize ▸ degree_poly_lt cs.toList
  rw [← hpoly, ← degree_lt_iff]
  constructor
  · rintro ⟨cs', hcs', hdegree⟩
    obtain rfl := Except.ok.inj (hcs.symm.trans hcs')
    exact hdegree
  · exact fun hdegree => ⟨cs, hcs, hdegree⟩

/-- Coefficients of a word in the challenges' field tell its degree, and those of its folds. -/
theorem exists_coefficients_of_word (hE : D.squared = .ok E) (hoffset : D.offset ≠ 0)
    (hf : f.values.size = D.size) {values : Array e.Carrier} (hfield : f.promote e = .ok values) :
    ∃ cs : List e.Carrier, ∀ m : Nat, (DegreeBelow f D m ↔ (poly cs).degree < m) ∧
      ∀ alpha, FoldBelow ⟨e, alpha⟩ f D m ↔ (foldPoly alpha cs).degree < m := by
  obtain ⟨base, -, hsize, hthrough⟩ := Fourier.exists_interpolate hf hoffset
  have hdegree : (poly base.toList).degree < D.size := hsize ▸ degree_poly_lt base.toList
  have hword : f = ⟨f.degree, (Fourier.values (poly base.toList) D).toArray⟩ := by
    rw [hthrough]
  have hpromoted := hfield
  rw [hword, ElementArray.promote_values] at hpromoted
  obtain ⟨cs, hcs, rfl⟩ := map_eq_ok.mp hpromoted
  obtain ⟨hcsize, hsame⟩ := ElementArray.degree_of_promote hcs
  refine ⟨cs.toList, fun m => ⟨?_, fun alpha => ?_⟩⟩
  · rw [degreeBelow_iff hf hoffset hdegree hthrough, hsame]
  · have hfold : foldWith ⟨e, alpha⟩ f D =
        .ok ⟨e, (Fourier.values (foldPoly alpha cs.toList) E).toArray⟩ := by
      rw [foldWith, hfield, ok_bind, fold_values hE hoffset]
      rfl
    have hoffset' : E.offset ≠ 0 := by
      rw [(Domain.squared_eq_ok.mp hE).2]
      exact mul_ne_zero hoffset hoffset
    have hlength : cs.toList.length ≤ 2 * E.size := by
      have hhalf := Domain.size_of_squared hE
      rw [Array.length_toList, hcsize]
      dsimp only
      omega
    have hiff : DegreeBelow ⟨e, (Fourier.values (foldPoly alpha cs.toList) E).toArray⟩ E m ↔
        (foldPoly alpha cs.toList).degree < m :=
      degreeBelow_iff (by simp) hoffset' (degree_foldPoly_lt alpha hlength) rfl m
    rw [← hiff]
    constructor
    · rintro ⟨folded, E', hfolded, hE', hbelow⟩
      obtain rfl := Except.ok.inj (hE.symm.trans hE')
      obtain rfl := Except.ok.inj (hfold.symm.trans hfolded)
      exact hbelow
    · exact fun hbelow => ⟨_, E, hfold, hE, hbelow⟩

/-- No word of high degree folds to low degree by two challenges; a word of low degree does so by
all of them. -/
theorem degreeBelow_of_folds (hsize : 2 ≤ D.size) (hoffset : D.offset ≠ 0)
    (hf : f.values.size = D.size) {values : Array e.Carrier} (hfield : f.promote e = .ok values)
    (m : Int) :
    (∀ alpha beta : e.Carrier, alpha ≠ beta → FoldBelow ⟨e, alpha⟩ f D m →
      FoldBelow ⟨e, beta⟩ f D m → DegreeBelow f D (2 * m)) ∧
    (DegreeBelow f D (2 * m) → ∀ alpha : e.Carrier, FoldBelow ⟨e, alpha⟩ f D m) := by
  obtain ⟨E, hE⟩ := Domain.exists_squared hsize
  rcases lt_or_ge m 0 with hneg | hpos
  · refine ⟨fun alpha beta _ halpha _ => ?_, fun hbelow => ?_⟩
    · obtain ⟨folded, E, -, -, hbelow⟩ := halpha
      exact absurd hbelow (not_degreeBelow_of_neg hneg)
    · exact absurd hbelow (not_degreeBelow_of_neg (by omega))
  · obtain ⟨n, rfl⟩ := Int.eq_ofNat_of_zero_le hpos
    obtain ⟨cs, hcs⟩ := exists_coefficients_of_word hE hoffset hf hfield
    have hdouble : (2 * (n : Int)) = (2 * n : Nat) := by push_cast; rfl
    rw [hdouble, (hcs _).1]
    refine ⟨fun alpha beta hne halpha hbeta => ?_, fun hbelow alpha => ?_⟩
    · exact degree_lt_of_foldPoly hne (((hcs n).2 alpha).mp halpha) (((hcs n).2 beta).mp hbeta)
    · exact ((hcs n).2 alpha).mpr (degree_foldPoly_lt_of_degree alpha hbelow)

/-- A line over a coset of four, folded by challenges of the extension. -/
theorem degreeBelow_of_folds_of_line :
    let D : Domain := ⟨2, Fp.generator, by decide⟩
    let f : ElementArray := ⟨.one, (Fourier.values (poly [5, 6]) D).toArray⟩
    2 ≤ D.size ∧ D.offset ≠ 0 ∧ f.values.size = D.size ∧
      (∃ values : Array Fp3, f.promote .three = .ok values) ∧
      (∀ alpha beta : Fp3, alpha ≠ beta → FoldBelow ⟨.three, alpha⟩ f D 1 →
        FoldBelow ⟨.three, beta⟩ f D 1 → DegreeBelow f D 2) ∧
      DegreeBelow f D 2 ∧ ∀ alpha : Fp3, FoldBelow ⟨.three, alpha⟩ f D 1 := by
  intro D f
  have hsize : f.values.size = D.size := by simp [f]
  have hdegree : (poly ([5, 6] : List Fp)).degree < (2 : Nat) := degree_poly_lt _
  have hbelow : DegreeBelow f D (2 : Nat) :=
    (degreeBelow_iff hsize Fp.generator_ne_zero (hdegree.trans (by decide)) rfl 2).mpr hdegree
  obtain ⟨htwo, hall⟩ := degreeBelow_of_folds (D := D) (e := .three) (by decide)
    Fp.generator_ne_zero hsize rfl 1
  exact ⟨by decide, Fp.generator_ne_zero, hsize, ⟨_, rfl⟩, htwo, hbelow, hall hbelow⟩

end Degree

end Fri

end TapeStark
