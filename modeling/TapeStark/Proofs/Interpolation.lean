import Mathlib
import TapeStark.Grid
import TapeStark.Proofs.Basic
import TapeStark.Proofs.Fourier

/-! Evaluation and interpolation of the columns of a grid. -/

namespace TapeStark

/-! Passes over the columns of a grid: what each column gives, the grid gives. -/

namespace Grid

variable {α β γ : Type}

structure HasRows (g : Grid α) (n : Nat) : Prop where
  height : g.height = n
  size : ∀ c ∈ g.columns, c.size = n

def mapColumns (n : Nat) (φ : Array α → Array β) (g : Grid α) : Grid β :=
  ⟨g.flat, n, g.columns.map φ⟩

/-- Zeros below every column, up to a height. -/
def padded [Zero α] (n : Nat) : Grid α → Grid α :=
  mapColumns n fun c => c ++ Array.replicate (n - c.size) 0

theorem HasRows.mapColumns {g : Grid α} {n m : Nat} {φ : Array α → Array β} (hg : g.HasRows n)
    (hφ : ∀ c : Array α, c.size = n → (φ c).size = m) : (g.mapColumns m φ).HasRows m := by
  refine ⟨rfl, List.forall_mem_map.mpr fun c hc => ?_⟩
  exact hφ c (hg.size c hc)

theorem HasRows.mapColumns_id {g : Grid α} {n : Nat} (hg : g.HasRows n) :
    g.mapColumns n id = g := by
  rw [Grid.mapColumns, List.map_id, ← hg.height]

/-- A pass gives a grid if it gives each of its columns, and columns of its height. -/
theorem mapM_eq_ok [Zero α] {f : Array α → Except Error (Array β)} {g : Grid α} {r : Grid β}
    {n m : Nat} (hg : g.HasRows n) (hf : ∀ c : Array α, c.size = n → ∃ v, f c = .ok v ∧ v.size = m)
    (hflat : r.flat = g.flat) (hheight : r.height = m)
    (hcolumns : List.Forall₂ (fun c v => f c = .ok v) g.columns r.columns) : g.mapM f = .ok r := by
  obtain ⟨flat, height, columns⟩ := g
  obtain ⟨flat', height', columns'⟩ := r
  obtain rfl : flat' = flat := hflat
  obtain rfl : height' = m := hheight
  cases hcolumns with
  | nil =>
    -- The height is that of the column of zeros.
    have hzeros : (Array.replicate height (0 : α)).size = n :=
      Array.size_replicate.trans hg.height
    obtain ⟨zeros, hok, hsize⟩ := hf _ hzeros
    simp only [mapM, hok, ok_bind, pure_eq_ok, hsize]
  | cons hfirst hrest =>
    rename_i first first' rest rest'
    obtain ⟨v, hok, hsize⟩ := hf first (hg.size first (List.mem_cons_self ..))
    obtain rfl := Except.ok.inj (hfirst.symm.trans hok)
    simp only [mapM, hfirst, TapeStark.mapM_eq_ok.mpr hrest, ok_bind, pure_eq_ok, hsize]

theorem mapM_eq_mapColumns [Zero α] {f : Array α → Except Error (Array β)} {g : Grid α} {n m : Nat}
    {φ : Array α → Array β} (hg : g.HasRows n)
    (hf : ∀ c : Array α, c.size = n → f c = .ok (φ c) ∧ (φ c).size = m) :
    g.mapM f = .ok (g.mapColumns m φ) := by
  refine mapM_eq_ok hg (fun c hc => ⟨φ c, hf c hc⟩) rfl rfl ?_
  exact List.forall₂_map_right_iff.mpr (List.forall₂_same.mpr fun c hc => (hf c (hg.size c hc)).1)

/-- What a function does to the columns of one height, its pass does to a grid of that height. -/
theorem exists_mapM [Zero α] {f : Array α → Except Error (Array β)} {g : Grid α}
    {R : Array α → Array β → Prop} {n m : Nat} (hg : g.HasRows n)
    (hf : ∀ c : Array α, c.size = n → ∃ v, f c = .ok v ∧ v.size = m ∧ R c v) :
    ∃ r, g.mapM f = .ok r ∧ r.flat = g.flat ∧ r.HasRows m ∧
      List.Forall₂ R g.columns r.columns := by
  choose! φ hok hsize hR using hf
  have hrelated : List.Forall₂ R g.columns (g.columns.map φ) :=
    List.forall₂_map_right_iff.mpr (List.forall₂_same.mpr fun c hc => hR c (hg.size c hc))
  exact ⟨g.mapColumns m φ, mapM_eq_mapColumns hg fun c hc => ⟨hok c hc, hsize c hc⟩, rfl,
    hg.mapColumns hsize, hrelated⟩

/-- A second pass over the columns that the first one gives. -/
theorem exists_mapM_mapM [Zero α] [Zero β] {f : Array α → Except Error (Array β)}
    {f' : Array β → Except Error (Array γ)} {φ : Array α → Array γ} {g : Grid α}
    {R : Array α → Array β → Prop} {n m l : Nat} (hg : g.HasRows n)
    (hf : ∀ c : Array α, c.size = n → ∃ v, f c = .ok v ∧ v.size = m ∧ R c v ∧ f' v = .ok (φ c))
    (hf' : ∀ v : Array β, v.size = m → ∃ c, f' v = .ok c ∧ c.size = l) :
    ∃ r, g.mapM f = .ok r ∧ r.flat = g.flat ∧ r.HasRows m ∧ List.Forall₂ R g.columns r.columns ∧
      r.mapM f' = .ok (g.mapColumns l φ) := by
  obtain ⟨r, hok, hflat, hrows, hrelated⟩ := exists_mapM hg hf
  refine ⟨r, hok, hflat, hrows, hrelated.imp fun _ _ h => h.1, ?_⟩
  refine mapM_eq_ok hrows hf' hflat.symm rfl ?_
  exact List.forall₂_map_right_iff.mpr (hrelated.flip.imp fun _ _ h => h.2)

end Grid

/-! Evaluation and interpolation of columns, one or many, over either field: the entries are those
of Horner's rule at the points of the domain, and each of the two undoes the other. -/

section Interpolation

open ExtensionField

/-- The value at a point of the base field, in the field of the coefficients. -/
theorem ElementArray.eval_ofBase {d : Degree} (p : Array d.Carrier) (x : Fp) :
    ElementArray.eval ⟨d, p⟩ (.ofBase x) = .ok ⟨d, (poly p.toList).eval (ofBase x)⟩ := by
  rw [← eval_eq]
  cases d with
  | one =>
    have hbase : p.map (ofBase : Fp → Fp) = p := Array.map_id p
    change Except.ok (⟨.one, Polynomial.eval (p.map ofBase) (ofBase x)⟩ : Element) = _
    rw [hbase]
  | three => rfl

namespace Fourier

section Columns

variable {F : Type} [ExtensionField F] [LawfulExtension F]

/-- Interpolation undoes evaluation, up to zeros on top. -/
theorem interpolate_values {p : Array F} {D : Domain} (hoffset : D.offset ≠ 0)
    (hp : p.size ≤ D.size) : interpolate (values (poly p.toList) D).toArray D =
      .ok (p ++ Array.replicate (D.size - p.size) 0) := by
  have hsize : (values (poly p.toList) D).toArray.size = D.size := length_values _ _
  obtain ⟨cs, hok, hlen, hvalues⟩ := exists_interpolate hsize hoffset
  have hpadded : poly (p ++ Array.replicate (D.size - p.size) 0).toList = poly p.toList := by
    rw [Array.toList_append, Array.toList_replicate, poly_append_zeros]
  have hdegree (q : Array F) (hq : q.size ≤ D.size) : (poly q.toList).degree < D.size :=
    (degree_poly_lt _).trans_le (by exact_mod_cast hq)
  rw [hok]
  refine congrArg Except.ok (eq_of_poly_eq ?_ ?_)
  · rw [hlen, Array.size_append, Array.size_replicate]
    omega
  · rw [hpadded]
    exact D.eq_of_values_eq hoffset (hdegree cs hlen.le) (hdegree p hp) hvalues

/-- Evaluation undoes interpolation. -/
theorem exists_evaluateOver {vs : Array F} {D : Domain} (hsize : vs.size = D.size)
    (hoffset : D.offset ≠ 0) : ∃ cs : Array F, interpolate vs D = .ok cs ∧ cs.size = D.size ∧
      values (poly cs.toList) D = vs.toList ∧ evaluateOver cs D = .ok vs := by
  obtain ⟨cs, hok, hlen, hvalues⟩ := exists_interpolate hsize hoffset
  exact ⟨cs, hok, hlen, hvalues, by rw [evaluateOver_eq cs D hlen.le, hvalues]⟩

omit [LawfulExtension F] in
theorem forward_eq_transform {k : Nat} {c : Array F} (hc : c.size = 2 ^ k) :
    forward k c = .ok (transform k (Fp.rootOfUnity k) c.toList).toArray := if_pos hc

/-- The transform is evaluation over the subgroup. -/
theorem forward_eq {k : Nat} (hk : k ≤ Fp.twoAdicity) {c : Array F} (hc : c.size = 2 ^ k) :
    forward k c = .ok (values (poly c.toList) ⟨k, 1, hk⟩).toArray := by
  rw [forward_eq_transform hc, transform_eq (Fp.isPrimitiveRoot_rootOfUnity hk) hc]
  refine congrArg (fun l => Except.ok (List.toArray l)) (List.map_congr_left fun i _ => ?_)
  rw [Domain.element_eq, one_mul]
  rfl

omit [LawfulExtension F] in
/-- The inverse transform is interpolation over the subgroup. -/
theorem backward_eq {k : Nat} (hk : k ≤ Fp.twoAdicity) (vs : Array F) :
    backward k vs = interpolate vs ⟨k, 1, hk⟩ := by
  rw [interpolate]
  cases backward k vs with
  | error e => rfl
  | ok cs => rfl

end Columns

variable {d : Degree}

def coordinate (d : Degree) (j : Fin (degree d.Carrier)) (x : d.Carrier) : Fp := (limbs x)[j]

/-- The coordinates are transformed by themselves. -/
theorem map_coordinate_transform (j : Fin (degree d.Carrier)) (k : Nat) (root : Fp)
    (xs : List d.Carrier) : (transform k root xs).map (coordinate d j) =
      transform k root (xs.map (coordinate d j)) := by
  cases d with
  | one =>
    obtain rfl : j = ⟨0, Nat.one_pos⟩ := Subsingleton.elim (α := Fin 1) _ _
    exact map_transform (fun _ _ => rfl) (fun _ _ => rfl) (fun _ _ => rfl) k root xs
  | three =>
    refine map_transform (fun a b => ?_) (fun a b => ?_) (fun w a => ?_) k root xs <;>
    · change Fin 3 at j
      fin_cases j <;> rfl

/-- The values of `c` at the powers of the root, as Horner's rule, the loop over levels and the
transforms of the coordinates give them. -/
structure Spectrum (k : Nat) (c v : Array d.Carrier) : Prop where
  size : v.size = 2 ^ k
  value : ∀ i (h : i < v.size),
    ElementArray.eval ⟨d, c⟩ (.ofBase (Fp.rootOfUnity k ^ i)) = .ok ⟨d, v[i]⟩
  loop : levels k (Fp.rootOfUnity k) c.toList k = v.toList
  coordinate : ∀ j, forward k (c.map (coordinate d j)) = .ok (v.map (coordinate d j))

/-- The coefficients that have `v` as their spectrum, as the loop with the inverse root gives
them. -/
structure Recovered (k : Nat) (v c : Array d.Carrier) : Prop where
  spectrum : Spectrum k c v
  loop : (levels k (Fp.rootOfUnity k)⁻¹ v.toList k).map (scale (Fp.ofNat (2 ^ k))⁻¹) = c.toList

/-- The entries are the values at the points of the domain, by Horner's rule. -/
structure Evaluates (p : Array d.Carrier) (D : Domain) (v : Array d.Carrier) : Prop where
  size : v.size = D.size
  value : ∀ i (h : i < v.size),
    ElementArray.eval ⟨d, p⟩ (.ofBase (D.element i)) = .ok ⟨d, v[i]⟩

/-- Coefficients and a codeword, from the values of a column on `trace`. -/
structure Extended (trace wide : Domain) (c : Array d.Carrier)
    (pw : Array d.Carrier × Array d.Carrier) : Prop where
  extend : extend c trace wide = .ok pw
  size : pw.1.size = trace.size
  degree : Polynomial.degree pw.1 < trace.size
  through : Evaluates pw.1 trace c
  unique : ∀ q : Array d.Carrier, Polynomial.degree q < trace.size → Evaluates q trace c →
    Polynomial.trim q = Polynomial.trim pw.1
  codeword : Evaluates pw.1 wide pw.2

theorem evaluates_iff {p v : Array d.Carrier} {D : Domain} :
    Evaluates p D v ↔ values (poly p.toList) D = v.toList := by
  constructor
  · rintro ⟨hsize, hvalue⟩
    refine List.ext_getElem (by simp [hsize]) fun i hi hi' => ?_
    have hvalue := hvalue i hi'
    rw [ElementArray.eval_ofBase] at hvalue
    have helement := Except.ok.inj hvalue
    simp only [Element.mk.injEq, heq_eq_eq, true_and] at helement
    simpa [values] using helement
  · intro h
    have hsize : v.size = D.size := by
      rw [← Array.length_toList, ← h, length_values]
    refine ⟨hsize, fun i hi => ?_⟩
    have hentry := getD_of_values_eq h (hsize ▸ hi) 0
    rw [ElementArray.eval_ofBase, ← hentry]
    simp [hi]

theorem spectrum_of_forward {k : Nat} (hk : k ≤ Fp.twoAdicity) {c v : Array d.Carrier}
    (hc : c.size = 2 ^ k) (h : forward k c = .ok v) : Spectrum k c v := by
  have hvalues : Evaluates c ⟨k, 1, hk⟩ v := by
    rw [evaluates_iff]
    exact congrArg Array.toList (Except.ok.inj ((forward_eq hk hc).symm.trans h))
  have htransform : v.toList = transform k (Fp.rootOfUnity k) c.toList := by
    rw [← Except.ok.inj ((forward_eq_transform hc).symm.trans h)]
  constructor
  case size => exact hvalues.size
  case value =>
    intro i hi
    have := hvalues.value i hi
    rwa [Domain.element_eq, one_mul] at this
  case loop => rw [levels_eq_transform _ hc, htransform]
  case coordinate =>
    intro j
    rw [forward_eq_transform (Array.size_map.trans hc), Array.toList_map,
      ← map_coordinate_transform, ← htransform, ← Array.toList_map]

/-- A column has a spectrum, which is transformed back. -/
theorem exists_spectrum {k : Nat} (hk : k ≤ Fp.twoAdicity) {c : Array d.Carrier}
    (hc : c.size = 2 ^ k) : ∃ v : Array d.Carrier, forward k c = .ok v ∧ v.size = 2 ^ k ∧
      Spectrum k c v ∧ backward k v = .ok c := by
  have hforward := forward_eq hk hc
  have hspectrum := spectrum_of_forward hk hc hforward
  refine ⟨_, hforward, hspectrum.size, hspectrum, ?_⟩
  rw [backward_eq hk, interpolate_values one_ne_zero hc.le]
  have hfull : (⟨k, 1, hk⟩ : Domain).size - c.size = 0 := Nat.sub_eq_zero_of_le hc.ge
  rw [hfull, Array.replicate_zero, Array.append_empty]

/-- A column is the spectrum of what it is transformed back to. -/
theorem exists_recovered {k : Nat} (hk : k ≤ Fp.twoAdicity) {v : Array d.Carrier}
    (hv : v.size = 2 ^ k) : ∃ c : Array d.Carrier, backward k v = .ok c ∧ c.size = 2 ^ k ∧
      Recovered k v c ∧ forward k c = .ok v := by
  obtain ⟨c, hok, hsize, hvalues, -⟩ := exists_evaluateOver hv
    (show (⟨k, 1, hk⟩ : Domain).offset ≠ 0 from one_ne_zero)
  have hbackward : backward k v = .ok c := (backward_eq hk v).trans hok
  have hforward : forward k c = .ok v := by rw [forward_eq hk hsize, hvalues]
  refine ⟨c, hbackward, hsize, ⟨spectrum_of_forward hk hsize hforward, ?_⟩, hforward⟩
  rw [levels_eq_transform _ hv]
  rw [backward, if_pos (show v.size = Nat.pow 2 k from hv)] at hbackward
  rw [← Except.ok.inj hbackward]
  rfl

variable {D : Domain}

theorem exists_values {p : Array d.Carrier} (hoffset : D.offset ≠ 0) (hp : p.size ≤ D.size) :
    ∃ v : Array d.Carrier, evaluateOver p D = .ok v ∧ v.size = D.size ∧ Evaluates p D v ∧
      interpolate v D = .ok (p ++ Array.replicate (D.size - p.size) 0) :=
  ⟨_, evaluateOver_eq p D hp, length_values _ _, evaluates_iff.mpr rfl,
    interpolate_values hoffset hp⟩

theorem exists_coefficients {v : Array d.Carrier} (hoffset : D.offset ≠ 0) (hv : v.size = D.size) :
    ∃ p : Array d.Carrier, interpolate v D = .ok p ∧ p.size = D.size ∧ Evaluates p D v ∧
      evaluateOver p D = .ok v := by
  obtain ⟨p, hok, hsize, hvalues, heval⟩ := exists_evaluateOver hv hoffset
  exact ⟨p, hok, hsize, evaluates_iff.mpr hvalues, heval⟩

/-- The polynomial of an extended column is the only one of its degree with these values. -/
theorem exists_extended {trace wide : Domain} {c : Array d.Carrier} (hoffset : trace.offset ≠ 0)
    (hwide : trace.size ≤ wide.size) (hc : c.size = trace.size) :
    ∃ p w : Array d.Carrier, interpolate c trace = .ok p ∧ evaluateOver p wide = .ok w ∧
      Extended trace wide c (p, w) := by
  obtain ⟨p, hok, hsize, hvalues, -⟩ := exists_coefficients hoffset hc
  have hcodeword := evaluateOver_eq p wide (hsize.trans_le hwide)
  have hdegree : (poly p.toList).degree < trace.size := hsize ▸ degree_poly_lt p.toList
  refine ⟨p, _, hok, hcodeword, ?_⟩
  constructor
  case extend => exact extend_eq hok (hsize.trans_le hwide)
  case size => exact hsize
  case degree => exact degree_lt_iff.mpr hdegree
  case through => exact hvalues
  case codeword => exact evaluates_iff.mpr rfl
  case unique =>
    intro q hq hthrough
    refine trim_eq_of_poly_eq (trace.eq_of_values_eq hoffset (degree_lt_iff.mp hq) hdegree ?_)
    rw [evaluates_iff.mp hthrough, evaluates_iff.mp hvalues]

section Grids

variable (d)

/-- Column by column, the forward transform gives the values at the powers of the root of unity,
and the transforms are inverse to each other. -/
theorem forward_backward_inverse {k : Nat} (hk : k ≤ Fp.twoAdicity) {g : Grid d.Carrier}
    (hg : g.HasRows (2 ^ k)) : logSize? (2 ^ k : Nat) = .ok k ∧
      (∃ values, g.mapM (forward k) = .ok values ∧ values.flat = g.flat ∧
        values.HasRows (2 ^ k) ∧ List.Forall₂ (Spectrum k) g.columns values.columns ∧
        values.mapM (backward k) = .ok g) ∧
      (∃ coefficients, g.mapM (backward k) = .ok coefficients ∧ coefficients.flat = g.flat ∧
        coefficients.HasRows (2 ^ k) ∧
        List.Forall₂ (Recovered k) g.columns coefficients.columns ∧
        coefficients.mapM (forward k) = .ok g) := by
  refine ⟨?_, ?_, ?_⟩
  · rw [logSize?, exactLog2_eq_ok.mpr rfl, ok_bind, Domain.logSize?_two_pow hk]
    rfl
  · have h := Grid.exists_mapM_mapM (φ := id) hg (fun c hc => exists_spectrum hk hc)
      fun v hv => (exists_recovered hk hv).imp fun c h => ⟨h.1, h.2.1⟩
    rwa [hg.mapColumns_id] at h
  · have h := Grid.exists_mapM_mapM (φ := id) hg (fun v hv => exists_recovered hk hv)
      fun c hc => (exists_spectrum hk hc).imp fun v h => ⟨h.1, h.2.1⟩
    rwa [hg.mapColumns_id] at h

private theorem one_le_twoAdicity : 1 ≤ Fp.twoAdicity := by decide

private def twoColumns : Grid (Degree.Carrier .three) :=
  ⟨false, 2, [#[⟨1, 0, 1⟩, ⟨0, 1, 1⟩], #[⟨0, 0, 1⟩, ⟨1, 1, 0⟩]]⟩

theorem forward_backward_inverse_of_twoColumns : 1 ≤ Fp.twoAdicity ∧ twoColumns.HasRows (2 ^ 1) ∧
    ∃ values, twoColumns.mapM (forward 1) = .ok values ∧
      List.Forall₂ (Spectrum 1) twoColumns.columns values.columns ∧
      values.mapM (backward 1) = .ok twoColumns := by
  have hrows : twoColumns.HasRows (2 ^ 1) := ⟨rfl, by simp [twoColumns]⟩
  obtain ⟨-, ⟨values, hforward, -, -, hspectra, hbackward⟩, -⟩ :=
    forward_backward_inverse .three one_le_twoAdicity hrows
  exact ⟨one_le_twoAdicity, hrows, values, hforward, hspectra, hbackward⟩

variable {d}

/-- Extension of a grid gives coefficients and a codeword for each column. -/
theorem exists_mapM_extended {trace wide : Domain} (hoffset : trace.offset ≠ 0)
    (hwide : trace.size ≤ wide.size) {g : Grid d.Carrier} (hg : g.HasRows trace.size) :
    ∃ coefficients codewords, g.mapM (interpolate · trace) = .ok coefficients ∧
      coefficients.mapM (evaluateOver · wide) = .ok codewords ∧
      coefficients.HasRows trace.size ∧ codewords.HasRows wide.size ∧
      List.Forall₂ (Extended trace wide) g.columns
        (coefficients.columns.zip codewords.columns) := by
  choose! p w hp hw hextended using fun c (hc : Array.size c = trace.size) =>
    exists_extended hoffset hwide hc
  have hsize (c : Array d.Carrier) (hc : c.size = trace.size) : (p c).size = trace.size :=
    (hextended c hc).size
  have hcoefficients : (g.mapColumns trace.size p).HasRows trace.size := hg.mapColumns hsize
  refine ⟨g.mapColumns trace.size p, g.mapColumns wide.size w, ?_, ?_, hcoefficients, ?_, ?_⟩
  · exact Grid.mapM_eq_mapColumns hg fun c hc => ⟨hp c hc, hsize c hc⟩
  · refine Grid.mapM_eq_ok hcoefficients (fun q hq => ?_) rfl rfl ?_
    · exact ⟨_, evaluateOver_eq q wide (hq.trans_le hwide), length_values _ _⟩
    · refine List.forall₂_map_left_iff.mpr (List.forall₂_map_right_iff.mpr ?_)
      exact List.forall₂_same.mpr fun c hc => hw c (hg.size c hc)
  · exact hg.mapColumns fun c hc => (hextended c hc).codeword.size
  · rw [Grid.mapColumns, Grid.mapColumns, List.zip_map', List.forall₂_map_right_iff]
    exact List.forall₂_same.mpr fun c hc => hextended c (hg.size c hc)

variable (d)

/-- Over a coset, evaluation gives the values at its points and interpolation gives back the
coefficients; columns are interpolated by the only polynomials below the size, which extend them to
a larger coset. -/
theorem evaluateOver_interpolate_inverse (hoffset : D.offset ≠ 0) :
    (∀ (g : Grid d.Carrier) (m : Nat), m ≤ D.size → g.HasRows m → ∃ values,
      g.mapM (evaluateOver · D) = .ok values ∧ values.flat = g.flat ∧ values.HasRows D.size ∧
      List.Forall₂ (Evaluates · D ·) g.columns values.columns ∧
      values.mapM (interpolate · D) = .ok (g.padded D.size)) ∧
    (∀ g : Grid d.Carrier, g.HasRows D.size → ∃ coefficients,
      g.mapM (interpolate · D) = .ok coefficients ∧ coefficients.flat = g.flat ∧
      coefficients.HasRows D.size ∧
      List.Forall₂ (fun v p => Evaluates p D v) g.columns coefficients.columns ∧
      coefficients.mapM (evaluateOver · D) = .ok g) ∧
    (∀ (wide : Domain) (g : Grid d.Carrier), D.size ≤ wide.size → g.HasRows D.size →
      ∃ coefficients codewords, g.mapM (interpolate · D) = .ok coefficients ∧
        coefficients.mapM (evaluateOver · wide) = .ok codewords ∧
        coefficients.HasRows D.size ∧ codewords.HasRows wide.size ∧
        List.Forall₂ (Extended D wide) g.columns
          (coefficients.columns.zip codewords.columns)) := by
  refine ⟨fun g m hm hg => ?_, fun g hg => ?_, fun wide g hwide hg => ?_⟩
  · exact Grid.exists_mapM_mapM hg (fun p hp => exists_values hoffset (hp.trans_le hm))
      fun v hv => (exists_coefficients hoffset hv).imp fun p h => ⟨h.1, h.2.1⟩
  · have h := Grid.exists_mapM_mapM (φ := id) (R := fun v p => Evaluates p D v) hg
      (fun v hv => exists_coefficients hoffset hv)
      fun p hp => (exists_values hoffset hp.le).imp fun v h => ⟨h.1, h.2.1⟩
    rwa [hg.mapColumns_id] at h
  · exact exists_mapM_extended hoffset hwide hg

private theorem two_le_twoAdicity : 2 ≤ Fp.twoAdicity := by decide

private def fourPoints : Domain := ⟨2, Fp.generator, two_le_twoAdicity⟩

/-- The line `5 + 3 * X` over the coset. -/
theorem evaluateOver_interpolate_inverse_of_line : fourPoints.offset ≠ 0 ∧
    (Grid.ofArray #[(5 : Fp), 3]).HasRows 2 ∧ ∃ values : Grid Fp,
      (Grid.ofArray #[5, 3]).mapM (evaluateOver · fourPoints) = .ok values ∧
      values.columns = [((List.range 4).map fun i => 5 + 3 * fourPoints.element i).toArray] ∧
      values.mapM (interpolate · fourPoints) = .ok (Grid.ofArray #[5, 3, 0, 0]) := by
  have hoffset : fourPoints.offset ≠ 0 := Fp.generator_ne_zero
  have hrows : (Grid.ofArray #[(5 : Fp), 3]).HasRows 2 := ⟨rfl, by simp [Grid.ofArray]⟩
  obtain ⟨hpadded, -, -⟩ := evaluateOver_interpolate_inverse .one hoffset
  obtain ⟨values, hvalues, -, -, hevaluates, hback⟩ := hpadded _ 2 (by decide) hrows
  refine ⟨hoffset, hrows, values, hvalues, ?_, hback⟩
  obtain ⟨v, rest, hv, hrest, hcolumns⟩ := List.forall₂_cons_left_iff.mp hevaluates
  obtain rfl := List.forall₂_nil_left_iff.mp hrest
  rw [hcolumns, ← v.toArray_toList, ← evaluates_iff.mp hv]
  refine congrArg (fun l => [List.toArray l]) (List.map_congr_left fun i _ => ?_)
  simp only [poly_cons, poly_nil, Polynomial.eval_add, Polynomial.eval_mul, Polynomial.eval_C,
    Polynomial.eval_X, zero_mul, zero_add]
  exact add_comm _ _

end Grids

end Fourier

end Interpolation

end TapeStark
