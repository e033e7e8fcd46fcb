import TapeStark.Domain
import TapeStark.Field.Extension

/-! Polynomials by their coefficients and by their values over a domain. -/

namespace TapeStark

/-! Polynomials as arrays of coefficients, the constant term first. -/

namespace Polynomial

variable {F : Type} [ExtensionField F]

/-- The value at a point, by Horner's rule. -/
def eval (p : Array F) (x : F) : F := p.foldr (fun c acc => acc * x + c) 0

/-- Drops the zero coefficients at the end. -/
def trim (p : Array F) : Array F := p.popWhile (· = 0)

/-- The zero polynomial has degree -1. -/
def degree (p : Array F) : Int := (trim p).size - 1

/-- Synthetic division by `X - z`: the remainder, and a quotient with as many coefficients as the
dividend, the last of them zero. -/
def divide (p : List F) (z : F) : F × List F :=
  p.foldr (fun c (r, q) => (r * z + c, r :: q)) (0, [])

def quotient (p : List F) (z : F) : List F := (divide p z).2

/-- Adds `c` times the quotient of `source` by `X - z` to `target`. -/
def divideOutInto (target source : Array F) (z c : F) : Except Error (Array F) :=
  if target.size = source.size then
    .ok (List.zipWith (fun t q => t + q * c) target.toList (quotient source.toList z)).toArray
  else .error (.length (.quotient target.size source.size))

end Polynomial

namespace ElementArray

/-- The value of a polynomial, in the field that holds coefficients and point. -/
def eval (p : ElementArray) (x : Element) : Except Error Element := do
  let d := p.degree.max x.degree
  let coefficients ← p.promote d
  let point ← x.promote d
  return ⟨d, Polynomial.eval coefficients point⟩

/-- Adds a quotient to `target`, whose field has to hold the other operands. -/
def divideOutInto (target source : ElementArray) (z c : Element) : Except Error ElementArray := do
  if target.values.size ≠ source.values.size then
    throw (.length (.quotient target.values.size source.values.size))
  let coefficients ← source.promote target.degree
  let root ← z.promote target.degree
  let factor ← c.promote target.degree
  let sum ← Polynomial.divideOutInto target.values coefficients root factor
  return ⟨target.degree, sum⟩

end ElementArray

/-! The Fourier transform over a subgroup of roots of unity, and interpolation and evaluation over
cosets. A transform of extension elements uses base-field roots and so acts on each coordinate. -/

namespace Fourier

open ExtensionField

variable {F : Type} [ExtensionField F]

/-- The entries at even positions. -/
def evens {α : Type} : List α → List α
  | [] => []
  | [a] => [a]
  | a :: _ :: r => a :: evens r

/-- The entries at odd positions. -/
def odds {α : Type} : List α → List α
  | [] => []
  | [_] => []
  | _ :: b :: r => b :: odds r

/-- The values of the polynomial with coefficients `xs` at the powers of `root`, for `2^k`
coefficients and a root of order `2^k`. -/
def transform : (k : Nat) → (root : Fp) → List F → List F
  | 0, _, xs => xs
  | k + 1, root, xs =>
    let even := transform k (root * root) (evens xs)
    let odd := List.zipWith scale (powers root (Nat.pow 2 k)) (transform k (root * root) (odds xs))
    List.zipWith (· + ·) even odd ++ List.zipWith (· - ·) even odd

/-- From coefficients to the values at the powers of the root of unity. -/
def forward (k : Nat) (values : Array F) : Except Error (Array F) :=
  if values.size = Nat.pow 2 k then
    .ok (transform k (Fp.rootOfUnity k) values.toList).toArray
  else .error (.length (.rows (Nat.pow 2 k) values.size))

/-- From values at the powers of the root of unity back to coefficients. -/
def backward (k : Nat) (values : Array F) : Except Error (Array F) :=
  if values.size = Nat.pow 2 k then
    let count : Fp := (Fp.ofNat (Nat.pow 2 k))⁻¹
    .ok ((transform k (Fp.rootOfUnity k)⁻¹ values.toList).map (scale count)).toArray
  else .error (.length (.rows (Nat.pow 2 k) values.size))

/-- The exponent of a size that a transform exists for. -/
def logSize? (n : Int) : Except Error Nat := do
  let _ ← exactLog2 n
  let k ← Domain.logSize? n
  return k.val

/-- Multiplies the entries by `1, x, x^2, …`. -/
def scaleByPowers (x : Fp) (values : List F) : List F :=
  List.zipWith scale (powers x values.length) values

/-- The coefficients of the polynomial with these values on the domain. -/
def interpolate (values : Array F) (d : Domain) : Except Error (Array F) := do
  let coefficients ← backward d.logSize values
  if d.offset = 1 then return coefficients
  let shift ← inverse? d.offset
  return (scaleByPowers shift coefficients.toList).toArray

/-- The values of a polynomial on the domain. -/
def evaluateOver (p : Array F) (d : Domain) : Except Error (Array F) :=
  if p.size > d.size then .error (.length (.coefficients p.size d.size))
  else
    let shifted := scaleByPowers d.offset p.toList
    forward d.logSize (shifted ++ List.replicate (d.size - p.size) 0).toArray

/-- The coefficients of the polynomial with these values on `trace`, and its values on `wide`. -/
def extend (values : Array F) (trace wide : Domain) : Except Error (Array F × Array F) := do
  let coefficients ← interpolate values trace
  let codeword ← evaluateOver coefficients wide
  return (coefficients, codeword)

end Fourier

/-- The values of a polynomial of either field on a domain. -/
def ElementArray.over (p : ElementArray) (d : Domain) : Except Error ElementArray := do
  let values ← Fourier.evaluateOver p.values d
  return ⟨p.degree, values⟩

end TapeStark
