import TapeStark.Error
import TapeStark.Field.Base

/-!
The cubic extension, fields that contain the base field in general, and values whose field is known
only at run time.
-/

namespace TapeStark

/-! The cubic extension of the base field by a root of x^3 - x - 1. -/

/-- The element `c0 + c1 x + c2 x^2`, where `x^3 = x + 1`. -/
@[ext] structure Fp3 where
  c0 : Fp
  c1 : Fp
  c2 : Fp
  deriving DecidableEq

namespace Fp3

def ofBase (a : Fp) : Fp3 := ⟨a, 0, 0⟩

def scale (a : Fp) (b : Fp3) : Fp3 := ⟨a * b.c0, a * b.c1, a * b.c2⟩

instance : Zero Fp3 := ⟨ofBase 0⟩
instance : One Fp3 := ⟨ofBase 1⟩
instance : Add Fp3 := ⟨fun a b => ⟨a.c0 + b.c0, a.c1 + b.c1, a.c2 + b.c2⟩⟩
instance : Sub Fp3 := ⟨fun a b => ⟨a.c0 - b.c0, a.c1 - b.c1, a.c2 - b.c2⟩⟩
instance : Neg Fp3 := ⟨fun a => ⟨-a.c0, -a.c1, -a.c2⟩⟩

/-- The product of the polynomials, with `x^3` replaced by `x + 1` and `x^4` by `x^2 + x`. -/
instance : Mul Fp3 := ⟨fun a b =>
  let d3 := a.c1 * b.c2 + a.c2 * b.c1
  let d4 := a.c2 * b.c2
  ⟨a.c0 * b.c0 + d3,
   a.c0 * b.c1 + a.c1 * b.c0 + d3 + d4,
   a.c0 * b.c2 + a.c1 * b.c1 + a.c2 * b.c0 + d4⟩⟩

/-- The element whose product with `a` is the norm of `a`: the first column of the adjugate of
the matrix of multiplication by `a`. -/
def cofactor (a : Fp3) : Fp3 :=
  let s := a.c0 + a.c2
  let t := a.c1 + a.c2
  ⟨s * s - a.c1 * t, a.c2 * t - a.c1 * s, a.c1 * a.c1 - a.c2 * s⟩

/-- The determinant of multiplication by `a`. -/
def norm (a : Fp3) : Fp :=
  let b := cofactor a
  a.c0 * b.c0 + a.c2 * b.c1 + a.c1 * b.c2

/-- Zero is sent to zero. -/
instance : Inv Fp3 := ⟨fun a => scale (norm a)⁻¹ (cofactor a)⟩

end Fp3

/-! Fields that contain the base field, with their coordinates over it. Protocol code is written for
any of them; the base field is one of itself. -/

/-- The operations of a field that contains the base field as a space of dimension `degree`. -/
class ExtensionField (F : Type) extends Zero F, One F, Add F, Sub F, Mul F, Neg F, Inv F where
  ofBase : Fp → F
  scale : Fp → F → F
  degree : Nat
  limbs : F → Vector Fp degree
  ofLimbs : Vector Fp degree → F
  decEq : DecidableEq F

instance {F : Type} [ExtensionField F] : DecidableEq F := ExtensionField.decEq

instance : ExtensionField Fp where
  ofBase a := a
  scale a b := a * b
  degree := 1
  limbs a := #v[a]
  ofLimbs v := v[0]
  decEq := inferInstance

instance : ExtensionField Fp3 where
  ofBase := Fp3.ofBase
  scale := Fp3.scale
  degree := 3
  limbs a := #v[a.c0, a.c1, a.c2]
  ofLimbs v := ⟨v[0], v[1], v[2]⟩
  decEq := inferInstance

namespace ExtensionField

variable {F : Type} [ExtensionField F]

def natCast (n : Nat) : F := ofBase (Fp.ofNat n)

/-- The element whose coordinates are the digits of an integer to base `prime`, the lowest first;
none for an integer that has more digits or is negative. -/
def ofInt? (n : Int) : Option F :=
  if 0 ≤ n ∧ n < Nat.pow prime (degree F) then
    some (ofLimbs (Vector.ofFn fun k => Fp.ofNat (n.toNat / Nat.pow prime k)))
  else none

/-- The integer whose digits to base `prime` are the coordinates. -/
def toNat (x : F) : Nat := (limbs x).toList.foldr (fun a n => a.val + prime * n) 0

/-- Fails at zero instead of sending it to zero. -/
def inverse? (x : F) : Except Error F :=
  if x = 0 then .error .divisionByZero else .ok x⁻¹

/-- Inverts every element; the first zero is reported with its position. -/
def batchInverse (xs : Array F) : Except Error (Array F) :=
  match xs.findIdx? (· = 0) with
  | some i => .error (.zeroAt i)
  | none => .ok (xs.map (·⁻¹))

end ExtensionField

/-! The choice between the base field and its cubic extension, and elements whose field is known
only at run time. -/

/-- Which of the two fields challenges are drawn from. -/
inductive Degree
  | one | three
  deriving DecidableEq, Repr

namespace Degree

def ofInt (n : Int) : Except Error Degree :=
  if n = 1 then .ok one else if n = 3 then .ok three else .error (.extensionDegree n)

def toNat : Degree → Nat
  | one => 1
  | three => 3

/-- The bits of a challenge. -/
def bits (d : Degree) : Nat := 64 * d.toNat

abbrev Carrier : Degree → Type
  | one => Fp
  | three => Fp3

instance instExtension : (d : Degree) → ExtensionField d.Carrier
  | one => inferInstanceAs (ExtensionField Fp)
  | three => inferInstanceAs (ExtensionField Fp3)

def max : Degree → Degree → Degree
  | one, d => d
  | three, _ => three

end Degree

/-- An element of one of the two fields. -/
structure Element where
  degree : Degree
  value : degree.Carrier

namespace Element

def ofBase (a : Fp) : Element := ⟨.one, a⟩

/-- Carries an element into a field, if its own field lies inside. -/
def promote (target : Degree) : Element → Except Error target.Carrier
  | ⟨.one, a⟩ => .ok (ExtensionField.ofBase a)
  | ⟨.three, a⟩ =>
    match target with
    | .three => .ok a
    | .one => .error .cannotEmbed

end Element

/-- A list of elements of one of the two fields. -/
structure ElementArray where
  degree : Degree
  values : Array degree.Carrier

namespace ElementArray

def promote (target : Degree) : ElementArray → Except Error (Array target.Carrier)
  | ⟨.one, xs⟩ => .ok (xs.map ExtensionField.ofBase)
  | ⟨.three, xs⟩ =>
    match target with
    | .three => .ok xs
    | .one => .error .cannotEmbed

/-- The same elements in another field. -/
def carry (target : Degree) (xs : ElementArray) : Except Error ElementArray := do
  let values ← xs.promote target
  return ⟨target, values⟩

end ElementArray

/-! Arithmetic between operands whose fields are known only at run time. The two fields do not mix:
an operation needs both operands in one of them. Arrays combine entry by entry, and an array with a
single entry stretches over any other. -/

/-- Values of either field, on which the ring operations may fail. -/
class FieldValue (V : Type) where
  degree : V → Degree
  ofElement : Element → V
  /-- Applies one and the same operation in whichever field both operands lie. -/
  combine : ({F : Type} → [ExtensionField F] → F → F → F) → V → V → Except Error V

namespace FieldValue

variable {V : Type} [FieldValue V]

def add (a b : V) : Except Error V := combine (· + ·) a b

def sub (a b : V) : Except Error V := combine (· - ·) a b

def mul (a b : V) : Except Error V := combine (· * ·) a b

end FieldValue

namespace Element

/-- The element, which has to lie in this very field. -/
def inField (target : Degree) : Element → Except Error target.Carrier
  | ⟨d, a⟩ =>
    match d, target, a with
    | .one, .one, a => .ok a
    | .three, .three, a => .ok a
    | _, _, _ => .error .fieldMismatch

def combine (f : {F : Type} → [ExtensionField F] → F → F → F) (a b : Element) :
    Except Error Element := do
  let y ← b.inField a.degree
  return ⟨a.degree, f a.value y⟩

instance : FieldValue Element where
  degree := Element.degree
  ofElement a := a
  combine := combine

def natCast (d : Degree) (n : Nat) : Element := ⟨d, ExtensionField.natCast n⟩

instance : Neg Element := ⟨fun a => ⟨a.degree, -a.value⟩⟩

/-- Works with the zero and the one of a field. -/
def within {α : Type} (d : Degree) (f : [Zero Element] → [One Element] → α) : α :=
  @f ⟨⟨d, 0⟩⟩ ⟨⟨d, 1⟩⟩

/-- `1, x, x^2, …`, with `n` entries; a negative count has no array. -/
def powers (x : Element) (n : Int) : Except Error ElementArray :=
  if n < 0 then .error .shapeMismatch
  else .ok ⟨x.degree, (TapeStark.powers x.value n.toNat).toArray⟩

/-- Carries an element into another field. Into the smaller one it goes by the integer that it
stands for, which has to be a representative there. -/
def store (target : Degree) (a : Element) : Except Error target.Carrier :=
  match target with
  | .three => a.promote .three
  | .one =>
    match ExtensionField.ofInt? (ExtensionField.toNat a.value) with
    | some b => .ok b
    | none => .error .outOfField

end Element

namespace ElementArray

/-- Applies an operation to the entries at each place of two arrays. -/
def zipEntries {F : Type} (f : F → F → F) (xs ys : Array F) : Except Error (Array F) :=
  if xs.size = ys.size then .ok (xs.zipWith f ys)
  else
    match xs.toList, ys.toList with
    | [x], _ => .ok (ys.map fun y => f x y)
    | _, [y] => .ok (xs.map fun x => f x y)
    | _, _ => .error .shapeMismatch

def combine (f : {F : Type} → [ExtensionField F] → F → F → F) :
    ElementArray → ElementArray → Except Error ElementArray
  | ⟨.one, xs⟩, ⟨.one, ys⟩ => return ⟨.one, ← zipEntries f xs ys⟩
  | ⟨.three, xs⟩, ⟨.three, ys⟩ => return ⟨.three, ← zipEntries f xs ys⟩
  | _, _ => .error .fieldMismatch

instance : FieldValue ElementArray where
  degree := ElementArray.degree
  ofElement a := ⟨a.degree, #[a.value]⟩
  combine := combine

def elements (xs : ElementArray) : List Element := xs.values.toList.map (Element.mk xs.degree)

/-- Turns the array so that the entry `stride` places on comes first. -/
def rotate (stride : Int) (xs : ElementArray) : ElementArray :=
  let k := (stride % xs.values.size).toNat
  ⟨xs.degree, xs.values.extract k xs.values.size ++ xs.values.extract 0 k⟩

/-- The same entries stored in another field. -/
def store (target : Degree) (xs : ElementArray) : Except Error (Array target.Carrier) := do
  let values ← xs.elements.mapM fun a => a.store target
  return values.toArray

end ElementArray

end TapeStark
