import TapeStark.Buffer
import TapeStark.Field.Extension
import TapeStark.Grid

/-! Values that carry a tag for the field they belong to, and their bytes: the tag, then the
coordinates as little-endian words. -/

namespace TapeStark

inductive Kind
  | fp | fx
  deriving DecidableEq, Repr

namespace Kind

def tag : Kind → UInt8
  | fp => 0
  | fx => 1

def ofInt (n : Int) : Except Error Kind :=
  if n = 0 then .ok fp else if n = 1 then .ok fx else .error .unknownKind

def ofTag (tag : UInt8) : Except Error Kind :=
  if tag = fp.tag then .ok fp
  else if tag = fx.tag then .ok fx
  else .error (.malformed (.tagUnknown tag.toNat))

def name : Kind → String
  | fp => "fp"
  | fx => "fx"

end Kind

/-- Values with a kind and coordinates over the base field. -/
class TaggedValue (V : Type) where
  kind : V → Kind
  limbs : V → List Fp

namespace TaggedValue

variable {V : Type} [TaggedValue V]

/-- The coordinates as little-endian words, without the tag. -/
def limbBytes (v : V) : ByteArray :=
  Bytes.concat ((limbs v).map fun a => Bytes.little 8 a.val)

def encode (v : V) : ByteArray :=
  [(kind v).tag].toByteArray ++ limbBytes v

def text (v : V) : String :=
  s!"FieldVariant.{(kind v).name}(" ++ Text.numbers ((limbs v).map Fp.val) ++ ")"

end TaggedValue

/-- A base-field element or an element of the extension `F`. -/
inductive Tagged (F : Type)
  | fp (a : Fp)
  | fx (a : F)

namespace Tagged

variable {F : Type} [ExtensionField F]

instance : TaggedValue (Tagged F) where
  kind
    | fp _ => .fp
    | fx _ => .fx
  limbs
    | fp a => [a]
    | fx a => (ExtensionField.limbs a).toList

/-- The value as an element of the extension. -/
def lift : Tagged F → F
  | fp a => ExtensionField.ofBase a
  | fx a => a

/-- Two base-field operands give a base-field result; all else happens in the extension. -/
def combine (onBase : Fp → Fp → Fp) (onExtension : F → F → F) : Tagged F → Tagged F → Tagged F
  | fp a, fp b => fp (onBase a b)
  | a, b => fx (onExtension a.lift b.lift)

instance : Add (Tagged F) := ⟨combine (· + ·) (· + ·)⟩
instance : Sub (Tagged F) := ⟨combine (· - ·) (· - ·)⟩
instance : Mul (Tagged F) := ⟨combine (· * ·) (· * ·)⟩

instance : Neg (Tagged F) where
  neg
    | fp a => fp (-a)
    | fx a => fx (-a)

def isZero : Tagged F → Bool
  | fp a => a = 0
  | fx a => a = 0

def inverse (v : Tagged F) : Except Error (Tagged F) :=
  if v.isZero then .error .zeroInverse
  else
    match v with
    | fp a => .ok (fp a⁻¹)
    | fx a => .ok (fx a⁻¹)

def divide (a b : Tagged F) : Except Error (Tagged F) := do
  let c ← b.inverse
  return a * c

def pow (v : Tagged F) (n : Int) : Except Error (Tagged F) :=
  if n < 0 then .error .negativeExponent
  else
    match v with
    | fp a => .ok (fp (power a n.toNat))
    | fx a => .ok (fx (power a n.toNat))

/-- Equality of values, whatever their kinds. -/
def same : Tagged F → Tagged F → Bool
  | fp a, fp b => a = b
  | a, b => a.lift = b.lift

/-- The number of coordinates of a value. -/
def width (F : Type) [ExtensionField F] : Kind → Nat
  | .fp => ExtensionField.degree Fp
  | .fx => ExtensionField.degree F

def ofLimbs : (k : Kind) → Vector Fp (width F k) → Tagged F
  | .fp, limbs => fp (ExtensionField.ofLimbs limbs)
  | .fx, limbs => fx (ExtensionField.ofLimbs limbs)

/-- Coordinates from words, each of which is a reduced representative. -/
def limbsOfWords (width : Nat) (word : Nat → Nat) : Except Error (Vector Fp width) :=
  if h : ∀ k : Fin width, word k < prime then .ok (Vector.ofFn fun k => ⟨word k, h k⟩)
  else .error (.malformed .notCanonical)

/-- Reads `width` words from `offset` on. -/
def readLimbs (buffer : ByteArray) (offset width : Nat) : Except Error (Vector Fp width) :=
  if offset + 8 * width > buffer.size then .error (.malformed .payloadMissing)
  else limbsOfWords width fun k => Bytes.number (Bytes.slice buffer (offset + 8 * k) 8)

/-- Reads a tagged element at `offset` and the offset behind it. -/
def read (buffer : ByteArray) (offset : Nat) : Except Error (Tagged F × Nat) :=
  match buffer[offset]? with
  | none => .error (.malformed .tagMissing)
  | some tag => do
    let kind ← Kind.ofTag tag
    let limbs ← readLimbs buffer (offset + 1) (width F kind)
    return (ofLimbs kind limbs, offset + 1 + 8 * width F kind)

/-- Reads from an offset that may count from the end. The offset behind the element is counted on
from there, and a word may not cross the end. -/
def readFrom (buffer : ByteArray) (offset : Int) : Except Error (Tagged F × Int) :=
  if 0 ≤ offset then do
    let (v, stop) ← read buffer offset.toNat
    return (v, stop)
  else do
    let tag ← entryAt buffer.data offset
    let kind ← Kind.ofTag tag
    let stop := offset + 1 + 8 * width F kind
    if stop > buffer.size then throw (.malformed .payloadMissing)
    let words ← (List.range (width F kind)).mapM fun (k : Nat) =>
      Bytes.wordAt buffer (offset + 1 + 8 * k)
    let limbs ← limbsOfWords (width F kind) fun k => words.getD k 0
    return (ofLimbs kind limbs, stop)

/-- Reads an element that takes up all of the bytes. -/
def ofBytes (data : ByteArray) : Except Error (Tagged F) := do
  let (v, stop) ← read data 0
  if stop = data.size then return v else throw (.malformed .afterElement)

end Tagged

/-- A tag beside an element of either field. -/
structure Variant where
  kind : Kind
  value : Element

namespace Variant

instance : TaggedValue Variant where
  kind v := v.kind
  limbs v := (ExtensionField.limbs v.value.value).toList

/-- The value as a tagged element for an extension of the given degree. -/
def tagged (target : Degree) (v : Variant) : Except Error (Tagged target.Carrier) :=
  match v.kind with
  | .fp => do
    let a ← v.value.promote .one
    return .fp a
  | .fx => do
    let a ← v.value.promote target
    return .fx a

def ofTagged {d : Degree} : Tagged d.Carrier → Variant
  | .fp a => ⟨.fp, .ofBase a⟩
  | .fx a => ⟨.fx, ⟨d, a⟩⟩

/-- Brings two values into one field, the one of the value tagged as an extension element. Values
tagged alike have to be of one field already. -/
def together (a b : Variant) :
    Except Error ((d : Degree) × Tagged d.Carrier × Tagged d.Carrier) := do
  if a.kind = b.kind ∧ a.value.degree ≠ b.value.degree then throw .fieldMismatch
  let d := if a.kind = .fx then a.value.degree else b.value.degree
  let x ← a.tagged d
  let y ← b.tagged d
  return ⟨d, x, y⟩

/-- The sum lies in the extension unless both operands are tagged as base elements. -/
def add (a b : Variant) : Except Error Variant := do
  let ⟨_, x, y⟩ ← together a b
  return ofTagged (x + y)

/-- The divisor is inverted in its own field before the operands come together. -/
def divide (a b : Variant) : Except Error Variant := do
  let ⟨_, divisor, _⟩ ← together b b
  let inverse ← divisor.inverse
  let ⟨_, x, y⟩ ← together a (ofTagged inverse)
  return ofTagged (x * y)

end Variant

end TapeStark
