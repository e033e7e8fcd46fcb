import TapeStark.Field.Tagged
import TapeStark.Hash

/-! The Fiat-Shamir transcript: a running digest that every message replaces, and from which
challenges are squeezed under a counter that starts again with each message. -/

namespace TapeStark

structure Transcript where
  state : ByteArray
  /-- The blocks squeezed since the last message. -/
  squeezed : Nat

/-- An action on a transcript that may fail; the transcript keeps what happened before. -/
abbrev TranscriptM := ExceptT Error (StateM Transcript)

namespace Transcript

def separator : ByteArray := "bfstark-transcript-v1".toUTF8

variable (H : Hash)

def init (seed : ByteArray) : Transcript := ⟨H.digest (separator ++ seed), 0⟩

/-- The bytes hashed to absorb a message. -/
def putMessage (state data : ByteArray) : ByteArray :=
  state ++ Bytes.little 8 data.size ++ data

def put (t : Transcript) (data : ByteArray) : Transcript :=
  ⟨H.digest (putMessage t.state data), 0⟩

/-- The bytes hashed to squeeze a block; the byte 255 stands where no length reaches. -/
def squeezeMessage (state : ByteArray) (counter : Nat) : ByteArray :=
  state ++ [255].toByteArray ++ Bytes.little 8 counter

def block (t : Transcript) (counter : Nat) : ByteArray :=
  H.digest (squeezeMessage t.state counter)

/-- Squeezes blocks behind a string for as long as it has fewer bits than these. -/
def squeeze (bits : Int) (stream : ByteArray) : StateM Transcript ByteArray := fun t =>
  if stream.size * 8 < bits then
    squeeze bits (stream ++ t.block H t.squeezed) { t with squeezed := t.squeezed + 1 }
  else (stream, t)
termination_by (bits - stream.size * 8).toNat
decreasing_by
  rw [ByteArray.size_append, block, H.size_digest]
  omega

/-- A block's first sixteen bytes, reduced modulo the prime. -/
def ofBlock (b : ByteArray) : Fp := Fp.ofNat (Bytes.number (Bytes.slice b 0 16))

/-- The challenge whose coordinates come from the blocks from `counter` on. -/
def fieldAt (F : Type) [ExtensionField F] (t : Transcript) (counter : Nat) : F :=
  ExtensionField.ofLimbs (Vector.ofFn fun i => ofBlock (t.block H (counter + i)))

/-- Squeezes one challenge, a block for each of its coordinates. -/
def field (F : Type) [ExtensionField F] : StateM Transcript F := fun t =>
  (t.fieldAt H F t.squeezed, { t with squeezed := t.squeezed + ExtensionField.degree F })

def fields (F : Type) [ExtensionField F] (n : Nat) : StateM Transcript (Vector F n) := fun t =>
  let k := ExtensionField.degree F
  (Vector.ofFn fun i => t.fieldAt H F (t.squeezed + i * k),
    { t with squeezed := t.squeezed + n * k })

/-- Values of `bits` bits each, cut one after the other from fresh blocks. A negative width fails
after the blocks are squeezed. -/
def chunks (count bits : Int) : TranscriptM (List Nat) := do
  let stream ← squeeze H (count * bits) ByteArray.empty
  if bits < 0 then throw .negativeShift
  let pool := Bytes.number stream
  return (List.range count.toNat).map fun i =>
    (pool >>> (i * bits.toNat)) % Nat.pow 2 bits.toNat

/-- Draws indices below a power of two and drops repeats. -/
def indices (count size : Int) : TranscriptM (List Nat) := do
  if size = 0 then throw .negativeShift
  let bits := size.natAbs.log2
  if size ≠ Nat.pow 2 bits then throw (.sampleSize size)
  let drawn ← chunks H count bits
  return drawn.eraseDups

/-- A transcript belongs to one proof and has no copies. -/
def copy : TranscriptM Unit := throw .transcriptCopy

end Transcript

end TapeStark
