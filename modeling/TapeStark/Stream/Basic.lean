import TapeStark.Field.Tagged
import TapeStark.Machine.Program
import TapeStark.Merkle
import TapeStark.Transcript

/-! The proof stream: the items of a proof, and their bytes, bound to a transcript. -/

namespace TapeStark

/-!
What a proof consists of, and the atoms each item is written as:

    digest      length as u32, bytes
    elements    count as u32, element after element
    opening     index as u32, elements, path length as u32, digest after digest
-/

inductive Item (V : Type)
  | u32 (n : Int)
  | u64 (n : Int)
  | digest (d : ByteArray)
  | element (v : V)
  | elements (vs : List V)
  | opening (o : Opening V)

/-- A part of an item that is written and absorbed as one message. -/
inductive Atom (V : Type)
  | u32 (n : Int)
  | u64 (n : Int)
  | bytes (d : ByteArray)
  | element (v : V)

namespace Atom

variable {V : Type} [TaggedValue V]

def encode : Atom V → Except Error ByteArray
  | u32 n => Bytes.pack 4 n
  | u64 n => Bytes.pack 8 n
  | bytes d => .ok d
  | element v => .ok (TaggedValue.encode v)

end Atom

namespace Item

variable {V : Type}

/-- The same item with its values seen in another way. -/
def map {W : Type} (f : V → W) : Item V → Item W
  | u32 n => .u32 n
  | u64 n => .u64 n
  | digest d => .digest d
  | element v => .element (f v)
  | elements vs => .elements (vs.map f)
  | opening o => .opening (o.map f)

def digestAtoms (d : ByteArray) : List (Atom V) := [.u32 d.size, .bytes d]

def elementsAtoms (vs : List V) : List (Atom V) := .u32 vs.length :: vs.map .element

def atoms : Item V → List (Atom V)
  | u32 n => [.u32 n]
  | u64 n => [.u64 n]
  | digest d => digestAtoms d
  | element v => [.element v]
  | elements vs => elementsAtoms vs
  | opening o =>
    .u32 o.index :: elementsAtoms o.values ++ .u32 o.path.length :: o.path.flatMap digestAtoms

end Item

/-! The proof stream: proof bytes bound to a transcript. Every message that is written or read is
absorbed, so that the writer and a reader of its bytes draw the same challenges. -/

structure ProofStream where
  transcript : Transcript
  reading : Bool
  buffer : ByteArray
  cursor : Nat

/-- An action on a stream that may fail; the stream keeps what happened before. -/
abbrev StreamM := ExceptT Error (StateM ProofStream)

namespace ProofStream

variable (H : Hash)

def writer : ProofStream := ⟨.init H ByteArray.empty, false, ByteArray.empty, 0⟩

def reader (data : ByteArray) : ProofStream := ⟨.init H ByteArray.empty, true, data, 0⟩

def liftTranscript {α : Type} (a : TranscriptM α) : StreamM α := fun s =>
  let (r, t) := a s.transcript
  (r, { s with transcript := t })

def liftDraw {α : Type} (a : StateM Transcript α) : StreamM α := fun s =>
  let (r, t) := a s.transcript
  (.ok r, { s with transcript := t })

/-- Binds public data to the transcript without writing it. -/
def absorb (data : ByteArray) : StreamM Unit := fun s =>
  (.ok (), { s with transcript := s.transcript.put H data })

/-- Appends a message to the proof. -/
def write (data : ByteArray) : StreamM Unit := do
  if (← get).reading then throw .readOnly
  modify fun s => { s with buffer := s.buffer ++ data }
  absorb H data

/-- Takes the next bytes of the proof. -/
def read (count : Nat) : StreamM ByteArray := do
  let s ← get
  if ¬ s.reading then throw .writeOnly
  if s.cursor + count > s.buffer.size then throw (.malformed (.truncated count s.cursor))
  let data := Bytes.slice s.buffer s.cursor count
  modify fun s => { s with cursor := s.cursor + count }
  absorb H data
  return data

section Push

variable {V : Type} [TaggedValue V]

def pushAtom (a : Atom V) : StreamM Unit := do
  let data ← a.encode
  write H data

/-- Writes the atoms one by one; those before a failure stay written. -/
def pushAtoms : List (Atom V) → StreamM Unit
  | [] => pure ()
  | a :: r => do
    pushAtom H a
    pushAtoms r

def push (item : Item V) : StreamM Unit := pushAtoms H item.atoms

end Push

def pullU32 : StreamM Nat := do
  let data ← read H 4
  return Bytes.number data

def pullU64 : StreamM Nat := do
  let data ← read H 8
  return Bytes.number data

def pullDigest : StreamM ByteArray := do
  let length ← pullU32 H
  if length ≠ Hash.size then throw (.malformed (.digestLength length))
  read H length

/-- Reads so many values with one reader. -/
def pullMany {α : Type} (pull : StreamM α) : Nat → StreamM (List α)
  | 0 => pure []
  | n + 1 => do
    let x ← pull
    let rest ← pullMany pull n
    return x :: rest

section Pull

variable (F : Type) [ExtensionField F]

def pullElement : StreamM (Tagged F) := do
  let s ← get
  if ¬ s.reading then throw .writeOnly
  let (v, stop) ← Tagged.read s.buffer s.cursor
  let _ ← read H (stop - s.cursor)
  return v

def pullElements (limit : Option Int) : StreamM (List (Tagged F)) := do
  let count ← pullU32 H
  if let some limit := limit then
    if count > limit then throw (.malformed (.elementCount count limit))
  pullMany (pullElement H F) count

/-- No path is longer than this, whatever the tree. -/
def maxPathLength : Nat := 64

/-- Reads an opening of `width` values in a tree with `height` leaves. -/
def pullOpening (width height : Int) : StreamM (Opening (Tagged F)) := do
  let index ← pullU32 H
  if index ≥ height then throw (.malformed (.openingIndex index height))
  let values ← pullElements H F (some width)
  if values.length ≠ width then throw (.malformed (.openingWidth values.length width))
  let depth ← pullU32 H
  if depth > maxPathLength then throw (.malformed (.pathLength depth))
  let path ← pullMany (pullDigest H) depth
  return ⟨index, values, path⟩

end Pull

/-- Rejects bytes that are left over. -/
def finish : StreamM Unit := do
  let s ← get
  if s.cursor ≠ s.buffer.size then throw (.malformed (.trailing (s.buffer.size - s.cursor)))

/-- A count and as many words of the given width. -/
def countedWords (width : Nat) (words : List Int) : Except Error ByteArray := do
  let count ← Bytes.pack 4 words.length
  let parts ← words.mapM (Bytes.pack width)
  return count ++ Bytes.concat parts

/-- A count and as many bytes. -/
def countedBytes (data : ByteArray) : Except Error ByteArray := do
  let count ← Bytes.pack 4 data.size
  return count ++ data

/-- Binds a program with its input and output, each under its length. -/
def absorbClaim (claim : Claim) : StreamM Unit := do
  absorb H (← countedWords 8 claim.program.toList)
  absorb H (← countedBytes claim.input)
  absorb H (← countedBytes claim.output)

def sampleField (F : Type) [ExtensionField F] : StreamM F := liftDraw (Transcript.field H F)

def sampleFields (F : Type) [ExtensionField F] (n : Nat) : StreamM (Vector F n) :=
  liftDraw (Transcript.fields H F n)

def sampleIndices (count size : Int) : StreamM (List Nat) :=
  liftTranscript (Transcript.indices H count size)

/-- The state that proof of work is done for. -/
def challengeState : StreamM ByteArray := do
  return (← get).transcript.state

end ProofStream

/-! What a prover needs from the stream it writes to. -/

/-- A place that takes proof items and answers with challenges from the field `F`. -/
class Channel (F : Type) (m : Type → Type) where
  push : Item (Tagged F) → m Unit
  absorbClaim : Claim → m Unit
  sampleField : m F
  sampleFields : (n : Nat) → m (Vector F n)
  sampleIndices : Int → Int → m (List Nat)
  challengeState : m ByteArray

/-- The proof stream as a channel. -/
@[reducible] def ProofStream.channel (H : Hash) (F : Type) [ExtensionField F] :
    Channel F StreamM where
  push := ProofStream.push H
  absorbClaim := ProofStream.absorbClaim H
  sampleField := ProofStream.sampleField H F
  sampleFields := ProofStream.sampleFields H F
  sampleIndices := ProofStream.sampleIndices H
  challengeState := ProofStream.challengeState

end TapeStark
