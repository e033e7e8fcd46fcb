import TapeStark.Buffer
import TapeStark.Grid
import TapeStark.Stream.Basic

/-!
Proofs that deviate from the protocol: a prover whose values are replaced on the way to the stream,
and bytes that are changed behind it.
-/

namespace TapeStark

/-! A writing stream that keeps a log and may replace values before they are written: the channel of
a prover that deviates from the protocol. -/

/-- What happens on a channel. -/
inductive Event
  /-- An item, and the offset that it is written at. -/
  | pushed (offset : Nat) (item : Item Variant)
  | drawn (x : Element)
  | drawnList (xs : List Element)
  | indices (count size : Int) (drawn : List Nat)
  | state (s : ByteArray)

/-- Changes the value that comes after `skip` others of its sort; with a negative count, none. -/
structure Forgery (α : Type) where
  skip : Int
  change : α → Except Error α

/-- The value to write, and the forgeries that are left for later ones. -/
def Forgery.next {α : Type} (fs : List (Forgery α)) (a : α) : Except Error α × List (Forgery α) :=
  (match fs.find? (·.skip = 0) with
    | some f => f.change a
    | none => .ok a,
    (fs.filter (·.skip ≠ 0)).map fun f => { f with skip := f.skip - 1 })

/-- Forgeries by the sort of value they change, wherever it stands in an item. -/
structure Forgeries where
  u32 : List (Forgery Int)
  u64 : List (Forgery Int)
  digest : List (Forgery ByteArray)
  element : List (Forgery Variant)

namespace Forgeries

variable (fs : Forgeries) (skip : Int)

def none : Forgeries := ⟨[], [], [], []⟩

/-- Puts another number in the place of a short one. -/
def setU32 (n : Int) : Forgeries := { fs with u32 := ⟨skip, fun _ => .ok n⟩ :: fs.u32 }

/-- Puts another number in the place of a long one. -/
def setU64 (n : Int) : Forgeries := { fs with u64 := ⟨skip, fun _ => .ok n⟩ :: fs.u64 }

/-- Puts another digest in the place of one. -/
def setDigest (d : ByteArray) : Forgeries :=
  { fs with digest := ⟨skip, fun _ => .ok d⟩ :: fs.digest }

/-- Adds to an element. -/
def addElement (v : Variant) : Forgeries :=
  { fs with element := ⟨skip, (·.add v)⟩ :: fs.element }

/-- An action that uses up forgeries and may fail. -/
abbrev Action := ExceptT Error (StateM Forgeries)

def forgeDigest (d : ByteArray) : Action ByteArray := fun fs =>
  let (d, digest) := Forgery.next fs.digest d
  (d, { fs with digest })

def forgeAtom : Atom Variant → Action (Atom Variant)
  | .u32 n => fun fs =>
    let (n, u32) := Forgery.next fs.u32 n
    (n.map .u32, { fs with u32 })
  | .u64 n => fun fs =>
    let (n, u64) := Forgery.next fs.u64 n
    (n.map .u64, { fs with u64 })
  | .bytes d => pure (.bytes d)
  | .element v => fun fs =>
    let (v, element) := Forgery.next fs.element v
    (v.map .element, { fs with element })

/-- Changes the digests of an item. -/
def forgeDigests : Item Variant → Action (Item Variant)
  | .digest d => .digest <$> forgeDigest d
  | .opening o => do
    let path ← o.path.mapM forgeDigest
    return .opening { o with path }
  | item => pure item

end Forgeries

/-- The item as the log has it: a single value as it is written, a list as it was asked for. -/
def Item.written {V : Type} : Item V → List (Atom V) → Item V
  | .u32 _, [.u32 n] => .u32 n
  | .u64 _, [.u64 n] => .u64 n
  | .element _, [.element v] => .element v
  | item, _ => item

/-- A stream with its log and the forgeries still to be made. -/
structure Recorder where
  stream : ProofStream
  forgeries : Forgeries
  events : Array Event

namespace Recorder

/-- An action that is recorded. -/
abbrev Action := ExceptT Error (StateM Recorder)

def init (H : Hash) (forgeries : Forgeries) : Recorder := ⟨.writer H, forgeries, #[]⟩

def onStream {α : Type} (a : StreamM α) : Action α := fun r =>
  let (x, stream) := a r.stream
  (x, { r with stream })

def log (e : Event) : Action Unit := modify fun r => { r with events := r.events.push e }

def forge {α : Type} (a : Forgeries.Action α) : Action α := fun r =>
  let (x, forgeries) := a r.forgeries
  (x, { r with forgeries })

def push (H : Hash) (item : Item Variant) : Action Unit := do
  let item ← forge (Forgeries.forgeDigests item)
  let atoms ← forge (item.atoms.mapM Forgeries.forgeAtom)
  let r ← get
  log (.pushed r.stream.buffer.size (item.written atoms))
  onStream (ProofStream.pushAtoms H atoms)

/-- Logs what an action on the stream answers. -/
def logged {α : Type} (event : α → Event) (a : StreamM α) : Action α := do
  let x ← onStream a
  log (event x)
  return x

/-- The recorder as a channel. -/
@[reducible] def channel (H : Hash) (d : Degree) : Channel d.Carrier Action where
  push item := push H (item.map Variant.ofTagged)
  absorbClaim claim := onStream (ProofStream.absorbClaim H claim)
  sampleField := logged (fun x => .drawn ⟨d, x⟩) (ProofStream.sampleField H d.Carrier)
  sampleFields n :=
    logged (fun v => .drawnList (v.toList.map (Element.mk d)))
      (ProofStream.sampleFields H d.Carrier n)
  sampleIndices count size :=
    logged (.indices count size) (ProofStream.sampleIndices H count size)
  challengeState := logged .state ProofStream.challengeState

/-- The offset of the last item of a sort. -/
def lastOffset (r : Recorder) (sort : Item Variant → Bool) : Option Nat :=
  r.events.toList.reverse.findSome? fun
    | .pushed offset item => if sort item then some offset else none
    | _ => none

/-- Where the last polynomial, the nonce and the number of queries stand in a whole proof. -/
def marks (r : Recorder) : List (String × Nat) :=
  let mark (name : String) (sort : Item Variant → Bool) : List (String × Nat) :=
    ((r.lastOffset sort).map fun offset => (name, offset)).toList
  ("start", 0) :: mark "final" (fun | .elements _ => true | _ => false) ++
    mark "nonce" (fun | .u64 _ => true | _ => false) ++
    mark "count" (fun | .u32 _ => true | _ => false)

/-- The last state that was asked for. -/
def lastState (r : Recorder) : ByteArray :=
  (r.events.toList.reverse.findSome? fun
    | .state s => some s
    | _ => none).getD ByteArray.empty

end Recorder

/-! Changes to the bytes of a proof, as an attacker may make them. -/

/-- A change at a position. -/
inductive Edit
  | xor (byte : Int)
  | overwrite (data : ByteArray)
  | insert (data : ByteArray)
  | delete (count : Nat)
  /-- Cuts everything from the position on. -/
  | truncate
  /-- Adds behind the end, wherever the position is. -/
  | append (data : ByteArray)

namespace Edit

/-- Puts `data` in the place of `count` bytes. -/
def splice (b : ByteArray) (i count : Nat) (data : ByteArray) : ByteArray :=
  b.extract 0 i ++ data ++ b.extract (i + count) b.size

/-- A position below zero counts from the end. Only a byte that is there can be combined with
another. -/
def apply (e : Edit) (position : Int) (b : ByteArray) : Except Error ByteArray :=
  let i := (if position < 0 then position + b.size else position).toNat
  match e with
  | xor byte => do
    let old ← entryAt b.data position
    if byte < 0 ∨ 255 < byte then throw .noByte
    return ⟨b.data.modify i fun _ => old ^^^ .ofNat byte.toNat⟩
  | overwrite data => .ok (splice b i data.size data)
  | insert data => .ok (splice b i 0 data)
  | delete count => .ok (splice b i count ByteArray.empty)
  | truncate => .ok (b.extract 0 i)
  | append data => .ok (b ++ data)

end Edit

end TapeStark
