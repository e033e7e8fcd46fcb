import TapeStark.Buffer

/-! The BLAKE2b hash, and hashing as the protocol uses it. -/

namespace TapeStark

/-! The BLAKE2b hash with a 32-byte digest and an optional personalisation of up to 16 bytes. The
sixteen working words stand in four rows of four, so that the column step is one mix of rows and the
diagonal step is the same mix on turned rows. -/

namespace Blake2b

structure Row where
  w0 : UInt64
  w1 : UInt64
  w2 : UInt64
  w3 : UInt64

namespace Row

def map (f : UInt64 → UInt64) (a : Row) : Row := ⟨f a.w0, f a.w1, f a.w2, f a.w3⟩

def zip (f : UInt64 → UInt64 → UInt64) (a b : Row) : Row :=
  ⟨f a.w0 b.w0, f a.w1 b.w1, f a.w2 b.w2, f a.w3 b.w3⟩

instance : Add Row := ⟨zip (· + ·)⟩

def xor : Row → Row → Row := zip (· ^^^ ·)

def rotateRight (k : UInt64) : Row → Row := map fun w => (w >>> k) ||| (w <<< (64 - k))

def turn1 (a : Row) : Row := ⟨a.w1, a.w2, a.w3, a.w0⟩
def turn2 (a : Row) : Row := ⟨a.w2, a.w3, a.w0, a.w1⟩
def turn3 (a : Row) : Row := ⟨a.w3, a.w0, a.w1, a.w2⟩

end Row

structure State where
  a : Row
  b : Row
  c : Row
  d : Row

namespace State

/-- Mixes two rows of message words into the four columns. -/
def mix (s : State) (x y : Row) : State :=
  let a := s.a + s.b + x
  let d := (s.d.xor a).rotateRight 32
  let c := s.c + d
  let b := (s.b.xor c).rotateRight 24
  let a := a + b + y
  let d := (d.xor a).rotateRight 16
  let c := c + d
  let b := (b.xor c).rotateRight 63
  ⟨a, b, c, d⟩

/-- Moves every diagonal into a column. -/
def turn (s : State) : State := ⟨s.a, s.b.turn1, s.c.turn2, s.d.turn3⟩

def unturn (s : State) : State := ⟨s.a, s.b.turn3, s.c.turn2, s.d.turn1⟩

end State

/-- The order in which the message words enter each round. -/
def schedule : List (List Nat) :=
  [[0, 1, 2, 3, 4, 5, 6, 7, 8, 9, 10, 11, 12, 13, 14, 15],
   [14, 10, 4, 8, 9, 15, 13, 6, 1, 12, 0, 2, 11, 7, 5, 3],
   [11, 8, 12, 0, 5, 2, 15, 13, 10, 14, 3, 6, 7, 1, 9, 4],
   [7, 9, 3, 1, 13, 12, 11, 14, 2, 6, 5, 10, 4, 0, 15, 8],
   [9, 0, 5, 7, 2, 4, 10, 15, 14, 1, 11, 12, 6, 8, 3, 13],
   [2, 12, 6, 10, 0, 11, 8, 3, 4, 13, 7, 5, 15, 14, 1, 9],
   [12, 5, 1, 15, 14, 13, 4, 10, 0, 7, 6, 3, 9, 2, 8, 11],
   [13, 11, 7, 14, 12, 1, 3, 9, 5, 0, 15, 4, 8, 6, 2, 10],
   [6, 15, 14, 9, 11, 3, 0, 8, 12, 2, 13, 7, 1, 4, 10, 5],
   [10, 2, 8, 4, 7, 6, 1, 5, 15, 11, 9, 14, 3, 12, 13, 0],
   [0, 1, 2, 3, 4, 5, 6, 7, 8, 9, 10, 11, 12, 13, 14, 15],
   [14, 10, 4, 8, 9, 15, 13, 6, 1, 12, 0, 2, 11, 7, 5, 3]]

/-- One round: the columns take the first eight scheduled words, the diagonals the last eight. -/
def round (m : Array UInt64) (s : State) (order : List Nat) : State :=
  match order.map fun i => m.getD i 0 with
  | [m0, m1, m2, m3, m4, m5, m6, m7, m8, m9, m10, m11, m12, m13, m14, m15] =>
    let s := s.mix ⟨m0, m2, m4, m6⟩ ⟨m1, m3, m5, m7⟩
    (s.turn.mix ⟨m8, m10, m12, m14⟩ ⟨m9, m11, m13, m15⟩).unturn
  | _ => s

def iv0 : Row :=
  ⟨0x6a09e667f3bcc908, 0xbb67ae8584caa73b, 0x3c6ef372fe94f82b, 0xa54ff53a5f1d36f1⟩

def iv1 : Row :=
  ⟨0x510e527fade682d1, 0x9b05688c2b3e6c1f, 0x1f83d9abfb41bd6b, 0x5be0cd19137e2179⟩

/-- The little-endian word at `offset`; bytes behind the end count as zero. -/
def word (data : ByteArray) (offset : Nat) : UInt64 :=
  (List.range 8).foldr
    (fun k acc => (acc <<< 8) ||| (data.data.getD (offset + k) 0).toUInt64) 0

/-- The two rows of the chaining value. -/
structure Chain where
  low : Row
  high : Row

/-- Absorbs the block at `offset`; `count` is the number of message bytes up to its end. -/
def compress (h : Chain) (data : ByteArray) (offset count : Nat) (last : Bool) : Chain :=
  let m := ((List.range 16).map fun k => word data (offset + 8 * k)).toArray
  let tail : Row := ⟨count.toUInt64, 0, if last then 0xffffffffffffffff else 0, 0⟩
  let s := schedule.foldl (round m) ⟨h.low, h.high, iv0, iv1.xor tail⟩
  ⟨h.low.xor (s.a.xor s.c), h.high.xor (s.b.xor s.d)⟩

/-- The parameter block: digest length 32, no key, one sequential tree node. -/
def initial (person : ByteArray) : Chain :=
  ⟨iv0.xor ⟨0x01010020, 0, 0, 0⟩, iv1.xor ⟨0, 0, word person 0, word person 8⟩⟩

def absorb (person data : ByteArray) : Chain :=
  let blocks := max 1 ((data.size + 127) / 128)
  (List.range blocks).foldl
    (fun h i =>
      let last := i + 1 == blocks
      compress h data (128 * i) (if last then data.size else 128 * (i + 1)) last)
    (initial person)

def wordBytes (w : UInt64) : List UInt8 :=
  [w.toUInt8, (w >>> 8).toUInt8, (w >>> 16).toUInt8, (w >>> 24).toUInt8,
   (w >>> 32).toUInt8, (w >>> 40).toUInt8, (w >>> 48).toUInt8, (w >>> 56).toUInt8]

/-- The digest of `data`, personalised by the first 16 bytes of `person`. -/
def digest (person data : ByteArray) : ByteArray :=
  let h := (absorb person data).low
  (wordBytes h.w0 ++ wordBytes h.w1 ++ wordBytes h.w2 ++ wordBytes h.w3).toByteArray

theorem size_digest (person data : ByteArray) : (digest person data).size = 32 := by
  simp [digest, wordBytes]

end Blake2b

/-! Hashing as the protocol uses it: leaves and nodes of commitment trees, chained parts, and proof
of work. The hash itself is a parameter; `Hash.blake2b` is the one that runs. -/

/-- A function to digests of 32 bytes, and a second one for proof of work. -/
structure Hash where
  digest : ByteArray → ByteArray
  work : ByteArray → ByteArray
  size_digest : ∀ m, (digest m).size = 32
  size_work : ∀ m, (work m).size = 32

namespace Hash

/-- The bytes of a digest. -/
def size : Nat := 32

/-- Digests separated by a personalisation of at most 16 bytes. -/
def personalised (person data : ByteArray) : Except Error ByteArray :=
  if person.size ≤ 16 then .ok (Blake2b.digest person data) else .error .personLength

def blake2b : Hash where
  digest := Blake2b.digest ByteArray.empty
  work := Blake2b.digest "bfstark-pow".toUTF8
  size_digest := Blake2b.size_digest _
  size_work := Blake2b.size_digest _

variable (H : Hash)

/-- The bytes hashed for a leaf; the leading 0 keeps them apart from those of a node. -/
def leafMessage (row : ByteArray) : ByteArray := [0].toByteArray ++ row

def nodeMessage (left right : ByteArray) : ByteArray := [1].toByteArray ++ left ++ right

def leaf (row : ByteArray) : ByteArray := H.digest (leafMessage row)

def node (left right : ByteArray) : ByteArray := H.digest (nodeMessage left right)

/-- Hashes the parts one behind the other. -/
def sequence (parts : List ByteArray) : ByteArray := H.digest (Bytes.concat parts)

/-- The zero bits in front of the first set bit of the digest's first eight bytes. -/
def leadingZeros (digest : ByteArray) : Nat :=
  let v := Bytes.value (digest.data.toList.take 8).reverse
  if v = 0 then 64 else 63 - v.log2

def workDigest (challenge : ByteArray) (nonce : Nat) : ByteArray :=
  H.work (challenge ++ Bytes.little 8 nonce)

/-- Whether the nonce, below 2^64, gives the digest at least `bits` leading zeros. -/
def meetsWork (challenge : ByteArray) (nonce bits : Nat) : Bool :=
  bits = 0 || bits ≤ leadingZeros (H.workDigest challenge nonce)

/-- Tries `fuel` nonces from `nonce` on. -/
def searchWork (challenge : ByteArray) (bits : Nat) : Nat → Nat → Option Nat
  | 0, _ => none
  | fuel + 1, nonce =>
    if H.meetsWork challenge nonce bits then some nonce
    else searchWork challenge bits fuel (nonce + 1)

/-- The least nonce that does the work; it has to fit eight bytes. -/
def findWork (challenge : ByteArray) (bits : Nat) : Except Error Nat :=
  match H.searchWork challenge bits (Nat.pow 2 64) 0 with
  | some nonce => .ok nonce
  | none => .error .integerWidth

/-- The first of `fuel` nonces from `nonce` on that does not do the work. -/
def searchIdle (challenge : ByteArray) (bits : Nat) : Nat → Nat → Option Nat
  | 0, _ => none
  | fuel + 1, nonce =>
    if H.meetsWork challenge nonce bits then searchIdle challenge bits fuel (nonce + 1)
    else some nonce

/-- Checks a nonce of any size: where work is asked for, it has to fit eight bytes. -/
def checkWork (challenge : ByteArray) (nonce bits : Int) : Except Error Bool := do
  if bits = 0 then return true
  let _ ← Bytes.pack 8 nonce
  return H.meetsWork challenge nonce.toNat bits.toNat

end Hash

end TapeStark
