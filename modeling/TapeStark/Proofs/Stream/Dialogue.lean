import Mathlib
import TapeStark.Proofs.Field.Lawful
import TapeStark.Proofs.Stream.Replay

/-!
A writer and a reader of the same bytes, operation by operation. What the writer pushes the reader
pulls, and all else both do alike. Then both see the same items and draw the same challenges, and
after every operation both stand in the same transcript.
-/

namespace TapeStark

open ExtensionField

/-- What is done to a stream on both sides. The reader of a list may set a limit, and the reader of
an opening expects it in a tree of some height; for other items these say nothing. -/
inductive Operation (F : Type)
  | item (i : Item (Tagged F)) (limit : Option Int) (height : Int)
  | absorb (data : ByteArray)
  | absorbClaim (claim : Claim)
  | sampleField
  | sampleFields (n : Int)
  | sampleIndices (count size : Int)
  | challengeState

/-- What an operation shows of the stream. -/
inductive Sight (F : Type)
  | item (i : Item (Tagged F))
  | absorbed
  | challenges (as : List F)
  | indices (is : List Nat)
  | state (digest : ByteArray)

def Item.Fits {V : Type} : Item V → Prop
  | .u32 n => 0 ≤ n ∧ n < 2 ^ 32
  | .u64 n => 0 ≤ n ∧ n < 2 ^ 64
  | .digest d => d.size = Hash.size
  | .element _ => True
  | .elements vs => vs.length < 2 ^ 32
  | .opening o => 0 ≤ o.index ∧ o.index < 2 ^ 32 ∧ o.values.length < 2 ^ 32 ∧
      o.path.length ≤ ProofStream.maxPathLength ∧ ∀ d ∈ o.path, d.size = Hash.size

namespace Operation

variable {F : Type}

def item? : Operation F → Option (Item (Tagged F))
  | .item i _ _ => some i
  | _ => none

/-- The item fits, and what the reader expects of it holds. -/
def Fits : Operation F → Prop
  | .item i limit height => i.Fits ∧
      (∀ vs, i = .elements vs → ∀ n ∈ limit, (vs.length : Int) ≤ n) ∧
      ∀ o, i = .opening o → o.index < height
  | _ => True

/-- The operations one after the other, a failed one leaving the stream to the next: what each
shows or fails with, and the transcript behind it. -/
def record (act : Operation F → StreamM (Sight F)) :
    List (Operation F) → ProofStream → List (Except Error (Sight F) × Transcript) × ProofStream
  | [], s => ([], s)
  | op :: ops, s =>
    let (shown, s') := act op s
    let (rest, last) := record act ops s'
    ((shown, s'.transcript) :: rest, last)

section Act

variable [ExtensionField F] (H : Hash)

/-- What both sides do alike. -/
def alike : Operation F → StreamM (Sight F)
  | .item i _ _ => pure (.item i)
  | .absorb data => do
    ProofStream.absorb H data
    return .absorbed
  | .absorbClaim claim => do
    ProofStream.absorbClaim H claim
    return .absorbed
  | .sampleField => do
    return .challenges [← ProofStream.sampleField H F]
  | .sampleFields n => do
    return .challenges (← ProofStream.sampleFields H F n.toNat).toList
  | .sampleIndices count size => do
    return .indices (← ProofStream.sampleIndices H count size)
  | .challengeState => do
    return .state (← ProofStream.challengeState)

def write : Operation F → StreamM (Sight F)
  | .item i _ _ => do
    ProofStream.push H i
    return .item i
  | op => op.alike H

/-- The item of the same kind that comes next; of an opening its width is known. -/
def pullLike (limit : Option Int) (height : Int) : Item (Tagged F) → StreamM (Item (Tagged F))
  | .u32 _ => do return .u32 (← ProofStream.pullU32 H)
  | .u64 _ => do return .u64 (← ProofStream.pullU64 H)
  | .digest _ => do return .digest (← ProofStream.pullDigest H)
  | .element _ => do return .element (← ProofStream.pullElement H F)
  | .elements _ => do return .elements (← ProofStream.pullElements H F limit)
  | .opening o => do return .opening (← ProofStream.pullOpening H F o.values.length height)

def read : Operation F → StreamM (Sight F)
  | .item i limit height => do
    return .item (← pullLike H limit height i)
  | op => op.alike H

end Act

end Operation

namespace ProofStream

/-- The action sees and changes nothing but the transcript. -/
def OnTranscript {α : Type} (a : StreamM α) : Prop := ∃ f : TranscriptM α, a = liftTranscript f

namespace OnTranscript

variable {α β : Type}

protected theorem pure (x : α) : OnTranscript (pure x) := by
  exists pure x

protected theorem lift (x : Except Error α) : OnTranscript (liftM x) := by
  exists liftM x

protected theorem bind {a : StreamM α} {b : α → StreamM β} (ha : OnTranscript a)
    (hb : ∀ x, OnTranscript (b x)) : OnTranscript (a >>= b) := by
  obtain ⟨f, rfl⟩ := ha
  choose g hg using hb
  exists f >>= g
  funext s
  cases h : f s.transcript with
  | mk x t =>
    cases x with
    | error e =>
      have hstep : liftTranscript f s = (.error e, { s with transcript := t }) := by
        rw [liftTranscript, h]
      rw [bind_of_error hstep, liftTranscript, bind_of_error h]
    | ok x =>
      have hstep : liftTranscript f s = (.ok x, { s with transcript := t }) := by
        rw [liftTranscript, h]
      rw [bind_of_ok hstep, liftTranscript, bind_of_ok h, hg x]
      rfl

theorem absorb (H : Hash) (data : ByteArray) : OnTranscript (absorb H data) := by
  exists fun t => (.ok (), t.put H data)

theorem absorbClaim (H : Hash) (claim : Claim) : OnTranscript (absorbClaim H claim) := by
  unfold ProofStream.absorbClaim
  apply (OnTranscript.lift _).bind; intro data
  apply (OnTranscript.absorb H data).bind; intro _
  apply (OnTranscript.lift _).bind; intro data
  apply (OnTranscript.absorb H data).bind; intro _
  apply (OnTranscript.lift _).bind; intro data
  exact OnTranscript.absorb H data

theorem liftDraw (a : StateM Transcript α) : OnTranscript (liftDraw a) := by
  exists fun t => (.ok (a t).1, (a t).2)

theorem sampleIndices (H : Hash) (count size : Int) : OnTranscript (sampleIndices H count size) := by
  exists Transcript.indices H count size

theorem challengeState : OnTranscript challengeState := by
  exists fun t => (.ok t.state, t)

end OnTranscript

end ProofStream

namespace Operation

variable {F : Type} [ExtensionField F] (H : Hash)

theorem onTranscript_alike (op : Operation F) : ProofStream.OnTranscript (op.alike H) := by
  cases op with
  | item i limit height => exact .pure _
  | absorb data => exact (ProofStream.OnTranscript.absorb H data).bind fun _ => .pure _
  | absorbClaim claim => exact (ProofStream.OnTranscript.absorbClaim H claim).bind fun _ => .pure _
  | sampleField => exact (ProofStream.OnTranscript.liftDraw _).bind fun _ => .pure _
  | sampleFields n => exact (ProofStream.OnTranscript.liftDraw _).bind fun _ => .pure _
  | sampleIndices count size =>
    exact (ProofStream.OnTranscript.sampleIndices H count size).bind fun _ => .pure _
  | challengeState => exact ProofStream.OnTranscript.challengeState.bind fun _ => .pure _

/-- The reader, on any bytes with those next that the writer wrote, sees what the writer saw, and ends
behind them in the transcript that the writer ends in. -/
def Mirrored (op : Operation F) (w : ProofStream) : Prop :=
  ∃ shown w' written, op.write H w = (shown, w') ∧ w'.reading = false ∧
    w'.buffer = w.buffer ++ written ∧ (∀ i ∈ op.item?, shown = .ok (.item i)) ∧
    ∀ before after : ByteArray,
      op.read H ⟨w.transcript, true, before ++ written ++ after, before.size⟩ =
        (shown, ⟨w'.transcript, true, before ++ written ++ after, (before ++ written).size⟩)

theorem mirrored_of_alike {op : Operation F} (hwrite : op.write H = op.alike H)
    (hread : op.read H = op.alike H) (hitem : op.item? = none) {w : ProofStream}
    (hw : w.reading = false) : op.Mirrored H w := by
  obtain ⟨f, hf⟩ := onTranscript_alike H op
  refine ⟨(f w.transcript).1, { w with transcript := (f w.transcript).2 }, ByteArray.empty, ?_, hw,
    ByteArray.append_empty.symm, ?_, ?_⟩
  · rw [hwrite, hf]
    rfl
  · rw [hitem]
    intro i hi
    cases hi
  · intro before after
    rw [hread, hf, ByteArray.append_empty]
    rfl

variable [LawfulExtension F]

/-- An item that fits is pulled as it was pushed. -/
theorem replays_item {i : Item (Tagged F)} {limit : Option Int} {height : Int}
    (h : (Operation.item i limit height).Fits) :
    Replays (fun _ => True) (fun _ _ => False) (ProofStream.push H i) (pullLike H limit height i)
      fun _ j => j = i := by
  obtain ⟨hfits, hlimit, hheight⟩ := h
  cases i with
  | u32 n =>
    obtain ⟨h0, hn⟩ := hfits
    obtain ⟨k, rfl⟩ := Int.eq_ofNat_of_zero_le h0
    apply (ProofStream.replays_u32 H (by omega)).bind_right
    rintro _ m rfl
    exact Replays.pure rfl
  | u64 n =>
    obtain ⟨h0, hn⟩ := hfits
    obtain ⟨k, rfl⟩ := Int.eq_ofNat_of_zero_le h0
    apply (ProofStream.replays_u64 H (by omega)).bind_right
    rintro _ m rfl
    exact Replays.pure rfl
  | digest d =>
    apply (ProofStream.replays_digest H hfits).bind_right
    rintro _ b rfl
    exact Replays.pure rfl
  | element v =>
    apply (ProofStream.replays_element_item H v).bind_right
    rintro _ b rfl
    exact Replays.pure rfl
  | elements vs =>
    have hcount : 2 ^ 32 ≤ vs.length → ∀ _ : ProofStream, False :=
      fun hle _ => absurd hfits (not_lt.mpr hle)
    apply (ProofStream.replays_elements H hcount (hlimit vs rfl)).bind_right
    rintro _ bs rfl
    exact Replays.pure rfl
  | opening o =>
    obtain ⟨h0, hindex, hvalues, hdepth, hpath⟩ := hfits
    obtain ⟨k, hk⟩ := Int.eq_ofNat_of_zero_le h0
    have hcount : 2 ^ 32 ≤ o.values.length → ∀ _ : ProofStream, False :=
      fun hle _ => absurd hvalues (not_lt.mpr hle)
    apply (ProofStream.replays_opening H hk (by omega) (hheight o rfl) rfl hcount hdepth
      hpath).bind_right
    rintro _ b rfl
    exact Replays.pure rfl

/-- One operation. -/
theorem mirrored {op : Operation F} (h : op.Fits) {w : ProofStream} (hw : w.reading = false) :
    op.Mirrored H w := by
  cases op with
  | item i limit height =>
    obtain ⟨_, _, _, hfalse⟩ | ⟨_, w', written, hpush, hw', hbuffer, hpull⟩ :=
      replays_item H h w hw
    · exact hfalse.elim
    · refine ⟨.ok (.item i), w', written, bind_of_ok hpush, hw', hbuffer, ?_, ?_⟩
      · rintro _ ⟨⟩
        rfl
      · intro before after
        obtain ⟨_, rfl, hpulled⟩ := hpull before after trivial
        exact bind_of_ok hpulled
  | absorb data => exact mirrored_of_alike H rfl rfl rfl hw
  | absorbClaim claim => exact mirrored_of_alike H rfl rfl rfl hw
  | sampleField => exact mirrored_of_alike H rfl rfl rfl hw
  | sampleFields n => exact mirrored_of_alike H rfl rfl rfl hw
  | sampleIndices count size => exact mirrored_of_alike H rfl rfl rfl hw
  | challengeState => exact mirrored_of_alike H rfl rfl rfl hw

/-- All operations, by induction on those that are left: what the first one wrote comes before what
the others write. -/
theorem record_mirrored {ops : List (Operation F)} (h : ∀ op ∈ ops, op.Fits) {w : ProofStream}
    (hw : w.reading = false) :
    ∃ seen w' written, record (write H) ops w = (seen, w') ∧ w'.buffer = w.buffer ++ written ∧
      List.Forall₂ (fun op shown => ∀ i ∈ op.item?, shown.1 = .ok (.item i)) ops seen ∧
      ∀ before after : ByteArray,
        record (read H) ops ⟨w.transcript, true, before ++ written ++ after, before.size⟩ =
          (seen, ⟨w'.transcript, true, before ++ written ++ after, (before ++ written).size⟩) := by
  induction ops generalizing w with
  | nil =>
    refine ⟨[], w, ByteArray.empty, rfl, ByteArray.append_empty.symm, .nil, ?_⟩
    intro before after
    rw [ByteArray.append_empty]
    rfl
  | cons op ops ih =>
    obtain ⟨hop, hops⟩ := List.forall_mem_cons.mp h
    obtain ⟨shown, w₁, first, hwrite, hw₁, hbuffer₁, hitem, hread⟩ := mirrored H hop hw
    obtain ⟨seen, w₂, rest, hrecord, hbuffer₂, hitems, hreads⟩ := ih hops hw₁
    refine ⟨(shown, w₁.transcript) :: seen, w₂, first ++ rest, ?_, ?_, .cons hitem hitems, ?_⟩
    · rw [record, hwrite]
      dsimp only
      rw [hrecord]
    · rw [hbuffer₂, hbuffer₁, ByteArray.append_assoc]
    · intro before after
      have hall : before ++ (first ++ rest) ++ after = before ++ first ++ (rest ++ after) := by
        simp only [ByteArray.append_assoc]
      have hall' : before ++ first ++ (rest ++ after) = before ++ first ++ rest ++ after := by
        simp only [ByteArray.append_assoc]
      rw [record, hall, hread before (rest ++ after)]
      dsimp only
      rw [hall', hreads (before ++ first) after, ← ByteArray.append_assoc]

/-- The bytes of a fresh writer are read back by a fresh reader: the same items, the same draws, the
same transcript after every operation, and no byte left. -/
theorem reader_repeats_writer {ops : List (Operation F)} (h : ∀ op ∈ ops, op.Fits) :
    let written := record (write H) ops (.writer H)
    let seen := record (read H) ops (.reader H written.2.buffer)
    seen.1 = written.1 ∧ seen.2.transcript = written.2.transcript ∧
      List.Forall₂ (fun op shown => ∀ i ∈ op.item?, shown.1 = .ok (.item i)) ops seen.1 ∧
      (ProofStream.finish seen.2).1 = .ok () := by
  obtain ⟨seen, w, written, hwrite, hbuffer, hitems, hread⟩ :=
    record_mirrored H h (w := .writer H) rfl
  have hwritten : w.buffer = ByteArray.empty ++ written ++ ByteArray.empty := by
    rw [ByteArray.append_empty]
    exact hbuffer
  have hstart : ProofStream.reader H w.buffer =
      ⟨(ProofStream.writer H).transcript, true, ByteArray.empty ++ written ++ ByteArray.empty,
        ByteArray.empty.size⟩ := by
    rw [← hwritten]
    rfl
  rw [hwrite]
  dsimp only
  rw [hstart, hread]
  refine ⟨rfl, rfl, hitems, ?_⟩
  rw [ProofStream.finish, bind_of_ok (get_apply _), if_neg]
  · rfl
  · rw [ByteArray.append_empty]
    exact not_not.mpr rfl

/-- Items of every kind between draws; the indices are drawn once below 8 and once, in vain, below
6. -/
theorem reader_repeats_mixed_writer :
    let digest := Hash.blake2b.digest ByteArray.empty
    let ops : List (Operation Fp3) :=
      [.absorb [1, 2].toByteArray, .item (.digest digest) none 0, .sampleFields 2,
        .item (.elements [.fp 1, .fx ⟨1, 0, 1⟩]) (some 2) 0, .sampleField,
        .item (.element (.fx 1)) none 0, .sampleIndices 3 8, .sampleIndices 3 6,
        .item (.opening ⟨3, [.fp 1], [digest, digest]⟩) none 4, .challengeState,
        .item (.u64 7) none 0, .item (.u32 1) none 0]
    let written := record (write Hash.blake2b) ops (.writer Hash.blake2b)
    let seen := record (read Hash.blake2b) ops (.reader Hash.blake2b written.2.buffer)
    seen.1 = written.1 ∧ seen.2.transcript = written.2.transcript ∧
      List.Forall₂ (fun op shown => ∀ i ∈ op.item?, shown.1 = .ok (.item i)) ops seen.1 ∧
      (ProofStream.finish seen.2).1 = .ok () := by
  intro digest ops
  have hdigest : digest.size = Hash.size := Hash.blake2b.size_digest _
  have hfits : ∀ op ∈ ops, op.Fits := by
    simp [ops, Fits, Item.Fits, hdigest, ProofStream.maxPathLength]
  exact reader_repeats_writer Hash.blake2b hfits

end Operation

end TapeStark
