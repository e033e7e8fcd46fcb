import Mathlib
import TapeStark.Proofs.Protocol.Binding
import TapeStark.Proofs.Stream.Action

/-!
What the state of a transcript binds. A history is a list of moves: messages that are put and
challenges that are drawn, from the transcript of a new stream on. The strings that a history hashes
are listed beside it, and a history depends on no other digests. Two histories that end in one state
put the same messages, or strings hashed in them collide; draws leave the state alone and hash no
string that a message is absorbed with.
-/

namespace TapeStark

namespace Transcript

section Strings

variable {state state' data data' : ByteArray}

theorem putMessage_inj (hsize : state.size = state'.size)
    (h : putMessage state data = putMessage state' data') : state = state' ∧ data = data' := by
  unfold putMessage at h
  obtain ⟨hframe, hdata⟩ := (ByteArray.append_eq_append_iff_of_size_eq_left (by simp [hsize])).mp h
  obtain ⟨hstate, -⟩ := (ByteArray.append_eq_append_iff_of_size_eq_left hsize).mp hframe
  exact ⟨hstate, hdata⟩

/-- The string that the transcript of a new stream starts from. -/
def initMessage : ByteArray := separator ++ ByteArray.empty

theorem size_initMessage : initMessage.size = 21 := by decide

theorem initMessage_ne_putMessage (hsize : state.size = Hash.size) :
    initMessage ≠ putMessage state data := by
  intro h
  have hsizes := congrArg ByteArray.size h
  simp only [size_initMessage, putMessage, ByteArray.size_append, Bytes.size_little, hsize,
    Hash.size] at hsizes
  omega

theorem squeezeMessage_ne_initMessage {counter : Nat} (hsize : state.size = Hash.size) :
    squeezeMessage state counter ≠ initMessage := by
  intro h
  have hsizes := congrArg ByteArray.size h
  simp [size_initMessage, squeezeMessage, hsize, Hash.size] at hsizes

/-- The byte behind the state is 255 in a squeezed string. In an absorbed one of the same size it
counts the one byte of the message. -/
theorem squeezeMessage_ne_putMessage {counter : Nat} (hsize : state.size = state'.size) :
    squeezeMessage state counter ≠ putMessage state' data := by
  intro h
  have hdata : data.size = 1 := by
    have hsizes := congrArg ByteArray.size h
    simp [squeezeMessage, putMessage, hsize] at hsizes
    omega
  unfold squeezeMessage putMessage at h
  rw [hdata, ByteArray.append_assoc, ByteArray.append_assoc] at h
  obtain ⟨-, hrest⟩ := (ByteArray.append_eq_append_iff_of_size_eq_left hsize).mp h
  have hfirst := congrArg (fun m : ByteArray => m.data.toList.head?) hrest
  simp [Bytes.little, Bytes.digits] at hfirst

end Strings

/-- What is done to a transcript: a message is put, or a challenge or a list of them is drawn. -/
inductive Move
  | put (data : ByteArray)
  | field
  | fields (n : Nat)
  | chunks (count bits : Int)
  | indices (count size : Int)

/-- What a move gives back. -/
inductive Answer (F : Type)
  | done
  | challenges (drawn : List F)
  | values (drawn : Except Error (List Nat))

namespace Move

variable (H : Hash) (F : Type) [ExtensionField F]

def act (t : Transcript) : Move → Answer F × Transcript
  | put data => (.done, t.put H data)
  | field =>
    let (drawn, t) := Transcript.field H F t
    (.challenges [drawn], t)
  | fields n =>
    let (drawn, t) := Transcript.fields H F n t
    (.challenges drawn.toList, t)
  | chunks count bits =>
    let (drawn, t) := Transcript.chunks H count bits t
    (.values drawn, t)
  | indices count size =>
    let (drawn, t) := Transcript.indices H count size t
    (.values drawn, t)

def message? : Move → Option ByteArray
  | put data => some data
  | _ => none

def blocks : Move → Nat
  | put _ => 0
  | field => ExtensionField.degree F
  | fields n => n * ExtensionField.degree F
  | chunks count bits => blocksFor (count * bits)
  | indices count size =>
    if size = Nat.pow 2 size.natAbs.log2 then blocksFor (count * size.natAbs.log2) else 0

def absorbed (t : Transcript) (move : Move) : List ByteArray :=
  move.message?.toList.map (putMessage t.state)

def squeezed (t : Transcript) (move : Move) : List ByteArray :=
  (List.range (move.blocks F)).map fun i => squeezeMessage t.state (t.squeezed + i)

/-- A draw leaves the state alone and counts its blocks. -/
theorem act_draw {move : Move} (h : move.message? = none) (t : Transcript) :
    (move.act H F t).2 = { t with squeezed := t.squeezed + move.blocks F } := by
  cases move with
  | put data => cases h
  | field => rfl
  | fields n => rfl
  | chunks count bits => simp only [act, blocks, chunks_apply]
  | indices count size =>
    simp only [act, blocks, indices_apply]
    split
    · rw [chunks_apply]
    · rfl

variable {H} {H' : Hash} {t : Transcript}

theorem fieldAt_congr {counter : Nat}
    (h : ∀ i < ExtensionField.degree F, t.block H (counter + i) = t.block H' (counter + i)) :
    t.fieldAt H F counter = t.fieldAt H' F counter := by
  unfold fieldAt
  congr 2
  funext i
  rw [h i i.isLt]

theorem chunks_congr {count bits : Int} (h : ∀ i < blocksFor (count * bits),
      t.block H (t.squeezed + i) = t.block H' (t.squeezed + i)) :
    Transcript.chunks H count bits t = Transcript.chunks H' count bits t := by
  have hblocks := List.map_congr_left fun i hi => h i (List.mem_range.mp hi)
  rw [chunks_apply, chunks_apply, hblocks]

/-- A move depends on the digests of its strings alone. -/
theorem act_congr {move : Move} (habsorbed : ∀ m ∈ move.absorbed t, H.digest m = H'.digest m)
    (hsqueezed : ∀ m ∈ move.squeezed F t, H.digest m = H'.digest m) :
    move.act H F t = move.act H' F t := by
  have hblock (i : Nat) (hi : i < move.blocks F) :
      t.block H (t.squeezed + i) = t.block H' (t.squeezed + i) := by
    apply hsqueezed
    exact List.mem_map.mpr ⟨i, List.mem_range.mpr hi, rfl⟩
  cases move with
  | put data =>
    have hput : H.digest (putMessage t.state data) = H'.digest (putMessage t.state data) :=
      habsorbed _ (List.mem_singleton_self _)
    simp only [act, Transcript.put, hput]
  | field => simp only [act, Transcript.field, fieldAt_congr F hblock]
  | fields n =>
    have hfields (i : Fin n) : t.fieldAt H F (t.squeezed + i * ExtensionField.degree F) =
        t.fieldAt H' F (t.squeezed + i * ExtensionField.degree F) := by
      apply fieldAt_congr
      intro j hj
      rw [Nat.add_assoc]
      apply hblock
      calc i * ExtensionField.degree F + j < (i + 1) * ExtensionField.degree F := by
            rw [Nat.succ_mul]
            omega
        _ ≤ n * ExtensionField.degree F := Nat.mul_le_mul_right _ i.isLt
    simp only [act, Transcript.fields, hfields]
  | chunks count bits => simp only [act, chunks_congr hblock]
  | indices count size =>
    simp only [act, indices_apply]
    split
    · rename_i hpower
      rw [blocks, if_pos hpower] at hblock
      rw [chunks_congr hblock]
    · rfl

end Move

section History

variable (H : Hash) (F : Type) [ExtensionField F]

/-- The transcript of a new stream, which is that of its reader too. -/
def start : Transcript := (ProofStream.writer H).transcript

def after (t : Transcript) : List Move → Transcript
  | [] => t
  | move :: moves => after (move.act H F t).2 moves

def answers (t : Transcript) : List Move → List (Answer F)
  | [] => []
  | move :: moves => (move.act H F t).1 :: answers (move.act H F t).2 moves

/-- The strings hashed by the moves of a history, one kind of them. -/
def hashed (strings : Transcript → Move → List ByteArray) (t : Transcript) :
    List Move → List ByteArray
  | [] => []
  | move :: moves => strings t move ++ hashed strings (move.act H F t).2 moves

def absorbedStrings (moves : List Move) : List ByteArray :=
  initMessage :: hashed H F Move.absorbed (start H) moves

def squeezedStrings (moves : List Move) : List ByteArray :=
  hashed H F (Move.squeezed F) (start H) moves

variable {H} in
/-- No other strings are hashed: a history depends on the digests of these alone. -/
theorem history_congr {H' : Hash} {moves : List Move}
    (habsorbed : ∀ m ∈ absorbedStrings H F moves, H.digest m = H'.digest m)
    (hsqueezed : ∀ m ∈ squeezedStrings H F moves, H.digest m = H'.digest m) :
    after H F (start H) moves = after H' F (start H') moves ∧
      answers H F (start H) moves = answers H' F (start H') moves := by
  rw [absorbedStrings, List.forall_mem_cons] at habsorbed
  obtain ⟨hinit, habsorbed⟩ := habsorbed
  have hstart : start H' = start H := congrArg (Transcript.mk · 0) hinit.symm
  rw [hstart]
  unfold squeezedStrings at hsqueezed
  generalize start H = t at habsorbed hsqueezed ⊢
  induction moves generalizing t with
  | nil => exact ⟨rfl, rfl⟩
  | cons move moves ih =>
    obtain ⟨hput, habsorbed⟩ := List.forall_mem_append.mp habsorbed
    obtain ⟨hdraw, hsqueezed⟩ := List.forall_mem_append.mp hsqueezed
    obtain ⟨hafter, hanswers⟩ := ih _ habsorbed hsqueezed
    have hact := Move.act_congr F hput hdraw
    simp only [after, answers]
    rw [hafter, hanswers, hact]
    exact ⟨rfl, rfl⟩

def messages (moves : List Move) : List ByteArray := moves.filterMap Move.message?

/-- The state that messages lead to, whatever is drawn between them. -/
def chain (state : ByteArray) : List ByteArray → ByteArray
  | [] => state
  | data :: rest => chain (H.digest (putMessage state data)) rest

def chainMessages (state : ByteArray) : List ByteArray → List ByteArray
  | [] => []
  | data :: rest =>
    putMessage state data :: chainMessages (H.digest (putMessage state data)) rest

theorem chain_append (state : ByteArray) (ds es : List ByteArray) :
    chain H state (ds ++ es) = chain H (chain H state ds) es := by
  induction ds generalizing state with
  | nil => rfl
  | cons d ds ih => exact ih _

theorem chainMessages_append (state : ByteArray) (ds es : List ByteArray) :
    chainMessages H state (ds ++ es) =
      chainMessages H state ds ++ chainMessages H (chain H state ds) es := by
  induction ds generalizing state with
  | nil => rfl
  | cons d ds ih => exact congrArg (_ :: ·) (ih _)

theorem size_chain {state : ByteArray} (h : state.size = Hash.size) (ds : List ByteArray) :
    (chain H state ds).size = Hash.size := by
  induction ds generalizing state with
  | nil => exact h
  | cons d ds ih => exact ih (H.size_digest _)

theorem messages_cons (move : Move) (moves : List Move) :
    messages (move :: moves) = move.message?.toList ++ messages moves := by
  cases h : move.message? with
  | none => rw [messages, List.filterMap_cons_none h]; rfl
  | some data => rw [messages, List.filterMap_cons_some h]; rfl

theorem state_act (t : Transcript) (move : Move) :
    (move.act H F t).2.state = chain H t.state move.message?.toList := by
  cases h : move.message? with
  | none => rw [Move.act_draw H F h]; rfl
  | some data =>
    cases move with
    | put => cases h; rfl
    | _ => cases h

/-- The state forgets the draws. -/
theorem state_after (t : Transcript) (moves : List Move) :
    (after H F t moves).state = chain H t.state (messages moves) := by
  induction moves generalizing t with
  | nil => rfl
  | cons move moves ih => rw [after, ih, state_act, messages_cons, chain_append]

theorem hashed_absorbed (t : Transcript) (moves : List Move) :
    hashed H F Move.absorbed t moves = chainMessages H t.state (messages moves) := by
  induction moves generalizing t with
  | nil => rfl
  | cons move moves ih =>
    have hmove : move.absorbed t = chainMessages H t.state move.message?.toList := by
      unfold Move.absorbed
      cases move.message? with
      | none => rfl
      | some data => rfl
    rw [hashed, ih, hmove, state_act, messages_cons, chainMessages_append]

theorem after_append (t : Transcript) (moves more : List Move) :
    after H F t (moves ++ more) = after H F (after H F t moves) more := by
  induction moves generalizing t with
  | nil => rfl
  | cons move moves ih => exact ih _

/-- Messages that lead from the start to one state are the same, unless strings on the way collide. -/
theorem chain_binding (ds es : List ByteArray)
    (h : chain H (start H).state ds = chain H (start H).state es) :
    ds = es ∨ Collision H (initMessage :: chainMessages H (start H).state ds)
      (initMessage :: chainMessages H (start H).state es) := by
  have hstate (ds : List ByteArray) : (chain H (start H).state ds).size = Hash.size :=
    size_chain H (H.size_digest _) ds
  -- Every state is the digest of the last string, so the histories are compared from the end.
  induction ds using List.reverseRecOn generalizing es with
  | nil =>
    cases es using List.reverseRecOn with
    | nil => exact .inl rfl
    | append_singleton es e =>
      rw [chain_append] at h
      rw [chainMessages_append]
      apply Or.inr
      exact ⟨initMessage, List.mem_cons_self .., putMessage (chain H (start H).state es) e,
        by simp [chainMessages], initMessage_ne_putMessage (hstate es), h⟩
  | append_singleton ds d ih =>
    rw [chain_append] at h
    rw [chainMessages_append]
    cases es using List.reverseRecOn with
    | nil =>
      apply Or.inr
      exact ⟨putMessage (chain H (start H).state ds) d, by simp [chainMessages], initMessage,
        List.mem_cons_self .., (initMessage_ne_putMessage (hstate ds)).symm, h⟩
    | append_singleton es e =>
      rw [chain_append] at h
      rw [chainMessages_append]
      by_cases hlast : putMessage (chain H (start H).state ds) d =
          putMessage (chain H (start H).state es) e
      · obtain ⟨hbefore, rfl⟩ := putMessage_inj ((hstate ds).trans (hstate es).symm) hlast
        cases ih es hbefore with
        | inl heq => exact .inl (heq ▸ rfl)
        | inr hcollision =>
          apply Or.inr
          apply hcollision.mono
          · exact List.cons_subset_cons _ (List.subset_append_left _ _)
          · exact List.cons_subset_cons _ (List.subset_append_left _ _)
      · apply Or.inr
        exact ⟨_, by simp [chainMessages], _, by simp [chainMessages], hlast, h⟩

theorem exists_of_mem_chainMessages {state m : ByteArray} (h : state.size = Hash.size)
    {ds : List ByteArray} (hm : m ∈ chainMessages H state ds) :
    ∃ state' data, state'.size = Hash.size ∧ m = putMessage state' data := by
  induction ds generalizing state with
  | nil => cases hm
  | cons d ds ih =>
    cases hm with
    | head => exact ⟨state, d, h, rfl⟩
    | tail _ hm => exact ih (H.size_digest _) hm

theorem exists_of_mem_squeezed {t : Transcript} {m : ByteArray} (h : t.state.size = Hash.size)
    {moves : List Move} (hm : m ∈ hashed H F (Move.squeezed F) t moves) :
    ∃ state counter, state.size = Hash.size ∧ m = squeezeMessage state counter := by
  induction moves generalizing t with
  | nil => cases hm
  | cons move moves ih =>
    cases List.mem_append.mp hm with
    | inl hmove =>
      obtain ⟨i, -, rfl⟩ := List.mem_map.mp hmove
      exact ⟨t.state, _, h, rfl⟩
    | inr hmoves =>
      apply ih _ hmoves
      rw [state_act]
      exact size_chain H h _

/-- No string is hashed both to squeeze and to absorb, within one history or across two. -/
theorem squeezed_ne_absorbed {F' : Type} [ExtensionField F'] {moves moves' : List Move}
    {m m' : ByteArray} (hm : m ∈ squeezedStrings H F moves) (hm' : m' ∈ absorbedStrings H F' moves') :
    m ≠ m' := by
  obtain ⟨state, counter, hstate, rfl⟩ := exists_of_mem_squeezed H F (H.size_digest _) hm
  cases hm' with
  | head => exact squeezeMessage_ne_initMessage hstate
  | tail _ hm' =>
    rw [hashed_absorbed] at hm'
    obtain ⟨state', data, hstate', rfl⟩ := exists_of_mem_chainMessages H (H.size_digest _) hm'
    exact squeezeMessage_ne_putMessage (hstate.trans hstate'.symm)

end History

end Transcript

/-- Words that fit a width are those of their bytes, one behind the other. -/
theorem Bytes.words_inj {width : Nat} (hwidth : 0 < width) {words words' : List Int}
    (h : ∀ w ∈ words, 0 ≤ w ∧ w < 256 ^ width) (h' : ∀ w ∈ words', 0 ≤ w ∧ w < 256 ^ width)
    (heq : concat (words.map fun w => little width w.toNat) =
      concat (words'.map fun w => little width w.toNat)) : words = words' := by
  have hsize {ws : List Int} : ∀ p ∈ ws.map fun w => little width w.toNat, p.size = width := by
    simp
  have hnumbers {ws : List Int} (hws : ∀ w ∈ ws, 0 ≤ w ∧ w < 256 ^ width) :
      (ws.map fun w => little width w.toNat).map (fun p => (number p : Int)) = ws := by
    have hword (w : Int) (hw : w ∈ ws) : (number (little width w.toNat) : Int) = w := by
      obtain ⟨h0, hlt⟩ := hws w hw
      have hfits : w.toNat < Nat.pow 256 width := by
        rw [Nat.pow_eq]
        exact (Int.toNat_lt h0).mpr (by exact_mod_cast hlt)
      rw [number_little hfits, Int.toNat_of_nonneg h0]
    rw [List.map_map]
    exact (List.map_congr_left hword).trans (List.map_id _)
  have hsizes := congrArg ByteArray.size heq
  rw [size_concat hsize, size_concat hsize] at hsizes
  have hparts := concat_inj hsize hsize (Nat.eq_of_mul_eq_mul_left hwidth hsizes) heq
  rw [← hnumbers h, ← hnumbers h', hparts]

namespace Claim

/-- The data of a claim fits the counts and the words of eight bytes that it is absorbed with. -/
structure Absorbable (claim : Claim) : Prop where
  words : ∀ w ∈ claim.program.toList, 0 ≤ w ∧ w < 256 ^ 8
  program : claim.program.toList.length < 256 ^ 4
  input : claim.input.size < 256 ^ 4
  output : claim.output.size < 256 ^ 4

def messages (claim : Claim) : List ByteArray :=
  [Bytes.little 4 claim.program.size ++
      Bytes.concat (claim.program.toList.map fun w => Bytes.little 8 w.toNat),
    Bytes.little 4 claim.input.size ++ claim.input,
    Bytes.little 4 claim.output.size ++ claim.output]

def moves (claim : Claim) : List Transcript.Move := claim.messages.map .put

theorem messages_moves (claim : Claim) : Transcript.messages claim.moves = claim.messages := by
  rw [Transcript.messages, moves, List.filterMap_map]
  exact List.filterMap_some

theorem messages_inj {claim claim' : Claim} (h : claim.Absorbable) (h' : claim'.Absorbable)
    (heq : claim.messages = claim'.messages) : claim = claim' := by
  have hcounted {n n' : Nat} {data data' : ByteArray}
      (heq : Bytes.little 4 n ++ data = Bytes.little 4 n' ++ data') : data = data' :=
    ((ByteArray.append_eq_append_iff_of_size_eq_left (by simp)).mp heq).2
  simp only [messages, List.cons.injEq, and_true] at heq
  obtain ⟨hprogram, hinput, houtput⟩ := heq
  have hwords := Bytes.words_inj (by decide) h.words h'.words (hcounted hprogram)
  cases claim
  cases claim'
  simp only [mk.injEq]
  exact ⟨Array.toList_inj.mp hwords, hcounted hinput, hcounted houtput⟩

end Claim

namespace ProofStream

theorem absorb_bind {α : Type} (H : Hash) (data : ByteArray) (f : Unit → StreamM α) (s : ProofStream) :
    (absorb H data >>= f) s = f () { s with transcript := s.transcript.put H data } := rfl

/-- A claim is absorbed exactly if its data fits, and then by three messages. -/
theorem absorbClaim_ok_iff {H : Hash} {F : Type} [ExtensionField F] {claim : Claim}
    {s s' : ProofStream} : absorbClaim H claim s = (.ok (), s') ↔ claim.Absorbable ∧
      s' = { s with transcript := Transcript.after H F s.transcript claim.moves } := by
  unfold absorbClaim
  constructor
  · intro h
    obtain ⟨_, hprogram, h⟩ := lift_bind_eq_ok.mp h
    rw [absorb_bind] at h
    obtain ⟨_, hinput, h⟩ := lift_bind_eq_ok.mp h
    rw [absorb_bind] at h
    obtain ⟨_, houtput, h⟩ := lift_bind_eq_ok.mp h
    obtain ⟨⟨hcount, hwords⟩, rfl⟩ := countedWords_eq_ok.mp hprogram
    obtain ⟨hin, rfl⟩ := countedBytes_eq_ok.mp hinput
    obtain ⟨hout, rfl⟩ := countedBytes_eq_ok.mp houtput
    cases h
    exact ⟨⟨hwords, hcount, hin, hout⟩, rfl⟩
  · rintro ⟨⟨hwords, hcount, hin, hout⟩, rfl⟩
    refine lift_bind_eq_ok.mpr ⟨_, countedWords_eq_ok.mpr ⟨⟨hcount, hwords⟩, rfl⟩, ?_⟩
    rw [absorb_bind]
    refine lift_bind_eq_ok.mpr ⟨_, countedBytes_eq_ok.mpr ⟨hin, rfl⟩, ?_⟩
    rw [absorb_bind]
    refine lift_bind_eq_ok.mpr ⟨_, countedBytes_eq_ok.mpr ⟨hout, rfl⟩, ?_⟩
    rfl

end ProofStream

namespace Transcript

section Bound

variable (H : Hash) {F F' : Type} [ExtensionField F] [ExtensionField F'] {moves moves' : List Move}

theorem messages_eq_or_collision
    (h : (after H F (start H) moves).state = (after H F' (start H) moves').state) :
    messages moves = messages moves' ∨
      Collision H (absorbedStrings H F moves) (absorbedStrings H F' moves') := by
  rw [state_after, state_after] at h
  unfold absorbedStrings
  rw [hashed_absorbed, hashed_absorbed]
  exact chain_binding H _ _ h

theorem claim_eq_or_collision {claim claim' : Claim} {s s' u u' : ProofStream}
    (hs : s.transcript = after H F (start H) moves)
    (hs' : s'.transcript = after H F' (start H) moves')
    (hclaim : ProofStream.absorbClaim H claim s = (.ok (), u))
    (hclaim' : ProofStream.absorbClaim H claim' s' = (.ok (), u'))
    (h : u.transcript.state = u'.transcript.state) :
    claim = claim' ∨ Collision H (absorbedStrings H F (moves ++ claim.moves))
      (absorbedStrings H F' (moves' ++ claim'.moves)) := by
  obtain ⟨hfits, rfl⟩ := (ProofStream.absorbClaim_ok_iff (F := F)).mp hclaim
  obtain ⟨hfits', rfl⟩ := (ProofStream.absorbClaim_ok_iff (F := F')).mp hclaim'
  simp only [hs, hs', ← after_append] at h
  cases messages_eq_or_collision H h with
  | inl heq =>
    unfold messages at heq
    rw [List.filterMap_append, List.filterMap_append] at heq
    obtain ⟨-, hmessages⟩ := List.append_inj' heq rfl
    apply Or.inl
    apply Claim.messages_inj hfits hfits'
    rw [← Claim.messages_moves, ← Claim.messages_moves]
    exact hmessages
  | inr hcollision => exact .inr hcollision

end Bound

/-- The state binds the messages of a history, each with its boundaries and whatever its length, and
with them a claim that is absorbed. Draws do not change it, and no string they hash is absorbed. -/
theorem binds_history (H : Hash) (F F' : Type) [ExtensionField F] [ExtensionField F'] :
    (∀ moves moves' : List Move,
      (after H F (start H) moves).state = (after H F' (start H) moves').state →
        messages moves = messages moves' ∨
          Collision H (absorbedStrings H F moves) (absorbedStrings H F' moves')) ∧
    (∀ (move : Move) (t : Transcript), move.message? = none → (move.act H F t).2.state = t.state) ∧
    (∀ moves moves' : List Move, ∀ m ∈ squeezedStrings H F moves,
      ∀ m' ∈ absorbedStrings H F' moves', m ≠ m') ∧
    (∀ (moves moves' : List Move) (claim claim' : Claim) (s s' u u' : ProofStream),
      s.transcript = after H F (start H) moves → s'.transcript = after H F' (start H) moves' →
      ProofStream.absorbClaim H claim s = (.ok (), u) →
      ProofStream.absorbClaim H claim' s' = (.ok (), u') →
      u.transcript.state = u'.transcript.state →
        claim = claim' ∨ Collision H (absorbedStrings H F (moves ++ claim.moves))
          (absorbedStrings H F' (moves' ++ claim'.moves))) := by
  constructor
  · intro moves moves' h
    exact messages_eq_or_collision H h
  constructor
  · intro move t h
    rw [Move.act_draw H F h]
  constructor
  · intro moves moves' m hm m' hm'
    exact squeezed_ne_absorbed H F hm hm'
  · intro moves moves' claim claim' s s' u u' hs hs' hclaim hclaim' h
    exact claim_eq_or_collision H hs hs' hclaim hclaim' h

/-- A constant hash leads from other messages, and from other claims, to one state, by a collision. -/
theorem binds_history_of_constant : ∃ (H : Hash) (moves moves' : List Move) (claim claim' : Claim)
    (s s' u u' : ProofStream),
    (after H Fp (start H) moves).state = (after H Fp3 (start H) moves').state ∧
    messages moves ≠ messages moves' ∧
    Collision H (absorbedStrings H Fp moves) (absorbedStrings H Fp3 moves') ∧
    s.transcript = after H Fp (start H) moves ∧ s'.transcript = after H Fp3 (start H) moves' ∧
    ProofStream.absorbClaim H claim s = (.ok (), u) ∧
    ProofStream.absorbClaim H claim' s' = (.ok (), u') ∧
    u.transcript.state = u'.transcript.state ∧ claim ≠ claim' ∧
    Collision H (absorbedStrings H Fp (moves ++ claim.moves))
      (absorbedStrings H Fp3 (moves' ++ claim'.moves)) := by
  let moves : List Move := [.put [1].toByteArray, .field]
  let moves' : List Move := [.put [1].toByteArray, .indices 2 4, .put ByteArray.empty]
  let claim : Claim := ⟨#[43], ByteArray.empty, ByteArray.empty⟩
  let claim' : Claim := ⟨#[43, 46], ByteArray.empty, [1].toByteArray⟩
  let s : ProofStream := ⟨after .constant Fp (start .constant) moves, false, ByteArray.empty, 0⟩
  let s' : ProofStream := ⟨after .constant Fp3 (start .constant) moves', false, ByteArray.empty, 0⟩
  have hstate : (after .constant Fp (start .constant) moves).state =
      (after .constant Fp3 (start .constant) moves').state := rfl
  have hmessages : messages moves ≠ messages moves' := by
    intro h
    cases congrArg List.length h
  have hclaims : claim ≠ claim' := by
    intro h
    cases congrArg (fun c : Claim => c.program.size) h
  have hclaim := (ProofStream.absorbClaim_ok_iff (H := .constant) (F := Fp) (s := s)).mpr
    ⟨(⟨by simp [claim], by simp [claim], by simp [claim], by simp [claim]⟩ : claim.Absorbable), rfl⟩
  have hclaim' := (ProofStream.absorbClaim_ok_iff (H := .constant) (F := Fp3) (s := s')).mpr
    ⟨(⟨by simp [claim'], by simp [claim'], by simp [claim'], by simp [claim']⟩ : claim'.Absorbable), rfl⟩
  have hcollision := ((binds_history .constant Fp Fp3).1 moves moves' hstate).resolve_left hmessages
  have hcollision' := ((binds_history .constant Fp Fp3).2.2.2 moves moves' claim claim' s s' _ _ rfl rfl
    hclaim hclaim' rfl).resolve_left hclaims
  exact ⟨.constant, moves, moves', claim, claim', s, s', _, _, hstate, hmessages, hcollision, rfl, rfl,
    hclaim, hclaim', rfl, hclaims, hcollision'⟩

end Transcript

end TapeStark
