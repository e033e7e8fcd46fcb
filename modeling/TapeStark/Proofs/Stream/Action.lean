import Mathlib
import TapeStark.Field.Tagged
import TapeStark.Proofs.Basic
import TapeStark.Proofs.Field.Lawful
import TapeStark.Stream.Basic

/-! Values and their bytes, actions on a stream, and what reading a proof gives. -/

namespace TapeStark

/-! Tagged values and their bytes: a value is read back from its bytes, wherever they stand. -/

namespace Bytes

theorem foldl_append (acc : ByteArray) (parts : List ByteArray) :
    parts.foldl (· ++ ·) acc = acc ++ concat parts := by
  induction parts generalizing acc with
  | nil => exact ByteArray.append_empty.symm
  | cons q parts ih =>
    rw [concat, List.foldl_cons, List.foldl_cons, ih, ih (ByteArray.empty ++ q),
      ByteArray.empty_append, ByteArray.append_assoc]

theorem concat_cons (p : ByteArray) (parts : List ByteArray) :
    concat (p :: parts) = p ++ concat parts := by
  rw [concat, List.foldl_cons, foldl_append, ByteArray.empty_append]

theorem concat_singleton (p : ByteArray) : concat [p] = p := ByteArray.empty_append

theorem concat_append (parts parts' : List ByteArray) :
    concat (parts ++ parts') = concat parts ++ concat parts' := by
  rw [concat, List.foldl_append, foldl_append]
  rfl

theorem slice_middle (before data after : ByteArray) :
    slice (before ++ data ++ after) before.size data.size = data := by
  have := ByteArray.extract_append_size_add (a := before) (b := data ++ after) (i := 0)
    (j := data.size)
  rw [Nat.add_zero] at this
  rw [slice, ByteArray.append_assoc, this, ByteArray.extract_append_eq_left rfl]

section Concat

variable {parts : List ByteArray} {n : Nat} (h : ∀ p ∈ parts, p.size = n)

include h

theorem size_concat : (concat parts).size = n * parts.length := by
  induction parts with
  | nil => rfl
  | cons p parts ih =>
    obtain ⟨hp, hparts⟩ := List.forall_mem_cons.mp h
    rw [concat_cons, ByteArray.size_append, ih hparts, hp, List.length_cons]
    ring

/-- A part of those that stand side by side. -/
theorem slice_concat (before after : ByteArray) {k : Nat} (hk : k < parts.length) :
    slice (before ++ concat parts ++ after) (before.size + n * k) n = parts[k] := by
  induction parts generalizing before k with
  | nil => cases hk
  | cons p parts ih =>
    obtain ⟨hp, hparts⟩ := List.forall_mem_cons.mp h
    cases k with
    | zero =>
      have := slice_middle before p (concat parts ++ after)
      rw [hp] at this
      rw [concat_cons, mul_zero, Nat.add_zero, List.getElem_cons_zero]
      simpa only [ByteArray.append_assoc] using this
    | succ k =>
      have := ih hparts (before ++ p) (Nat.lt_of_succ_lt_succ hk)
      rw [ByteArray.size_append, hp] at this
      rw [concat_cons, List.getElem_cons_succ, ← this, mul_add_one, Nat.add_assoc, Nat.add_comm n]
      simp only [ByteArray.append_assoc]

theorem concat_inj {parts' : List ByteArray} (h' : ∀ p ∈ parts', p.size = n)
    (hlength : parts.length = parts'.length) (heq : concat parts = concat parts') :
    parts = parts' := by
  induction parts generalizing parts' with
  | nil => exact (List.length_eq_zero_iff.mp hlength.symm).symm
  | cons p parts ih =>
    obtain ⟨p', parts', rfl⟩ := List.exists_cons_of_length_eq_add_one hlength.symm
    obtain ⟨hp, hparts⟩ := List.forall_mem_cons.mp h
    obtain ⟨hp', hparts'⟩ := List.forall_mem_cons.mp h'
    rw [concat_cons, concat_cons] at heq
    obtain ⟨rfl, hrest⟩ :=
      (ByteArray.append_eq_append_iff_of_size_eq_left (hp.trans hp'.symm)).mp heq
    rw [ih hparts hparts' (Nat.succ.inj hlength) hrest]

end Concat

end Bytes

namespace Tagged

variable {F : Type} [ExtensionField F] [LawfulExtension F]

/-- The coordinates of a value, as many as its kind has. -/
def limbVector : (v : Tagged F) → Vector Fp (width F (TaggedValue.kind v))
  | .fp a => ExtensionField.limbs a
  | .fx a => ExtensionField.limbs a

omit [LawfulExtension F] in
theorem toList_limbVector (v : Tagged F) : v.limbVector.toList = TaggedValue.limbs v := by
  cases v <;> rfl

theorem ofLimbs_limbVector (v : Tagged F) : ofLimbs (TaggedValue.kind v) v.limbVector = v := by
  cases v with
  | fp a => exact congrArg fp (LawfulExtension.ofLimbs_limbs a)
  | fx a => exact congrArg fx (LawfulExtension.ofLimbs_limbs a)

theorem ofTag_tag (k : Kind) : Kind.ofTag k.tag = .ok k := by cases k <;> rfl

omit [LawfulExtension F] in
theorem size_limbBytes (v : Tagged F) :
    (TaggedValue.limbBytes v).size = 8 * width F (TaggedValue.kind v) := by
  rw [TaggedValue.limbBytes, Bytes.size_concat (n := 8), List.length_map, ← toList_limbVector,
    Vector.length_toList]
  intro p hp
  obtain ⟨a, -, rfl⟩ := List.mem_map.mp hp
  exact Bytes.size_little 8 _

/-- A value is read from its bytes, whatever bytes stand around them. -/
theorem read_encode (v : Tagged F) (before after : ByteArray) :
    read (before ++ TaggedValue.encode v ++ after) before.size =
      .ok (v, before.size + (TaggedValue.encode v).size) := by
  have hsize : (TaggedValue.encode v).size = 1 + 8 * width F (TaggedValue.kind v) := by
    rw [TaggedValue.encode, ByteArray.size_append, size_limbBytes]
    rfl
  have hsplit : before ++ TaggedValue.encode v ++ after =
      before ++ [(TaggedValue.kind v).tag].toByteArray ++ TaggedValue.limbBytes v ++ after := by
    simp only [TaggedValue.encode, ByteArray.append_assoc]
  have hbefore : (before ++ [(TaggedValue.kind v).tag].toByteArray).size = before.size + 1 :=
    ByteArray.size_append
  have htag : (before ++ TaggedValue.encode v ++ after)[before.size]? =
      some (TaggedValue.kind v).tag := by
    have hlt : before.size < (before ++ [(TaggedValue.kind v).tag].toByteArray).size := by omega
    rw [hsplit, ByteArray.append_assoc, getElem?_pos _ _
      (by rw [ByteArray.size_append]; omega), ByteArray.getElem_append_left hlt,
      ByteArray.getElem_append_right (Nat.le_refl _)]
    simp
  have hword (k : Nat) (hk : k < width F (TaggedValue.kind v)) :
      Bytes.number (Bytes.slice (before ++ TaggedValue.encode v ++ after)
        (before.size + 1 + 8 * k) 8) = v.limbVector[k].val := by
    have hlength : k < ((TaggedValue.limbs v).map fun a => Bytes.little 8 a.val).length := by
      rw [List.length_map, ← toList_limbVector, Vector.length_toList]
      exact hk
    have hparts : ∀ p ∈ (TaggedValue.limbs v).map fun a => Bytes.little 8 a.val, p.size = 8 := by
      intro p hp
      obtain ⟨a, -, rfl⟩ := List.mem_map.mp hp
      exact Bytes.size_little 8 _
    rw [hsplit, ← hbefore, TaggedValue.limbBytes, Bytes.slice_concat hparts _ _ hlength,
      List.getElem_map]
    simp only [← toList_limbVector, Vector.getElem_toList]
    have hval : v.limbVector[k].val < prime := v.limbVector[k].isLt
    exact Bytes.number_little (hval.trans (by decide))
  have hlimbs : readLimbs (before ++ TaggedValue.encode v ++ after) (before.size + 1)
      (width F (TaggedValue.kind v)) = .ok v.limbVector := by
    have hlt (k : Fin (width F (TaggedValue.kind v))) :
        Bytes.number (Bytes.slice (before ++ TaggedValue.encode v ++ after)
          (before.size + 1 + 8 * k) 8) < prime := by
      rw [hword k k.isLt]
      exact v.limbVector[k].isLt
    rw [readLimbs, if_neg (by simp only [ByteArray.size_append, hsize]; omega), limbsOfWords,
      dif_pos hlt]
    refine congrArg Except.ok (Vector.ext fun k hk => Fp.ext ?_)
    rw [Vector.getElem_ofFn]
    exact hword k hk
  rw [read, htag]
  dsimp only
  rw [ofTag_tag, ok_bind, hlimbs, ok_bind, ofLimbs_limbVector, hsize, ← Nat.add_assoc]
  rfl

end Tagged

/-! Actions on a stream as functions of the stream, and those that on a reading stream can only
succeed or reject. -/

section Action

variable {σ α β : Type}

theorem bind_of_ok {a : ExceptT Error (StateM σ) α} {f : α → ExceptT Error (StateM σ) β} {s s' : σ}
    {x : α} (h : a s = (.ok x, s')) : (a >>= f) s = f x s' := by
  show (match a s with
    | (x, s') => (ExceptT.bindCont f x : StateM σ (Except Error β)) s') = _
  rw [h]
  rfl

theorem bind_of_error {a : ExceptT Error (StateM σ) α} {f : α → ExceptT Error (StateM σ) β}
    {s s' : σ} {e : Error} (h : a s = (.error e, s')) : (a >>= f) s = (.error e, s') := by
  show (match a s with
    | (x, s') => (ExceptT.bindCont f x : StateM σ (Except Error β)) s') = _
  rw [h]
  rfl

/-- A success of two actions is one of each. -/
theorem exists_of_bind {a : ExceptT Error (StateM σ) α} {f : α → ExceptT Error (StateM σ) β}
    {s s' : σ} {y : β} (h : (a >>= f) s = (.ok y, s')) :
    ∃ x s₁, a s = (.ok x, s₁) ∧ f x s₁ = (.ok y, s') := by
  cases ha : a s with
  | mk r s₁ =>
    cases r with
    | error e =>
      rw [bind_of_error ha] at h
      cases h
    | ok x =>
      rw [bind_of_ok ha] at h
      exact ⟨x, s₁, rfl, h⟩

theorem pure_apply (x : α) (s : σ) : (pure x : ExceptT Error (StateM σ) α) s = (.ok x, s) := rfl

theorem get_apply (s : σ) : (get : ExceptT Error (StateM σ) σ) s = (.ok s, s) := rfl

theorem lift_apply (x : Except Error α) (s : σ) :
    (liftM x : ExceptT Error (StateM σ) α) s = (x, s) := rfl

theorem lift_bind_eq_ok {x : Except Error α} {f : α → ExceptT Error (StateM σ) β} {s s' : σ} {y : β} :
    ((liftM x : ExceptT Error (StateM σ) α) >>= f) s = (.ok y, s') ↔
      ∃ a, x = .ok a ∧ f a s = (.ok y, s') := by
  constructor
  · intro h
    obtain ⟨a, s₁, hx, hf⟩ := exists_of_bind h
    obtain ⟨rfl, rfl⟩ := Prod.mk.inj (hx.symm.trans (lift_apply x s))
    exact ⟨a, rfl, hf⟩
  · rintro ⟨a, rfl, hf⟩
    exact (bind_of_ok (lift_apply _ s)).trans hf

end Action

namespace Bytes

theorem pack_eq_ok {width : Nat} {n : Int} {b : ByteArray} :
    pack width n = .ok b ↔ (0 ≤ n ∧ n < 256 ^ width) ∧ b = little width n.toNat := by
  unfold pack
  rw [Nat.pow_eq, Nat.cast_pow, Nat.cast_ofNat]
  split
  · rename_i h
    simp [h, eq_comm]
  · rename_i h
    simp [h]

theorem pack_natCast {width n : Nat} (h : n < 256 ^ width) : pack width n = .ok (little width n) :=
  pack_eq_ok.mpr ⟨⟨Int.natCast_nonneg n, by exact_mod_cast h⟩, rfl⟩

theorem pack_of_le {width n : Nat} (h : 256 ^ width ≤ n) : pack width n = .error .integerWidth := by
  rw [pack, if_neg]
  rintro ⟨-, hlt⟩
  rw [Nat.pow_eq] at hlt
  exact absurd h (not_le.mpr (by exact_mod_cast hlt))

end Bytes

theorem length_eraseDups_le {α : Type} [BEq α] (xs : List α) : xs.eraseDups.length ≤ xs.length := by
  induction h : xs.length using Nat.strong_induction_on generalizing xs with
  | _ n ih =>
    cases xs with
    | nil => simp
    | cons x xs =>
      have hle : (xs.filter fun y => !y == x).length ≤ xs.length := List.length_filter_le ..
      have := ih _ (h ▸ Nat.lt_succ_of_le hle) (xs.filter fun y => !y == x) rfl
      rw [List.eraseDups_cons, List.length_cons]
      rw [List.length_cons] at h
      omega

namespace Transcript

variable (H : Hash)

/-- The blocks that hold this many bits. -/
def blocksFor (bits : Int) : Nat := ((bits + 255) / 256).toNat

/-- The loop squeezes the blocks for the bits that are missing, each behind the one before. -/
theorem squeeze_eq (bits : Int) (stream : ByteArray) (t : Transcript) : squeeze H bits stream t =
    (stream ++ Bytes.concat ((List.range (blocksFor (bits - stream.size * 8))).map fun j =>
        t.block H (t.squeezed + j)),
      { t with squeezed := t.squeezed + blocksFor (bits - stream.size * 8) }) := by
  -- Each block takes 256 from the bits that are missing.
  induction hn : blocksFor (bits - stream.size * 8) generalizing stream t with
  | zero =>
    have hfull : ¬ (stream.size * 8 : Int) < bits := by
      rw [blocksFor] at hn
      omega
    rw [squeeze, if_neg hfull]
    simp [Bytes.concat]
  | succ n ih =>
    have hshort : (stream.size * 8 : Int) < bits := by
      rw [blocksFor] at hn
      omega
    have hsize : (stream ++ t.block H t.squeezed).size = stream.size + 32 := by
      rw [ByteArray.size_append, block, H.size_digest]
    have hrest : blocksFor (bits - (stream ++ t.block H t.squeezed).size * 8) = n := by
      rw [blocksFor] at hn ⊢
      rw [hsize]
      omega
    have hblocks : ((List.range n).map fun j => t.block H (t.squeezed + 1 + j)) =
        ((List.range n).map Nat.succ).map fun j => t.block H (t.squeezed + j) := by
      rw [List.map_map]
      exact List.map_congr_left fun j _ => congrArg _ (Nat.add_right_comm ..)
    rw [squeeze, if_pos hshort, ih _ { t with squeezed := t.squeezed + 1 } hrest,
      List.range_succ_eq_map, List.map_cons, Bytes.concat_cons, ← ByteArray.append_assoc, ← hblocks]
    rw [Nat.add_assoc, Nat.add_comm 1 n]
    rfl

theorem chunks_apply (count bits : Int) (t : Transcript) : chunks H count bits t =
    (if bits < 0 then .error .negativeShift else .ok ((List.range count.toNat).map fun i =>
      (Bytes.number (Bytes.concat ((List.range (blocksFor (count * bits))).map fun j =>
        t.block H (t.squeezed + j))) >>> (i * bits.toNat)) % Nat.pow 2 bits.toNat),
      { t with squeezed := t.squeezed + blocksFor (count * bits) }) := by
  have hsqueeze := squeeze_eq H (count * bits) ByteArray.empty t
  rw [ByteArray.size_empty, Nat.cast_zero, zero_mul, sub_zero, ByteArray.empty_append] at hsqueeze
  have hlift : (liftM (squeeze H (count * bits) ByteArray.empty) : TranscriptM ByteArray) t = _ :=
    congrArg (fun drawn : ByteArray × Transcript => (Except.ok drawn.1, drawn.2)) hsqueeze
  rw [chunks, bind_of_ok hlift]
  split
  · rfl
  · rfl

theorem indices_apply (count size : Int) (t : Transcript) : indices H count size t =
    if size = Nat.pow 2 size.natAbs.log2 then
      ((chunks H count size.natAbs.log2 t).1.map List.eraseDups, (chunks H count size.natAbs.log2 t).2)
    else (.error (if size = 0 then .negativeShift else .sampleSize size), t) := by
  unfold indices
  by_cases hzero : size = 0
  · subst hzero
    rfl
  · rw [if_neg hzero, if_neg hzero]
    by_cases hpower : size = Nat.pow 2 size.natAbs.log2
    · rw [if_pos hpower, if_neg (not_not.mpr hpower)]
      cases h : chunks H count size.natAbs.log2 t with
      | mk drawn t' =>
        cases drawn with
        | error e => exact bind_of_error h
        | ok drawn => exact bind_of_ok h
    · rw [if_neg hpower, if_pos hpower]
      rfl

/-- Indices below a power of two are drawn without failure. -/
theorem indices_two_pow (count : Int) (k : Nat) (t : Transcript) :
    ∃ drawn t', indices H count (2 ^ k : Nat) t = (.ok drawn, t') ∧ (∀ i ∈ drawn, i < 2 ^ k) ∧
      drawn.length ≤ count.toNat := by
  have hlog : ((2 ^ k : Nat) : Int).natAbs.log2 = k := by
    rw [Int.natAbs_natCast, Nat.log2_two_pow]
  rw [indices_apply, hlog, Nat.pow_eq, if_pos rfl, chunks_apply, if_neg (by omega)]
  refine ⟨_, _, rfl, ?_, ?_⟩
  · intro i hi
    rw [List.mem_eraseDups, List.mem_map] at hi
    obtain ⟨j, -, rfl⟩ := hi
    exact Nat.mod_lt _ (Nat.two_pow_pos k)
  · exact (length_eraseDups_le _).trans_eq (by simp)

end Transcript

/-- The data of a claim fits the words and counts that it is absorbed with. -/
structure Claim.Packable (claim : Claim) : Prop where
  words : ∀ w ∈ claim.program, 0 ≤ w ∧ w < prime
  program : claim.program.size < 2 ^ 32
  input : claim.input.size < 2 ^ 32
  output : claim.output.size < 2 ^ 32

namespace ProofStream

theorem countedBytes_eq_ok {data b : ByteArray} :
    countedBytes data = .ok b ↔ data.size < 256 ^ 4 ∧ b = Bytes.little 4 data.size ++ data := by
  simp only [countedBytes, bind_eq_ok, Bytes.pack_eq_ok]
  constructor
  · rintro ⟨count, ⟨⟨-, hlt⟩, rfl⟩, h⟩
    cases h
    exact ⟨by exact_mod_cast hlt, rfl⟩
  · rintro ⟨hlt, rfl⟩
    exact ⟨_, ⟨⟨Int.natCast_nonneg _, by exact_mod_cast hlt⟩, rfl⟩, rfl⟩

theorem countedWords_eq_ok {width : Nat} {words : List Int} {b : ByteArray} :
    countedWords width words = .ok b ↔
      (words.length < 256 ^ 4 ∧ ∀ w ∈ words, 0 ≤ w ∧ w < 256 ^ width) ∧
        b = Bytes.little 4 words.length ++
          Bytes.concat (words.map fun w => Bytes.little width w.toNat) := by
  simp only [countedWords, bind_eq_ok, Bytes.pack_eq_ok,
    mapM_eq_ok_iff fun w b => @Bytes.pack_eq_ok width w b]
  constructor
  · rintro ⟨count, ⟨⟨-, hlt⟩, rfl⟩, parts, ⟨hwords, rfl⟩, h⟩
    cases h
    exact ⟨⟨by exact_mod_cast hlt, hwords⟩, rfl⟩
  · rintro ⟨⟨hlt, hwords⟩, rfl⟩
    exact ⟨_, ⟨⟨Int.natCast_nonneg _, by exact_mod_cast hlt⟩, rfl⟩, _, ⟨hwords, rfl⟩, rfl⟩

theorem countedBytes_eq {data : ByteArray} (h : data.size < 2 ^ 32) :
    countedBytes data = .ok (Bytes.little 4 data.size ++ data) :=
  countedBytes_eq_ok.mpr ⟨h.trans_eq (by norm_num), rfl⟩

theorem countedWords_eq {claim : Claim} (h : claim.Packable) :
    countedWords 8 claim.program.toList = .ok (Bytes.little 4 claim.program.size ++
      Bytes.concat (claim.program.toList.map fun w => Bytes.little 8 w.toNat)) := by
  apply countedWords_eq_ok.mpr
  rw [Array.length_toList]
  refine ⟨⟨h.program.trans_eq (by norm_num), ?_⟩, rfl⟩
  intro w hw
  obtain ⟨h0, hp⟩ := h.words w (Array.mem_toList_iff.mp hw)
  exact ⟨h0, hp.trans (by norm_num [prime])⟩

end ProofStream

/-- On a reading stream the action goes on reading, and gives a value that satisfies the condition
or rejects the proof. -/
def Reads {α : Type} (a : StreamM α) (P : α → Prop) : Prop :=
  ∀ s : ProofStream, s.reading = true → (a s).2.reading = true ∧ Safe (a s).1 P

namespace Reads

variable {α β : Type}

theorem pure {x : α} {P : α → Prop} (h : P x) : Reads (pure x : StreamM α) P :=
  fun _ hs => ⟨hs, h⟩

theorem mono {a : StreamM α} {P Q : α → Prop} (h : Reads a P)
    (himp : ∀ x, P x → Q x) : Reads a Q :=
  fun s hs => ⟨(h s hs).1, (h s hs).2.mono himp⟩

theorem bind {a : StreamM α} {f : α → StreamM β} {M : α → Prop} {P : β → Prop}
    (ha : Reads a M) (hf : ∀ x, M x → Reads (f x) P) : Reads (a >>= f) P := by
  intro s hs
  obtain ⟨hs', hx⟩ := ha s hs
  rcases h : a s with ⟨x | x, s'⟩
  · rw [h] at hs' hx
    rw [bind_of_error h]
    exact ⟨hs', hx⟩
  · rw [h] at hs' hx
    rw [bind_of_ok h]
    exact hf x hx s' hs'

theorem lift {x : Except Error α} {P : α → Prop} (h : Safe x P) :
    Reads (liftM x : StreamM α) P :=
  fun _ hs => ⟨hs, h⟩

theorem ite {c : Prop} [Decidable c] {a b : StreamM α} {P : α → Prop}
    (ha : c → Reads a P) (hb : ¬ c → Reads b P) : Reads (if c then a else b) P := by
  split
  · exact ha ‹_›
  · exact hb ‹_›

/-- A test that rejects, before the rest. -/
theorem check {c : Prop} [Decidable c] {r : Rejection} {a : StreamM α} {P : α → Prop}
    (ha : ¬ c → Reads a P) :
    Reads (do
      if c then throw (.rejected r)
      a) P := by
  split
  · exact fun _ hs => ⟨hs, r, rfl⟩
  · exact ha ‹_›

theorem pullMany {pull : StreamM α} {P : α → Prop} (h : Reads pull P) {n : Nat} :
    Reads (ProofStream.pullMany pull n) fun xs => xs.length = n ∧ ∀ x ∈ xs, P x := by
  induction n with
  | zero => exact Reads.pure ⟨rfl, by simp⟩
  | succ n ih =>
    refine h.bind fun x hx => ih.bind fun xs hxs => Reads.pure ⟨?_, ?_⟩
    · rw [List.length_cons, hxs.1]
    · exact List.forall_mem_cons.mpr ⟨hx, hxs.2⟩

theorem ok_or_rejected {a : StreamM α} {P : α → Prop} (h : Reads a P) (H : Hash)
    (proof : ByteArray) :
    (∃ x, (a (.reader H proof)).1 = .ok x ∧ P x) ∨
      ∃ r, (a (.reader H proof)).1 = .error (.rejected r) := by
  have hsafe := (h (.reader H proof) rfl).2
  rcases ha : (a (.reader H proof)).1 with e | x
  · rw [ha] at hsafe
    obtain ⟨r, rfl⟩ := hsafe
    exact .inr ⟨r, rfl⟩
  · rw [ha] at hsafe
    exact .inl ⟨x, rfl, hsafe⟩

end Reads

/-! Every read of a proof succeeds or rejects, and what the successes are like. -/

namespace Tagged

variable {F : Type} [ExtensionField F]

theorem safe_ofTag (tag : UInt8) : Safe (Kind.ofTag tag) fun _ => True := by
  rw [Kind.ofTag]
  split
  · trivial
  · split
    · trivial
    · exact Safe.rejected

theorem safe_limbsOfWords (width : Nat) (word : Nat → Nat) :
    Safe (limbsOfWords width word) fun _ => True := by
  rw [limbsOfWords]
  split
  · trivial
  · exact Safe.rejected

theorem safe_readLimbs (buffer : ByteArray) (offset width : Nat) :
    Safe (readLimbs buffer offset width) fun _ => True := by
  rw [readLimbs]
  split
  · exact Safe.rejected
  · exact safe_limbsOfWords _ _

theorem safe_read (buffer : ByteArray) (offset : Nat) :
    Safe (read (F := F) buffer offset) fun _ => True := by
  rw [read]
  split
  · exact Safe.rejected
  · refine (safe_ofTag _).bind fun kind _ => ?_
    exact (safe_readLimbs _ _ _).bind fun _ _ => trivial

end Tagged

namespace ProofStream

variable (H : Hash)

theorem reads_absorb (data : ByteArray) : Reads (absorb H data) fun _ => True :=
  fun _ hs => ⟨hs, trivial⟩

theorem reads_read (count : Nat) : Reads (read H count) fun _ => True := by
  intro s hs
  rw [read, bind_of_ok (get_apply s), if_neg (by simp [hs])]
  by_cases h : s.cursor + count > s.buffer.size
  · rw [if_pos h]
    exact ⟨hs, Safe.rejected⟩
  · rw [if_neg h]
    exact ⟨hs, trivial⟩

theorem reads_pullU32 : Reads (pullU32 H) fun _ => True :=
  (reads_read H 4).bind fun _ _ => Reads.pure trivial

theorem reads_pullU64 : Reads (pullU64 H) fun _ => True :=
  (reads_read H 8).bind fun _ _ => Reads.pure trivial

theorem reads_pullDigest : Reads (pullDigest H) fun _ => True :=
  (reads_pullU32 H).bind fun _ _ => Reads.check fun _ => reads_read H _

section Elements

variable (F : Type) [ExtensionField F]

theorem reads_pullElement : Reads (pullElement H F) fun _ => True := by
  intro s hs
  rw [pullElement, bind_of_ok (get_apply s), if_neg (by simp [hs])]
  refine Reads.bind (M := fun _ => True) (Reads.lift (Tagged.safe_read _ _)) (fun x _ => ?_) s hs
  exact (reads_read H _).bind fun _ _ => Reads.pure trivial

theorem reads_pullElements (limit : Int) : Reads (pullElements H F (some limit)) fun _ => True :=
  (reads_pullU32 H).bind fun _ _ => Reads.check fun _ =>
    (reads_pullElement H F).pullMany.mono fun _ _ => trivial

/-- An opening that is read names an index of the tree and has as many values as asked for. -/
theorem reads_pullOpening (width height : Int) : Reads (pullOpening H F width height) fun o =>
    0 ≤ o.index ∧ o.index < height ∧ o.values.length = width := by
  refine (reads_pullU32 H).bind fun index _ => Reads.check fun hindex => ?_
  refine (reads_pullElements H F width).bind fun values _ => Reads.check fun hwidth => ?_
  refine (reads_pullU32 H).bind fun depth _ => Reads.check fun _ => ?_
  refine (reads_pullDigest H).pullMany.bind fun path _ => Reads.pure ?_
  exact ⟨Int.natCast_nonneg index, not_le.mp hindex, not_not.mp hwidth⟩

theorem reads_sampleField : Reads (sampleField H F) fun _ => True :=
  fun _ hs => ⟨hs, trivial⟩

theorem reads_sampleFields (n : Nat) : Reads (sampleFields H F n) fun _ => True :=
  fun _ hs => ⟨hs, trivial⟩

end Elements

theorem reads_finish : Reads finish fun _ => True := by
  intro s hs
  rw [finish, bind_of_ok (get_apply s)]
  split
  · exact ⟨hs, Safe.rejected⟩
  · exact ⟨hs, trivial⟩

theorem reads_challengeState : Reads challengeState fun _ => True :=
  fun _ hs => ⟨hs, trivial⟩

/-- Drawing below a power of two does not fail. -/
theorem reads_sampleIndices (count : Int) (k : Nat) :
    Reads (sampleIndices H count (2 ^ k : Nat)) fun _ => True := by
  intro s hs
  obtain ⟨drawn, t, h, -⟩ := Transcript.indices_two_pow H count k s.transcript
  rw [sampleIndices, liftTranscript, h]
  exact ⟨hs, trivial⟩

/-- Public data of representable lengths and words is absorbed without failure. -/
theorem reads_absorbClaim {claim : Claim} (h : claim.Packable) :
    Reads (absorbClaim H claim) fun _ => True := by
  have message (data : ByteArray) :
      Reads (liftM (Except.ok data : Except Error ByteArray) : StreamM _) fun _ => True :=
    Reads.lift (Safe.ok_iff.mpr trivial)
  rw [absorbClaim, countedWords_eq h, countedBytes_eq h.input, countedBytes_eq h.output]
  refine (message _).bind fun _ _ => (reads_absorb H _).bind fun _ _ => ?_
  refine (message _).bind fun _ _ => (reads_absorb H _).bind fun _ _ => ?_
  exact (message _).bind fun _ _ => reads_absorb H _

end ProofStream

end TapeStark
