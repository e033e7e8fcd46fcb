import Mathlib
import TapeStark.Proofs.Stream.Action
import TapeStark.Stream.Basic

/-! Reading back what was written. An action that writes is paired with one that reads: started
from the same transcript, on bytes with those written next, the reading gives a related value and
ends in the same transcript, behind those bytes. -/

namespace TapeStark

/-- The writing fails, and `E` foresees this of the error and the stream that is left, or the reading
repeats it, whatever bytes stand before those written and whatever bytes that satisfy `T` come
behind. -/
def Replays {α β : Type} (T : ByteArray → Prop) (E : Error → ProofStream → Prop) (p : StreamM α)
    (v : StreamM β) (R : α → β → Prop) : Prop :=
  ∀ w : ProofStream, w.reading = false →
    (∃ e w', p w = (.error e, w') ∧ E e w') ∨
      ∃ a w' written, p w = (.ok a, w') ∧ w'.reading = false ∧ w'.buffer = w.buffer ++ written ∧
        ∀ before after, T after → ∃ b, R a b ∧
          v ⟨w.transcript, true, before ++ written ++ after, before.size⟩ =
            (.ok b, ⟨w'.transcript, true, before ++ written ++ after, (before ++ written).size⟩)

namespace Replays

variable {α β γ δ : Type} {T : ByteArray → Prop} {E : Error → ProofStream → Prop} {R : α → β → Prop}

protected theorem pure {a : α} {b : β} (h : R a b) : Replays T E (pure a) (pure b) R := by
  intro w hw
  refine .inr ⟨a, w, ByteArray.empty, rfl, hw, ByteArray.append_empty.symm, ?_⟩
  intro before after _
  refine ⟨b, h, ?_⟩
  rw [ByteArray.append_empty]
  rfl

theorem mono {p : StreamM α} {v : StreamM β} {Q : α → β → Prop} (h : Replays T E p v R)
    (himp : ∀ a b, R a b → Q a b) : Replays T E p v Q := by
  intro w hw
  rcases h w hw with herror | ⟨a, w', written, hp, hw', hbuffer, hv⟩
  · exact .inl herror
  · refine .inr ⟨a, w', written, hp, hw', hbuffer, fun before after hafter => ?_⟩
    obtain ⟨b, hb, hread⟩ := hv before after hafter
    exact ⟨b, himp a b hb, hread⟩

/-- One after the other; what the second part writes follows the first. -/
protected theorem bind {p : StreamM α} {v : StreamM β} {f : α → StreamM γ} {g : β → StreamM δ}
    {Q : γ → δ → Prop} (h : Replays (fun _ => True) E p v R)
    (hf : ∀ a b, R a b → Replays T E (f a) (g b) Q) : Replays T E (p >>= f) (v >>= g) Q := by
  intro w hw
  rcases h w hw with ⟨e, w', hp, he⟩ | ⟨a, w', first, hp, hw', hbuffer, hv⟩
  · exact .inl ⟨e, w', bind_of_error hp, he⟩
  · rw [bind_of_ok hp]
    -- The second part fails alike whatever value was read, so any related value will do.
    obtain ⟨b₀, hb₀, -⟩ := hv ByteArray.empty ByteArray.empty trivial
    rcases hf a b₀ hb₀ w' hw' with ⟨e, w'', hfail, he⟩ | ⟨c, w'', second, hsecond, hw'', hbuffer', -⟩
    · exact .inl ⟨e, w'', hfail, he⟩
    · refine .inr ⟨c, w'', first ++ second, hsecond, hw'', ?_, fun before after hafter => ?_⟩
      · rw [hbuffer', hbuffer, ByteArray.append_assoc]
      · obtain ⟨b, hb, hread⟩ := hv before (second ++ after) trivial
        have hsame := hf a b hb w' hw'
        rw [hsecond] at hsame
        obtain ⟨e, _, h, -⟩ | ⟨c', _, second', h, -, hbuffer'', hv'⟩ := hsame
        · cases h
        · cases h
          obtain rfl : second = second' :=
            (ByteArray.append_right_inj w'.buffer).mp (hbuffer'.symm.trans hbuffer'')
          obtain ⟨d, hd, hread'⟩ := hv' (before ++ first) after hafter
          refine ⟨d, hd, ?_⟩
          have hall : before ++ (first ++ second) ++ after = before ++ first ++ (second ++ after) := by
            simp only [ByteArray.append_assoc]
          rw [hall, bind_of_ok hread, ← ByteArray.append_assoc, hread']
          simp only [ByteArray.append_assoc]

/-- What the reader does behind the reading. -/
theorem bind_right {p : StreamM α} {v : StreamM β} {g : β → StreamM δ} {Q : α → δ → Prop}
    (h : Replays (fun _ => True) E p v R) (hg : ∀ a b, R a b → Replays T E (pure a) (g b) Q) :
    Replays T E p (v >>= g) Q := by
  rw [← bind_pure p]
  exact h.bind hg

/-- What the writer does behind the writing. -/
theorem bind_left {p : StreamM α} {v : StreamM β} {f : α → StreamM γ} {Q : γ → β → Prop}
    (h : Replays (fun _ => True) E p v R) (hf : ∀ a b, R a b → Replays T E (f a) (pure b) Q) :
    Replays T E (p >>= f) v Q := by
  rw [← bind_pure v]
  exact h.bind hf

/-- A test of the reader that passes. -/
theorem check_right {c : Prop} [Decidable c] {e : Error} {p : StreamM α} {v : StreamM β}
    (hc : ¬ c) (h : Replays T E p v R) :
    Replays T E p (do
      if c then throw e
      v) R := by
  rw [if_neg hc]
  exact h

/-- A computation of the writer alone. -/
theorem lift_left {x : Except Error α} {f : α → StreamM γ} {v : StreamM δ} {Q : γ → δ → Prop}
    (herror : ∀ e, x = .error e → ∀ s, E e s) (hok : ∀ a, x = .ok a → Replays T E (f a) v Q) :
    Replays T E (liftM x >>= f) v Q := by
  intro w hw
  cases x with
  | error e => exact .inl ⟨e, w, bind_of_error (lift_apply _ w), herror e rfl w⟩
  | ok a =>
    rw [bind_of_ok (lift_apply _ w)]
    exact hok a rfl w hw

theorem ok_left {x : Except Error α} {a : α} (hx : x = .ok a) {f : α → StreamM γ} {v : StreamM δ}
    {Q : γ → δ → Prop} (h : Replays T E (f a) v Q) : Replays T E (liftM x >>= f) v Q := by
  subst hx
  exact h

/-- A computation of the writer that fails as foreseen. -/
theorem error_left {x : Except Error α} {e : Error} (hx : x = .error e) (he : ∀ s, E e s)
    {f : α → StreamM γ} {v : StreamM δ} {Q : γ → δ → Prop} : Replays T E (liftM x >>= f) v Q := by
  subst hx
  exact fun w _ => .inl ⟨e, w, bind_of_error (lift_apply _ w), he w⟩

/-- A computation of the reader alone. -/
theorem ok_right {y : Except Error β} {b : β} (hy : y = .ok b) {p : StreamM γ} {g : β → StreamM δ}
    {Q : γ → δ → Prop} (h : Replays T E p (g b) Q) : Replays T E p (liftM y >>= g) Q := by
  subst hy
  exact h

/-- An action that acts on the transcript alone repeats itself. -/
theorem self {a : StreamM α} {f : Transcript → α × Transcript}
    (h : ∀ s : ProofStream,
      a s = (.ok (f s.transcript).1, { s with transcript := (f s.transcript).2 })) :
    Replays T E a a fun x y => y = x ∧ ∃ t, x = (f t).1 := by
  intro w hw
  refine .inr ⟨_, _, ByteArray.empty, h w, hw, ByteArray.append_empty.symm,
    fun before after _ => ⟨_, ⟨rfl, w.transcript, rfl⟩, ?_⟩⟩
  rw [h, ByteArray.append_empty]

/-- What is written for every entry of a list is read one by one. -/
theorem pullMany {xs : List α} {write : α → StreamM Unit} {pull : StreamM β}
    (h : ∀ x ∈ xs, ∀ T, Replays T E (write x) pull fun _ y => R x y) :
    Replays T E (xs.forM write) (ProofStream.pullMany pull xs.length)
      fun _ ys => List.Forall₂ R xs ys := by
  induction xs generalizing T with
  | nil => exact Replays.pure .nil
  | cons x xs ih =>
    obtain ⟨hx, hxs⟩ := List.forall_mem_cons.mp h
    refine (hx _).bind fun _ y hy => ?_
    exact (ih hxs).bind_right fun _ ys hys => Replays.pure (.cons hy hys)

/-- From a fresh stream: the bytes written are read back. -/
theorem run {p : StreamM α} {v : StreamM β} (h : Replays (· = ByteArray.empty) E p v R) (H : Hash) :
    (∃ e s, p (.writer H) = (.error e, s) ∧ E e s) ∨
      ∃ a s b s', p (.writer H) = (.ok a, s) ∧ v (.reader H s.buffer) = (.ok b, s') ∧ R a b := by
  rcases h (.writer H) rfl with herror | ⟨a, s, written, hp, -, hbuffer, hv⟩
  · exact .inl herror
  · obtain ⟨b, hb, hread⟩ := hv ByteArray.empty ByteArray.empty rfl
    have hall : ByteArray.empty ++ written ++ ByteArray.empty = s.buffer := by
      rw [ByteArray.append_empty]
      exact hbuffer.symm
    rw [hall] at hread
    exact .inr ⟨a, s, b, _, hp, hread, hb⟩

end Replays

namespace ProofStream

variable {T : ByteArray → Prop} {E : Error → ProofStream → Prop} (H : Hash)

theorem write_apply {w : ProofStream} (hw : w.reading = false) (data : ByteArray) :
    write H data w =
      (.ok (), { w with transcript := w.transcript.put H data, buffer := w.buffer ++ data }) := by
  rw [write, bind_of_ok (get_apply w), if_neg (by simp [hw])]
  rfl

theorem read_apply (t : Transcript) (before data after : ByteArray) :
    read H data.size ⟨t, true, before ++ data ++ after, before.size⟩ =
      (.ok data, ⟨t.put H data, true, before ++ data ++ after, (before ++ data).size⟩) := by
  have htotal : ¬ before.size + data.size > (before ++ data ++ after).size := by
    simp only [ByteArray.size_append]
    omega
  rw [read, bind_of_ok (get_apply _), if_neg (by simp), if_neg htotal]
  dsimp only
  rw [Bytes.slice_middle, ByteArray.size_append]
  rfl

/-- A message that is written is the next that is read. -/
theorem replays_write (data : ByteArray) :
    Replays T E (write H data) (read H data.size) fun _ b => b = data := fun w hw =>
  .inr ⟨(), _, data, write_apply H hw data, hw, rfl,
    fun before after _ => ⟨data, rfl, read_apply H w.transcript before data after⟩⟩

theorem replays_atom {V : Type} [TaggedValue V] {a : Atom V} {data : ByteArray}
    (h : a.encode = .ok data) :
    Replays T E (pushAtom H a) (read H data.size) fun _ b => b = data :=
  Replays.ok_left h (replays_write H data)

section Items

variable {V : Type} [TaggedValue V]

theorem replays_number {n : Nat} (width : Nat) (h : n < 256 ^ width) {a : Atom V}
    (ha : a.encode = Bytes.pack width n) :
    Replays T E (pushAtom H a) (read H width >>= fun data => pure (Bytes.number data))
      fun _ k => k = n := by
  have hread := replays_atom (T := fun _ => True) (E := E) H (ha.trans (Bytes.pack_natCast h))
  rw [Bytes.size_little] at hread
  refine hread.bind_right fun _ data hdata => Replays.pure ?_
  rw [hdata, Bytes.number_little h]

theorem replays_u32_atom {n : Nat} (h : n < 2 ^ 32) :
    Replays T E (pushAtom H (.u32 n : Atom V)) (pullU32 H) fun _ k => k = n :=
  replays_number H 4 h rfl

theorem replays_u64_atom {n : Nat} (h : n < 2 ^ 64) :
    Replays T E (pushAtom H (.u64 n : Atom V)) (pullU64 H) fun _ k => k = n :=
  replays_number H 8 h rfl

/-- A number that is too wide is not written. -/
theorem replays_count_atom {n : Nat} (h : 2 ^ 32 ≤ n → ∀ s, E .integerWidth s) :
    Replays T E (pushAtom H (.u32 n : Atom V)) (pullU32 H) fun _ k => k = n := by
  rcases Nat.lt_or_ge n (2 ^ 32) with hlt | hle
  · exact replays_u32_atom H hlt
  · have hpack : (.u32 n : Atom V).encode = .error .integerWidth := Bytes.pack_of_le hle
    refine Replays.lift_left (fun e he => ?_) fun data hdata => ?_
    · cases hpack.symm.trans he
      exact h hle
    · cases hpack.symm.trans hdata

theorem pushAtoms_append (as bs : List (Atom V)) :
    pushAtoms H (as ++ bs) = pushAtoms H as >>= fun _ => pushAtoms H bs := by
  induction as with
  | nil => rw [List.nil_append, pushAtoms, pure_bind]
  | cons a as ih => rw [List.cons_append, pushAtoms, pushAtoms, bind_assoc, ih]

theorem pushAtoms_flatMap {α : Type} (xs : List α) (atoms : α → List (Atom V)) :
    pushAtoms H (xs.flatMap atoms) = xs.forM fun x => pushAtoms H (atoms x) := by
  induction xs with
  | nil => rfl
  | cons x xs ih =>
    rw [List.flatMap_cons, pushAtoms_append, ih]
    rfl

/-- Values whose atoms are written one behind the other are read one by one. -/
theorem replays_flatMap {α : Type} {xs : List α} {atoms : α → List (Atom V)} {pull : StreamM α}
    (h : ∀ x ∈ xs, ∀ T, Replays T E (pushAtoms H (atoms x)) pull fun _ y => y = x) :
    Replays T E (pushAtoms H (xs.flatMap atoms)) (pullMany pull xs.length) fun _ ys => ys = xs := by
  rw [pushAtoms_flatMap]
  refine (Replays.pullMany h).mono fun _ ys hys => ?_
  exact (List.forall₂_eq_eq_eq ▸ hys.flip : ys = xs)

theorem replays_u32 {n : Nat} (h : n < 2 ^ 32) :
    Replays T E (push H (.u32 n : Item V)) (pullU32 H) fun _ k => k = n :=
  (replays_u32_atom H h).bind_left fun _ _ hk => Replays.pure hk

theorem replays_u64 {n : Nat} (h : n < 2 ^ 64) :
    Replays T E (push H (.u64 n : Item V)) (pullU64 H) fun _ k => k = n :=
  (replays_u64_atom H h).bind_left fun _ _ hk => Replays.pure hk

theorem replays_digest {d : ByteArray} (h : d.size = Hash.size) :
    Replays T E (push H (.digest d : Item V)) (pullDigest H) fun _ b => b = d := by
  refine (replays_u32_atom H (by rw [h]; decide)).bind fun _ k hk => ?_
  subst hk
  refine Replays.check_right (not_not.mpr h) ?_
  exact (replays_write H d).bind_left fun _ _ hd => Replays.pure hd

end Items

section Elements

variable {F : Type} [ExtensionField F] [LawfulExtension F]

theorem replays_element_atom (v : Tagged F) :
    Replays T E (pushAtom H (.element v)) (pullElement H F) fun _ b => b = v := by
  intro w hw
  refine .inr ⟨(), _, TaggedValue.encode v, write_apply H hw _, hw, rfl,
    fun before after _ => ⟨v, rfl, ?_⟩⟩
  have hread := read_apply H w.transcript before (TaggedValue.encode v) after
  have hstop : before.size + (TaggedValue.encode v).size - before.size =
      (TaggedValue.encode v).size := Nat.add_sub_cancel_left ..
  rw [pullElement, bind_of_ok (get_apply _), if_neg (by simp)]
  dsimp only
  rw [Tagged.read_encode, bind_of_ok (lift_apply (.ok _) _)]
  dsimp only
  rw [hstop, bind_of_ok hread]
  rfl

theorem replays_element_item (v : Tagged F) :
    Replays T E (push H (.element v)) (pullElement H F) fun _ b => b = v :=
  (replays_element_atom H v).bind_left fun _ _ hv => Replays.pure hv

/-- Elements within the limit are read back. -/
theorem replays_elements {vs : List (Tagged F)} (h : 2 ^ 32 ≤ vs.length → ∀ s, E .integerWidth s)
    {limit : Option Int}
    (hlimit : ∀ n ∈ limit, (vs.length : Int) ≤ n) :
    Replays T E (pushAtoms H (Item.elementsAtoms vs)) (pullElements H F limit)
      fun _ bs => bs = vs := by
  refine (replays_count_atom H h).bind fun _ k hk => ?_
  subst hk
  have hlist : Replays T E (pushAtoms H (vs.map .element)) (pullMany (pullElement H F) vs.length)
      fun _ bs => bs = vs := by
    rw [List.map_eq_flatMap]
    exact replays_flatMap H fun v _ T => replays_element_item H v
  cases limit with
  | none => exact hlist
  | some n => exact Replays.check_right (not_lt.mpr (hlimit n rfl)) hlist

/-- An opening of the right shape is read back. -/
theorem replays_opening {o : Opening (Tagged F)} {index : Nat} (hindex : o.index = index)
    (hsmall : index < 2 ^ 32) {width height : Int} (hheight : o.index < height)
    (hwidth : o.values.length = width) (hcount : 2 ^ 32 ≤ o.values.length → ∀ s, E .integerWidth s)
    (hdepth : o.path.length ≤ maxPathLength) (hpath : ∀ d ∈ o.path, d.size = Hash.size) :
    Replays T E (push H (.opening o)) (pullOpening H F width height) fun _ b => b = o := by
  have hatoms : push H (.opening o) = pushAtom H (.u32 o.index : Atom (Tagged F)) >>= fun _ =>
      pushAtoms H (Item.elementsAtoms o.values) >>= fun _ =>
        pushAtom H (.u32 o.path.length : Atom (Tagged F)) >>= fun _ =>
          pushAtoms H (o.path.flatMap (Item.digestAtoms (V := Tagged F))) := by
    rw [push, Item.atoms, List.cons_append, pushAtoms, pushAtoms_append, pushAtoms]
  rw [hatoms, hindex]
  refine (replays_u32_atom H hsmall).bind fun _ k hk => ?_
  subst hk
  refine Replays.check_right (by omega) ?_
  have hlimit : ∀ n ∈ some width, (o.values.length : Int) ≤ n := by
    rintro n ⟨⟩
    exact hwidth.le
  refine (replays_elements H hcount hlimit).bind fun _ vs hvs => ?_
  subst hvs
  refine Replays.check_right (not_not.mpr hwidth) ?_
  refine (replays_u32_atom (V := Tagged F) H (hdepth.trans_lt (by decide))).bind fun _ k hk => ?_
  subst hk
  refine Replays.check_right (not_lt.mpr hdepth) ?_
  refine (replays_flatMap H fun d hd T => replays_digest H (hpath d hd)).bind_right fun _ ds hds => Replays.pure ?_
  rw [hds, ← hindex]

end Elements

section Transcript

theorem replays_absorb (data : ByteArray) :
    Replays T E (absorb H data) (absorb H data) fun _ _ => True :=
  (Replays.self (f := fun t => ((), t.put H data)) fun _ => rfl).mono fun _ _ _ => trivial

/-- Public data is bound alike on both sides. -/
theorem replays_absorbClaim {claim : Claim} (h : claim.Packable) :
    Replays T E (absorbClaim H claim) (absorbClaim H claim) fun _ _ => True := by
  rw [absorbClaim, countedWords_eq h, countedBytes_eq h.input, countedBytes_eq h.output]
  refine .ok_left rfl (.ok_right rfl ((replays_absorb H _).bind fun _ _ _ => ?_))
  refine .ok_left rfl (.ok_right rfl ((replays_absorb H _).bind fun _ _ _ => ?_))
  exact .ok_left rfl (.ok_right rfl (replays_absorb H _))

theorem replays_sampleField (F : Type) [ExtensionField F] :
    Replays T E (sampleField H F) (sampleField H F) fun a b => b = a :=
  (Replays.self (f := Transcript.field H F) fun _ => rfl).mono fun _ _ h => h.1

theorem replays_sampleFields (F : Type) [ExtensionField F] (n : Nat) :
    Replays T E (sampleFields H F n) (sampleFields H F n) fun a b => b = a :=
  (Replays.self (f := Transcript.fields H F n) fun _ => rfl).mono fun _ _ h => h.1

theorem replays_sampleIndices (count : Int) (k : Nat) :
    Replays T E (sampleIndices H count (2 ^ k : Nat)) (sampleIndices H count (2 ^ k : Nat))
      fun a b => b = a ∧ (∀ i ∈ a, i < 2 ^ k) ∧ a.length ≤ count.toNat := by
  choose drawn after hdrawn hsmall using Transcript.indices_two_pow H count k
  refine (Replays.self (f := fun t => (drawn t, after t)) fun s => ?_).mono fun a b h => ?_
  · rw [sampleIndices, liftTranscript, hdrawn]
  · obtain ⟨hsame, t, rfl⟩ := h
    exact ⟨hsame, hsmall t⟩

end Transcript

end ProofStream

end TapeStark
