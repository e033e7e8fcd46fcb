import Mathlib
import TapeStark.Proofs.Stream.Canonical
import TapeStark.Proofs.Stream.Dialogue

/-!
How a reader depends on its bytes. What it has read decides alone what it does, so that other bytes
behind change nothing, and bytes that end before it is done are malformed. An action that ends by
asking for the end of the bytes thus succeeds on no two byte strings of which one begins the other.
-/

namespace TapeStark

namespace Bytes

/-- Of two ways to cut the same bytes, one cuts no later than the other. -/
theorem exists_between {a b c d : ByteArray} (h : a ++ b = c ++ d) (hle : a.size ≤ c.size) :
    ∃ e, c = a ++ e ∧ b = e ++ d := by
  obtain ⟨first, e, rfl, hsize⟩ := exists_split hle
  rw [ByteArray.append_assoc] at h
  obtain ⟨rfl, hrest⟩ := (ByteArray.append_eq_append_iff_of_size_eq_left hsize).mp h
  exact ⟨e, rfl, hrest⟩

/-- Two parts, cut short: the cut is in the second part, or takes something off the first. -/
theorem cut_cases {a b short lost : ByteArray} (h : a ++ b = short ++ lost) :
    (∃ middle, short = a ++ middle ∧ b = middle ++ lost) ∨
      ∃ middle, a = short ++ middle ∧ middle ≠ ByteArray.empty := by
  by_cases hle : a.size ≤ short.size
  · exact .inl (exists_between h hle)
  · obtain ⟨middle, ha, -⟩ := exists_between h.symm (by omega)
    refine .inr ⟨middle, ha, ?_⟩
    intro hempty
    rw [ha, hempty, ByteArray.append_empty] at hle
    exact hle le_rfl

end Bytes

def Fails {α : Type} (a : StreamM α) (s : ProofStream) : Prop :=
  ∃ m s', a s = (.error (.malformed m), s')

theorem Fails.bind {α β : Type} {a : StreamM α} {f : α → StreamM β} {s : ProofStream}
    (h : Fails a s) : Fails (a >>= f) s := by
  obtain ⟨m, s', ha⟩ := h
  exact ⟨m, s', bind_of_error ha⟩

/-- A success takes some of the bytes that are left. It repeats itself where others come behind those
taken, and where those are cut short the action fails. -/
def Framed {α : Type} (a : StreamM α) : Prop :=
  ∀ (t : Transcript) (before rest : ByteArray) (x : α) (s : ProofStream),
    a ⟨t, true, before ++ rest, before.size⟩ = (.ok x, s) →
      ∃ t' data after, rest = data ++ after ∧
        s = ⟨t', true, before ++ rest, (before ++ data).size⟩ ∧
        (∀ after', a ⟨t, true, before ++ (data ++ after'), before.size⟩ =
          (.ok x, ⟨t', true, before ++ (data ++ after'), (before ++ data).size⟩)) ∧
        ∀ short lost, data = short ++ lost → lost ≠ ByteArray.empty →
          Fails a ⟨t, true, before ++ short, before.size⟩

namespace Framed

variable {α β : Type}

/-- An action that touches no bytes. -/
theorem of_onTranscript {a : StreamM α} (h : ProofStream.OnTranscript a) : Framed a := by
  obtain ⟨f, rfl⟩ := h
  intro t before rest x s ha
  have hrun (b : ByteArray) : ProofStream.liftTranscript f ⟨t, true, b, before.size⟩ =
      ((f t).1, ⟨(f t).2, true, b, before.size⟩) := rfl
  rw [hrun] at ha
  obtain ⟨hx, rfl⟩ := Prod.mk.inj ha
  refine ⟨(f t).2, ByteArray.empty, rest, ByteArray.empty_append.symm, ?_, ?_, ?_⟩
  · rw [ByteArray.append_empty]
  · intro after'
    rw [hrun, hx, ByteArray.append_empty]
  · intro short lost hcut hlost
    exact absurd (ByteArray.append_eq_empty_iff.mp hcut.symm).2 hlost

protected theorem pure (x : α) : Framed (pure x : StreamM α) := of_onTranscript (.pure x)

protected theorem lift (x : Except Error α) : Framed (liftM x : StreamM α) :=
  of_onTranscript (.lift x)

/-- Bytes of two actions that are cut short end in those of the first or of the second. -/
theorem fails_of_cut {a : StreamM α} {f : α → StreamM β} {t t₁ : Transcript} {x : α}
    {before data rest : ByteArray}
    (hmore : ∀ after, a ⟨t, true, before ++ (data ++ after), before.size⟩ =
      (.ok x, ⟨t₁, true, before ++ (data ++ after), (before ++ data).size⟩))
    (hshort : ∀ short lost, data = short ++ lost → lost ≠ ByteArray.empty →
      Fails a ⟨t, true, before ++ short, before.size⟩)
    (hshort' : ∀ short lost, rest = short ++ lost → lost ≠ ByteArray.empty →
      Fails (f x) ⟨t₁, true, before ++ data ++ short, (before ++ data).size⟩)
    {short lost : ByteArray} (hcut : data ++ rest = short ++ lost) (hlost : lost ≠ ByteArray.empty) :
    Fails (a >>= f) ⟨t, true, before ++ short, before.size⟩ := by
  obtain ⟨middle, rfl, hrest⟩ | ⟨middle, hdata, hmiddle⟩ := Bytes.cut_cases hcut
  · obtain ⟨m, s', hfail⟩ := hshort' middle lost hrest hlost
    rw [ByteArray.append_assoc] at hfail
    exact ⟨m, s', (bind_of_ok (hmore middle)).trans hfail⟩
  · exact (hshort short middle hdata hmiddle).bind

/-- One after the other. -/
protected theorem bind {a : StreamM α} {f : α → StreamM β} (ha : Framed a)
    (hf : ∀ x, Framed (f x)) : Framed (a >>= f) := by
  intro t before rest y s h
  obtain ⟨x, s₁, hrun, h⟩ := exists_of_bind h
  obtain ⟨t₁, data, after, rfl, rfl, hmore, hshort⟩ := ha t before rest x s₁ hrun
  rw [← ByteArray.append_assoc] at h
  obtain ⟨t₂, data', after', rfl, rfl, hmore', hshort'⟩ := hf x t₁ (before ++ data) after y s h
  refine ⟨t₂, data ++ data', after', ByteArray.append_assoc.symm, ?_, ?_, ?_⟩
  · simp only [ByteArray.append_assoc]
  · intro other
    have hfirst := hmore (data' ++ other)
    have hsecond := hmore' other
    rw [ByteArray.append_assoc] at hsecond
    rw [ByteArray.append_assoc, bind_of_ok hfirst, hsecond]
    simp only [ByteArray.append_assoc]
  · intro short lost hcut hlost
    exact fails_of_cut hmore hshort hshort' hcut hlost

/-- A test before the rest. -/
theorem check {c : Prop} [Decidable c] {e : Error} {a : StreamM α} (h : Framed a) :
    Framed (do
      if c then throw e
      a) := by
  by_cases hc : c
  · rw [if_pos hc]
    exact (Framed.lift (.error e)).bind fun _ => h
  · rw [if_neg hc]
    exact h

theorem ite {c : Prop} [Decidable c] {a b : StreamM α} (ha : Framed a) (hb : Framed b) :
    Framed (if c then a else b) := by
  split
  · exact ha
  · exact hb

protected theorem map {a : StreamM α} {f : α → β} (h : Framed a) : Framed (f <$> a) := by
  rw [map_eq_pure_bind]
  exact h.bind fun x => .pure (f x)

theorem pullMany {pull : StreamM α} (h : Framed pull) (n : Nat) :
    Framed (ProofStream.pullMany pull n) := by
  induction n with
  | zero => exact Framed.pure _
  | succ n ih =>
    apply h.bind
    intro x
    apply ih.bind
    intro xs
    exact Framed.pure _

end Framed

namespace ProofStream

variable (H : Hash)

theorem framed_read (count : Nat) : Framed (read H count) := by
  intro t before rest x s h
  by_cases hsize : before.size + count > (before ++ rest).size
  · rw [read, bind_of_ok (get_apply _), if_neg (by simp), if_pos hsize] at h
    cases h
  · rw [ByteArray.size_append] at hsize
    obtain ⟨data, after, rfl, rfl⟩ : ∃ data after, rest = data ++ after ∧ count = data.size :=
      Bytes.exists_split (by omega)
    have hread (other : ByteArray) := read_apply H t before data other
    simp only [ByteArray.append_assoc] at hread
    obtain ⟨hx, rfl⟩ := Prod.mk.inj (h.symm.trans (hread after))
    have hdata : x = data := Except.ok.inj hx
    subst x
    refine ⟨_, data, after, rfl, rfl, hread, ?_⟩
    intro short lost hcut hlost
    have hless : before.size + data.size > (before ++ short).size := by
      have hpos : lost.size ≠ 0 := fun h0 => hlost (ByteArray.size_eq_zero_iff.mp h0)
      rw [hcut, ByteArray.size_append, ByteArray.size_append]
      omega
    refine ⟨.truncated data.size before.size, ⟨t, true, before ++ short, before.size⟩, ?_⟩
    rw [read, bind_of_ok (get_apply _), if_neg (by simp), if_pos hless]
    rfl

theorem framed_pullU32 : Framed (pullU32 H) := (framed_read H 4).bind fun _ => .pure _

theorem framed_pullU64 : Framed (pullU64 H) := (framed_read H 8).bind fun _ => .pure _

theorem framed_pullDigest : Framed (pullDigest H) := by
  apply (framed_pullU32 H).bind
  intro length
  exact Framed.check (framed_read H length)

section Elements

variable (F : Type) [ExtensionField F] [LawfulExtension F]

/-- An element that is cut short is none: the element read there would be read from the whole. -/
theorem framed_pullElement : Framed (pullElement H F) := by
  intro t before rest x s h
  have hparsed := Tagged.parsed_read (F := F) before rest
  cases hread : Tagged.read (F := F) (before ++ rest) before.size with
  | error e =>
    rw [pullElement_of_error H rfl hread] at h
    cases h
  | ok y =>
    obtain ⟨v, stop⟩ := y
    rw [hread] at hparsed
    obtain ⟨after, rfl, rfl⟩ := hparsed
    have hpull (other : ByteArray) :
        pullElement H F ⟨t, true, before ++ (TaggedValue.encode v ++ other), before.size⟩ =
          (.ok v, ⟨t.put H (TaggedValue.encode v), true, before ++ (TaggedValue.encode v ++ other),
            (before ++ TaggedValue.encode v).size⟩) := by
      have hbytes := read_apply H t before (TaggedValue.encode v) other
      have hv := Tagged.read_encode v before other
      rw [ByteArray.append_assoc] at hbytes hv
      rw [pullElement_of_ok H rfl hv]
      dsimp only
      rw [Nat.add_sub_cancel_left, bind_of_ok hbytes]
      rfl
    obtain ⟨hx, rfl⟩ := Prod.mk.inj (h.symm.trans (hpull after))
    have hv : x = v := Except.ok.inj hx
    subst x
    refine ⟨_, TaggedValue.encode v, after, rfl, rfl, hpull, ?_⟩
    intro short lost hcut hlost
    have hshort := Tagged.parsed_read (F := F) before short
    cases hread' : Tagged.read (F := F) (before ++ short) before.size with
    | error e =>
      rw [hread'] at hshort
      obtain ⟨m, rfl⟩ := hshort
      exact ⟨m, _, pullElement_of_error H rfl hread'⟩
    | ok y =>
      obtain ⟨v', stop⟩ := y
      rw [hread'] at hshort
      obtain ⟨more, rfl, -⟩ := hshort
      -- Both values stand at the same place of the same bytes.
      have hv := Tagged.read_encode v before ByteArray.empty
      have hv' := Tagged.read_encode v' before (more ++ lost)
      rw [ByteArray.append_empty, hcut] at hv
      simp only [ByteArray.append_assoc] at hv hv'
      obtain ⟨rfl, -⟩ := Prod.mk.inj (Except.ok.inj (hv.symm.trans hv'))
      have hnone : (TaggedValue.encode v).size = (TaggedValue.encode v).size + (more.size + lost.size) := by
        conv_lhs => rw [hcut]
        simp only [ByteArray.size_append, Nat.add_assoc]
      exact absurd (ByteArray.size_eq_zero_iff.mp (by omega)) hlost

theorem framed_pullElements (limit : Option Int) : Framed (pullElements H F limit) := by
  apply (framed_pullU32 H).bind
  intro count
  cases limit with
  | none => exact (framed_pullElement H F).pullMany count
  | some n => exact Framed.check ((framed_pullElement H F).pullMany count)

theorem framed_pullOpening (width height : Int) : Framed (pullOpening H F width height) := by
  apply (framed_pullU32 H).bind
  intro index
  apply Framed.check
  apply (framed_pullElements H F _).bind
  intro vs
  apply Framed.check
  apply (framed_pullU32 H).bind
  intro depth
  apply Framed.check
  apply ((framed_pullDigest H).pullMany depth).bind
  intro ds
  exact Framed.pure _

end Elements

end ProofStream

/-- A success takes all bytes that are left. Where more bytes come behind them, or where they are cut
short, the action fails. -/
def Closed {α : Type} (a : StreamM α) : Prop :=
  ∀ (t : Transcript) (before rest : ByteArray) (x : α) (s : ProofStream),
    a ⟨t, true, before ++ rest, before.size⟩ = (.ok x, s) →
      (∀ more, more ≠ ByteArray.empty → Fails a ⟨t, true, before ++ (rest ++ more), before.size⟩) ∧
      ∀ short lost, rest = short ++ lost → lost ≠ ByteArray.empty →
        Fails a ⟨t, true, before ++ short, before.size⟩

namespace Closed

variable {α β : Type}

protected theorem finish : Closed ProofStream.finish := by
  intro t before rest x s h
  have hend : rest = ByteArray.empty := by
    apply ByteArray.size_eq_zero_iff.mp
    by_contra hne
    rw [ProofStream.finish, bind_of_ok (get_apply _), if_pos] at h
    · cases h
    · dsimp only
      rw [ByteArray.size_append]
      omega
  subst hend
  constructor
  · intro more hmore
    refine ⟨.trailing ((before ++ (ByteArray.empty ++ more)).size - before.size),
      ⟨t, true, before ++ (ByteArray.empty ++ more), before.size⟩, ?_⟩
    rw [ProofStream.finish, bind_of_ok (get_apply _), if_pos]
    · rfl
    · have hpos : more.size ≠ 0 := fun h0 => hmore (ByteArray.size_eq_zero_iff.mp h0)
      dsimp only
      rw [ByteArray.empty_append, ByteArray.size_append]
      omega
  · intro short lost hcut hlost
    exact absurd (ByteArray.append_eq_empty_iff.mp hcut.symm).2 hlost

/-- A test before the rest. -/
theorem check {c : Prop} [Decidable c] {e : Error} {a : StreamM α} (h : Closed a) :
    Closed (do
      if c then throw e
      a) := by
  by_cases hc : c
  · rw [if_pos hc]
    intro t before rest x s hrun
    cases hrun
  · rw [if_neg hc]
    exact h

/-- What follows needs no bytes: it is not reached where the first part fails. -/
protected theorem bind {a : StreamM α} {f : α → StreamM β} (h : Closed a) : Closed (a >>= f) := by
  intro t before rest y s hrun
  obtain ⟨x, s₁, ha, -⟩ := exists_of_bind hrun
  obtain ⟨hmore, hshort⟩ := h t before rest x s₁ ha
  constructor
  · intro more hne
    exact (hmore more hne).bind
  · intro short lost hcut hlost
    exact (hshort short lost hcut hlost).bind

end Closed

/-- Before an action that takes all bytes that are left. -/
theorem Framed.bind_closed {α β : Type} {a : StreamM α} {f : α → StreamM β} (ha : Framed a)
    (hf : ∀ x, Closed (f x)) : Closed (a >>= f) := by
  intro t before rest y s h
  obtain ⟨x, s₁, hrun, h⟩ := exists_of_bind h
  obtain ⟨t₁, data, after, rfl, rfl, hmore, hshort⟩ := ha t before rest x s₁ hrun
  rw [← ByteArray.append_assoc] at h
  obtain ⟨hmore', hshort'⟩ := hf x t₁ (before ++ data) after y s h
  constructor
  · intro more hne
    obtain ⟨m, s', hfail⟩ := hmore' more hne
    have hfirst := hmore (after ++ more)
    simp only [ByteArray.append_assoc] at hfail hfirst ⊢
    exact ⟨m, s', (bind_of_ok hfirst).trans hfail⟩
  · intro short lost hcut hlost
    exact Framed.fails_of_cut hmore hshort hshort' hcut hlost

end TapeStark
