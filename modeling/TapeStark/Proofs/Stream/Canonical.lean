import Mathlib
import TapeStark.Proofs.Field.Lawful
import TapeStark.Proofs.Stream.Replay

/-!
Parsing is canonical. What a reader takes from its bytes is, pushed again, exactly these bytes, and
leaves a writer in the transcript that the reader is left in. Hence bytes from which the same items are
read are the same bytes. A read that fails reports a malformed proof, and no read leaves the bytes.
-/

namespace TapeStark

namespace Bytes

theorem value_lt (bs : List UInt8) : value bs < 256 ^ bs.length := by
  induction bs with
  | nil => simp [value]
  | cons b bs ih =>
    have hb : b.toNat < 256 := b.toNat_lt
    rw [value, List.length_cons, pow_succ]
    omega

theorem digits_value (bs : List UInt8) : digits bs.length (value bs) = bs := by
  induction bs with
  | nil => rfl
  | cons b bs ih =>
    have hb : b.toNat < 256 := b.toNat_lt
    have hrest : value (b :: bs) / 256 = value bs := by
      rw [value]
      omega
    have hfirst : UInt8.ofNat (value (b :: bs)) = b := by
      apply UInt8.toNat_inj.mp
      rw [UInt8.toNat_ofNat', value]
      omega
    rw [List.length_cons, digits, hrest, hfirst, ih]

theorem number_lt (b : ByteArray) : number b < 256 ^ b.size := value_lt b.data.toList

/-- Bytes are those of the number that they stand for. -/
theorem little_number (b : ByteArray) : little b.size (number b) = b := by
  have h : digits b.size (number b) = b.data.toList := digits_value b.data.toList
  rw [little, h]
  ext1
  simp

/-- Neighbouring slices of one width make up one slice. -/
theorem concat_slices (b : ByteArray) (start width count : Nat) :
    concat ((List.range count).map fun k => slice b (start + width * k) width) =
      slice b start (width * count) := by
  induction count with
  | zero => simp [concat, slice]
  | succ count ih =>
    rw [List.range_succ, List.map_append, List.map_singleton, concat_append, concat_singleton, ih, slice,
      slice, slice, mul_add_one, ← Nat.add_assoc]
    exact (ByteArray.extract_eq_extract_append_extract _ (by omega) (by omega)).symm

theorem exists_split {b : ByteArray} {n : Nat} (h : n ≤ b.size) :
    ∃ first rest, b = first ++ rest ∧ n = first.size := by
  refine ⟨b.extract 0 n, b.extract n b.size, ?_, ?_⟩
  · rw [← ByteArray.extract_eq_extract_append_extract _ (by omega) h, ByteArray.extract_zero_size]
  · rw [ByteArray.size_extract]
    omega

end Bytes

/-- The parse gives a value that satisfies the condition, or reports a malformed proof. -/
def Parsed {α : Type} (x : Except Error α) (P : α → Prop) : Prop :=
  match x with
  | .ok a => P a
  | .error e => ∃ m, e = .malformed m

namespace Parsed

variable {α β : Type} {x : Except Error α} {P : α → Prop} {Q : β → Prop}

theorem malformed {m : Malformation} : Parsed (.error (.malformed m)) P := ⟨m, rfl⟩

theorem bind {f : α → Except Error β} (hx : Parsed x P) (hf : ∀ a, P a → Parsed (f a) Q) :
    Parsed (x >>= f) Q := by
  cases x with
  | ok a => exact hf a hx
  | error e => exact hx

end Parsed

namespace Tagged

theorem parsed_ofTag (tag : UInt8) : Parsed (Kind.ofTag tag) fun k => tag = k.tag := by
  unfold Kind.ofTag
  split
  · assumption
  · split
    · assumption
    · exact Parsed.malformed

/-- Coordinates that are read are the words that stand there. -/
theorem parsed_readLimbs (buffer : ByteArray) (offset width : Nat) :
    Parsed (readLimbs buffer offset width) fun limbs => offset + 8 * width ≤ buffer.size ∧
      Bytes.concat (limbs.toList.map fun a => Bytes.little 8 a.val) =
        Bytes.slice buffer offset (8 * width) := by
  unfold readLimbs limbsOfWords
  split
  · exact Parsed.malformed
  · rename_i hsize
    split
    · constructor
      · omega
      · rw [← Bytes.concat_slices]
        congr 1
        apply List.ext_getElem
        · simp
        · intro k hk _
          have hword : (Bytes.slice buffer (offset + 8 * k) 8).size = 8 := by
            have hk' : k < width := by simpa using hk
            rw [Bytes.slice, ByteArray.size_extract]
            omega
          have hlittle := Bytes.little_number (Bytes.slice buffer (offset + 8 * k) 8)
          rw [hword] at hlittle
          simpa using hlittle
    · exact Parsed.malformed

variable {F : Type} [ExtensionField F]

theorem kind_ofLimbs (k : Kind) (limbs : Vector Fp (width F k)) :
    TaggedValue.kind (ofLimbs k limbs) = k := by
  cases k <;> rfl

variable [LawfulExtension F]

theorem limbs_ofLimbs (k : Kind) (limbs : Vector Fp (width F k)) :
    TaggedValue.limbs (ofLimbs k limbs) = limbs.toList := by
  cases k with
  | fp => exact congrArg Vector.toList (LawfulExtension.limbs_ofLimbs (F := Fp) limbs)
  | fx => exact congrArg Vector.toList (LawfulExtension.limbs_ofLimbs (F := F) limbs)

/-- An element is read only where its own bytes stand. -/
theorem parsed_read (before rest : ByteArray) :
    Parsed (read (F := F) (before ++ rest) before.size) fun (v, stop) =>
      ∃ after, rest = TaggedValue.encode v ++ after ∧
        stop = before.size + (TaggedValue.encode v).size := by
  unfold read
  split
  · exact Parsed.malformed
  · rename_i tag htag
    obtain ⟨hlt, hbyte⟩ := getElem?_eq_some_iff.mp htag
    apply (parsed_ofTag tag).bind
    intro k hk
    apply (parsed_readLimbs ..).bind
    rintro limbs ⟨hsize, hwords⟩
    rw [ByteArray.size_append] at hsize
    have htagged : (before ++ rest).extract before.size (before.size + 1) = [k.tag].toByteArray := by
      rw [ByteArray.extract_add_one hlt, hbyte, hk]
    have hencode : TaggedValue.encode (ofLimbs (F := F) k limbs) =
        rest.extract 0 (1 + 8 * width F k) := by
      rw [TaggedValue.encode, TaggedValue.limbBytes, kind_ofLimbs, limbs_ofLimbs, hwords, ← htagged,
        Bytes.slice, ← ByteArray.extract_eq_extract_append_extract _ (by omega) (by omega),
        Nat.add_assoc]
      exact ByteArray.extract_append_size_add (i := 0)
    exists rest.extract (1 + 8 * width F k) rest.size
    rw [hencode, ByteArray.size_extract]
    constructor
    · rw [← ByteArray.extract_eq_extract_append_extract _ (by omega) (by omega),
        ByteArray.extract_zero_size]
    · omega

end Tagged

/-- A reader at any place of any bytes goes on in these bytes and gives a value or reports a malformed
proof. The value is that of atoms as `R` says, and a writer in the same transcript that pushes the atoms
writes the bytes that were read, and ends in the transcript that the reader ends in. -/
def Restores {F β : Type} [ExtensionField F] (H : Hash) (v : StreamM β)
    (R : β → List (Atom (Tagged F)) → Prop) : Prop :=
  ∀ (t : Transcript) (before rest : ByteArray), ∃ r t' data after, rest = data ++ after ∧
    v ⟨t, true, before ++ rest, before.size⟩ =
      (r, ⟨t', true, before ++ rest, (before ++ data).size⟩) ∧
    Parsed r fun b => ∃ atoms, R b atoms ∧
      ∀ w : ProofStream, w.reading = false → w.transcript = t →
        ProofStream.pushAtoms H atoms w =
          (.ok (), { w with transcript := t', buffer := w.buffer ++ data })

namespace Restores

variable {F β γ : Type} [ExtensionField F] {H : Hash} {v : StreamM β}
  {R : β → List (Atom (Tagged F)) → Prop}

protected theorem pure {b : β} (h : R b []) : Restores H (pure b) R := by
  intro t before rest
  refine ⟨.ok b, t, ByteArray.empty, rest, ByteArray.empty_append.symm, ?_, [], h, ?_⟩
  · rw [ByteArray.append_empty]
    rfl
  · intro w _ hw
    subst hw
    rw [ByteArray.append_empty]
    rfl

/-- The atoms may be replaced by others that are pushed alike. -/
theorem mono {Q : β → List (Atom (Tagged F)) → Prop} (h : Restores H v R)
    (himp : ∀ b as, R b as → ∃ bs, Q b bs ∧ ProofStream.pushAtoms H bs = ProofStream.pushAtoms H as) :
    Restores H v Q := by
  intro t before rest
  obtain ⟨r, t', data, after, hrest, hv, hr⟩ := h t before rest
  refine ⟨r, t', data, after, hrest, hv, ?_⟩
  cases r with
  | error e => exact hr
  | ok b =>
    obtain ⟨as, has, hpush⟩ := hr
    obtain ⟨bs, hbs, heq⟩ := himp b as has
    rw [← heq] at hpush
    exact ⟨bs, hbs, hpush⟩

/-- One after the other; the atoms of the first part come first. -/
protected theorem bind {g : β → StreamM γ} {Q : γ → List (Atom (Tagged F)) → Prop}
    (h : Restores H v R) (hg : ∀ b as, R b as → Restores H (g b) fun c bs => Q c (as ++ bs)) :
    Restores H (v >>= g) Q := by
  intro t before rest
  obtain ⟨r, t', data, after, rfl, hv, hr⟩ := h t before rest
  cases r with
  | error e => exact ⟨.error e, t', data, after, rfl, bind_of_error hv, hr⟩
  | ok b =>
    obtain ⟨as, has, hpush⟩ := hr
    obtain ⟨r', t'', data', after', rfl, hg', hr'⟩ := hg b as has t' (before ++ data) after
    refine ⟨r', t'', data ++ data', after', ByteArray.append_assoc.symm, ?_, ?_⟩
    · rw [bind_of_ok hv, ← ByteArray.append_assoc, hg']
      simp only [ByteArray.append_assoc]
    · cases r' with
      | error e => exact hr'
      | ok c =>
        obtain ⟨bs, hbs, hpush'⟩ := hr'
        refine ⟨as ++ bs, hbs, ?_⟩
        intro w hw ht
        rw [ProofStream.pushAtoms_append, bind_of_ok (hpush w hw ht)]
        have hrest := hpush' { w with transcript := t', buffer := w.buffer ++ data } hw rfl
        rw [hrest, ByteArray.append_assoc]

/-- Values that are read one by one; their atoms stand one behind the other. -/
theorem pullMany {pull : StreamM β} {atoms : β → List (Atom (Tagged F))}
    (h : Restores H pull fun x as => as = atoms x) {n : Nat} :
    Restores H (ProofStream.pullMany pull n) fun xs as => xs.length = n ∧ as = xs.flatMap atoms := by
  induction n with
  | zero => exact Restores.pure ⟨rfl, rfl⟩
  | succ n ih =>
    apply h.bind
    rintro x as rfl
    apply ih.bind
    rintro xs as ⟨rfl, rfl⟩
    exact Restores.pure ⟨rfl, by simp⟩

/-- A test that finds the proof malformed, before the rest. -/
theorem check {c : Prop} [Decidable c] {m : Malformation} (h : ¬ c → Restores H v R) :
    Restores H (do
      if c then throw (.malformed m)
      v) R := by
  by_cases hc : c
  · rw [if_pos hc]
    intro t before rest
    refine ⟨.error (.malformed m), t, ByteArray.empty, rest, ByteArray.empty_append.symm, ?_, m, rfl⟩
    rw [ByteArray.append_empty]
    rfl
  · rw [if_neg hc]
    exact h hc

end Restores

namespace ProofStream

variable {F : Type} [ExtensionField F] (H : Hash)

theorem pushAtoms_singleton {V : Type} [TaggedValue V] {a : Atom V} {data : ByteArray}
    (h : a.encode = .ok data) : pushAtoms H [a] = write H data := by
  rw [pushAtoms, pushAtoms, pushAtom, h]
  exact bind_pure_unit

theorem restores_read (count : Nat) :
    Restores (F := F) H (read H count) fun data as => data.size = count ∧ as = [.bytes data] := by
  intro t before rest
  by_cases h : count ≤ rest.size
  · obtain ⟨data, after, rfl, rfl⟩ := Bytes.exists_split h
    have hread := read_apply H t before data after
    rw [ByteArray.append_assoc] at hread
    refine ⟨.ok data, _, data, after, rfl, hread, [.bytes data], ⟨rfl, rfl⟩, ?_⟩
    intro w hw ht
    subst ht
    rw [pushAtoms_singleton H (a := .bytes data) rfl, write_apply H hw]
  · refine ⟨.error (.malformed (.truncated count before.size)), t, ByteArray.empty, rest,
      ByteArray.empty_append.symm, ?_, _, rfl⟩
    have htotal : before.size + count > (before ++ rest).size := by
      rw [ByteArray.size_append]
      omega
    rw [read, bind_of_ok (get_apply _), if_neg (by simp), if_pos htotal, ByteArray.append_empty]
    rfl

/-- A number is read from the bytes that it is written as. -/
theorem restores_number {count : Nat} {atom : Nat → Atom (Tagged F)}
    (h : ∀ n < 256 ^ count, (atom n).encode = .ok (Bytes.little count n)) :
    Restores H (do
      let data ← read H count
      return Bytes.number data) fun n as => as = [atom n] := by
  have hbytes : Restores (F := F) H (do
      let data ← read H count
      return Bytes.number data) fun n as =>
        ∃ data, data.size = count ∧ n = Bytes.number data ∧ as = [.bytes data] := by
    apply (restores_read H count).bind
    rintro data as ⟨hsize, rfl⟩
    exact Restores.pure ⟨data, hsize, rfl, rfl⟩
  apply hbytes.mono
  rintro n as ⟨data, rfl, rfl, rfl⟩
  have hencode := h _ (Bytes.number_lt data)
  rw [Bytes.little_number] at hencode
  refine ⟨_, rfl, ?_⟩
  rw [pushAtoms_singleton H hencode, pushAtoms_singleton H (a := .bytes data) rfl]

theorem restores_pullU32 : Restores (F := F) H (pullU32 H) fun n as => as = [.u32 n] :=
  restores_number H fun _ h => Bytes.pack_natCast h

theorem restores_pullU64 : Restores (F := F) H (pullU64 H) fun n as => as = [.u64 n] :=
  restores_number H fun _ h => Bytes.pack_natCast h

theorem restores_pullDigest :
    Restores (F := F) H (pullDigest H) fun d as => as = Item.digestAtoms d := by
  apply (restores_pullU32 H).bind
  rintro length as rfl
  apply Restores.check
  intro _
  apply (restores_read H length).mono
  rintro d as ⟨rfl, rfl⟩
  exact ⟨_, rfl, rfl⟩

theorem pullElement_of_error {s : ProofStream} (hs : s.reading = true) {e : Error}
    (h : Tagged.read (F := F) s.buffer s.cursor = .error e) : pullElement H F s = (.error e, s) := by
  rw [pullElement, bind_of_ok (get_apply s), if_neg (by simp [hs]), h]
  rfl

theorem pullElement_of_ok {s : ProofStream} (hs : s.reading = true) {v : Tagged F} {stop : Nat}
    (h : Tagged.read s.buffer s.cursor = .ok (v, stop)) :
    pullElement H F s = (read H (stop - s.cursor) >>= fun _ => pure v) s := by
  rw [pullElement, bind_of_ok (get_apply s), if_neg (by simp [hs]), h]
  rfl

variable [LawfulExtension F]

theorem restores_pullElement : Restores H (pullElement H F) fun v as => as = [.element v] := by
  intro t before rest
  have hparsed := Tagged.parsed_read (F := F) before rest
  cases hread : Tagged.read (F := F) (before ++ rest) before.size with
  | error e =>
    rw [hread] at hparsed
    refine ⟨.error e, t, ByteArray.empty, rest, ByteArray.empty_append.symm, ?_, hparsed⟩
    rw [pullElement_of_error H rfl hread, ByteArray.append_empty]
  | ok x =>
    obtain ⟨v, stop⟩ := x
    rw [hread] at hparsed
    obtain ⟨after, rfl, rfl⟩ := hparsed
    have hbytes := read_apply H t before (TaggedValue.encode v) after
    rw [ByteArray.append_assoc] at hbytes
    refine ⟨.ok v, t.put H (TaggedValue.encode v), TaggedValue.encode v, after, rfl, ?_,
      [.element v], rfl, ?_⟩
    · rw [pullElement_of_ok H rfl hread]
      dsimp only
      rw [Nat.add_sub_cancel_left, bind_of_ok hbytes]
      rfl
    · intro w hw ht
      subst ht
      rw [pushAtoms_singleton H (a := .element v) rfl, write_apply H hw]

theorem restores_pullElements (limit : Option Int) :
    Restores H (pullElements H F limit) fun vs as => as = Item.elementsAtoms vs := by
  apply (restores_pullU32 H).bind
  rintro count as rfl
  have hlist : Restores H (pullMany (pullElement H F) count) fun vs as =>
      [.u32 count] ++ as = Item.elementsAtoms vs := by
    apply (restores_pullElement H).pullMany.mono
    rintro vs as ⟨rfl, rfl⟩
    exact ⟨_, rfl, by rw [List.map_eq_flatMap]⟩
  cases limit with
  | none => exact hlist
  | some n => exact Restores.check fun _ => hlist

theorem restores_pullOpening (width height : Int) :
    Restores H (pullOpening H F width height) fun o as => as = (Item.opening o).atoms := by
  apply (restores_pullU32 H).bind
  rintro index as rfl
  apply Restores.check
  intro _
  apply (restores_pullElements H _).bind
  rintro vs as rfl
  apply Restores.check
  intro _
  apply (restores_pullU32 H).bind
  rintro depth as rfl
  apply Restores.check
  intro _
  apply (restores_pullDigest H).pullMany.bind
  rintro ds as ⟨rfl, rfl⟩
  exact Restores.pure (by simp [Item.atoms])

omit [LawfulExtension F] in
theorem forM_push (items : List (Item (Tagged F))) :
    items.forM (push H) = pushAtoms H (items.flatMap Item.atoms) :=
  (pushAtoms_flatMap H items Item.atoms).symm

end ProofStream

/-- A read of one item, with the limits that the reader sets. -/
inductive Pull
  | u32
  | u64
  | digest
  | element
  | elements (limit : Option Int)
  | opening (width height : Int)

namespace Pull

section Item

variable {F : Type} [ExtensionField F] (H : Hash)

def item : Pull → StreamM (Item (Tagged F))
  | .u32 => do return .u32 (← ProofStream.pullU32 H)
  | .u64 => do return .u64 (← ProofStream.pullU64 H)
  | .digest => do return .digest (← ProofStream.pullDigest H)
  | .element => do return .element (← ProofStream.pullElement H F)
  | .elements limit => do return .elements (← ProofStream.pullElements H F limit)
  | .opening width height => do return .opening (← ProofStream.pullOpening H F width height)

variable [LawfulExtension F]

omit [LawfulExtension F] in
/-- An item is restored by the atoms of what it holds. -/
theorem restores_held {β : Type} {v : StreamM β} {f : β → Item (Tagged F)}
    (h : Restores H v fun x as => as = (f x).atoms) :
    Restores H (do return f (← v)) fun i as => as = i.atoms := by
  apply h.bind
  rintro x as rfl
  exact Restores.pure (List.append_nil _)

/-- One pull. -/
theorem restores_item (p : Pull) : Restores (F := F) H (p.item H) fun i as => as = i.atoms := by
  cases p with
  | u32 => exact restores_held H (ProofStream.restores_pullU32 H)
  | u64 => exact restores_held H (ProofStream.restores_pullU64 H)
  | digest => exact restores_held H (ProofStream.restores_pullDigest H)
  | element => exact restores_held H (ProofStream.restores_pullElement H)
  | elements limit => exact restores_held H (ProofStream.restores_pullElements H limit)
  | opening width height => exact restores_held H (ProofStream.restores_pullOpening H width height)

/-- All pulls, by induction on those that are left. -/
theorem restores_items (pulls : List Pull) :
    Restores (F := F) H (pulls.mapM (item H)) fun items as => as = items.flatMap Item.atoms := by
  induction pulls with
  | nil => exact Restores.pure rfl
  | cons p pulls ih =>
    rw [List.mapM_cons]
    apply (restores_item H p).bind
    rintro i as rfl
    apply ih.bind
    rintro items as rfl
    exact Restores.pure (by simp)

/-- A pull on any reading stream stays inside the bytes, and fails only over a malformed proof. -/
theorem item_inside (p : Pull) {s : ProofStream} (hs : s.reading = true)
    (hcursor : s.cursor ≤ s.buffer.size) :
    ∃ r s', p.item (F := F) H s = (r, s') ∧ s'.reading = true ∧ s'.buffer = s.buffer ∧
      s'.cursor ≤ s.buffer.size ∧ Parsed r fun _ => True := by
  obtain ⟨t, reading, buffer, cursor⟩ := s
  obtain rfl : reading = true := hs
  obtain ⟨before, rest, rfl, rfl⟩ := Bytes.exists_split (n := cursor) hcursor
  obtain ⟨r, t', data, after, rfl, hitem, hr⟩ := restores_item (F := F) H p t before rest
  refine ⟨r, _, hitem, rfl, rfl, ?_, ?_⟩
  · simp only [ByteArray.size_append]
    omega
  · cases r with
    | error e => exact hr
    | ok i => trivial

/-- What all pulls return determines the bytes that they have consumed and the transcript. -/
theorem forM_push_of_mapM_item {pulls : List Pull} {data : ByteArray} {items : List (Item (Tagged F))}
    {s : ProofStream} (h : pulls.mapM (item H) (.reader H data) = (.ok items, s)) :
    items.forM (ProofStream.push H) (.writer H) =
      (.ok (), ⟨s.transcript, false, data.extract 0 s.cursor, 0⟩) := by
  obtain ⟨r, t, consumed, after, rfl, hpulls, hr⟩ :=
    restores_items (F := F) H pulls (Transcript.init H ByteArray.empty) ByteArray.empty data
  rw [ByteArray.empty_append] at hpulls
  obtain ⟨rfl, rfl⟩ := Prod.mk.inj (hpulls.symm.trans h)
  obtain ⟨as, rfl, hpush⟩ := hr
  rw [ProofStream.forM_push, hpush (.writer H) rfl rfl]
  dsimp only
  rw [ByteArray.empty_append, ByteArray.extract_append_eq_left rfl]
  exact congrArg (fun b => (Except.ok (), ProofStream.mk t false b 0)) ByteArray.empty_append

variable (F) in
/-- A pull that fails, wherever the reader stands, has found the proof malformed and has not left the
bytes. Items that are all pulled give, pushed again, the bytes that were consumed and the transcript
that was reached, so that no other bytes are read as the same items. -/
theorem pushed_eq_consumed :
    (∀ (p : Pull) (s : ProofStream), s.reading = true → s.cursor ≤ s.buffer.size →
      ∃ r s', p.item (F := F) H s = (r, s') ∧ s'.reading = true ∧ s'.buffer = s.buffer ∧
        s'.cursor ≤ s.buffer.size ∧ Parsed r fun _ => True) ∧
    ∀ (pulls : List Pull) (data : ByteArray) (items : List (Item (Tagged F))) (s : ProofStream),
      pulls.mapM (item H) (.reader H data) = (.ok items, s) →
        items.forM (ProofStream.push H) (.writer H) =
          (.ok (), ⟨s.transcript, false, data.extract 0 s.cursor, 0⟩) ∧
        ∀ (pulls' : List Pull) (data' : ByteArray) (s' : ProofStream),
          pulls'.mapM (item H) (.reader H data') = (.ok items, s') →
            data'.extract 0 s'.cursor = data.extract 0 s.cursor ∧ s'.transcript = s.transcript := by
  constructor
  · intro p s hs hcursor
    exact item_inside H p hs hcursor
  · intro pulls data items s hpulls
    have hpush := forM_push_of_mapM_item H hpulls
    constructor
    · exact hpush
    · intro pulls' data' s' hpulls'
      have hsame := hpush.symm.trans (forM_push_of_mapM_item H hpulls')
      obtain ⟨htranscript, -, hconsumed, -⟩ := ProofStream.mk.inj (Prod.mk.inj hsame).2
      exact ⟨hconsumed.symm, htranscript.symm⟩

end Item

/-- A number and an element of the extension, and behind them two bytes that are no number: both items
are pulled and give their bytes back, and the next pull fails. -/
theorem pushed_eq_consumed_of_mixed :
    let items : List (Item (Tagged Fp3)) := [.u32 5, .element (.fx ⟨7, 0, 2⟩)]
    let written := (items.forM (ProofStream.push .blake2b) (.writer .blake2b)).2.buffer
    let data := written ++ [9, 9].toByteArray
    ∃ s, [u32, element].mapM (item .blake2b) (.reader .blake2b data) = (.ok items, s) ∧
      items.forM (ProofStream.push .blake2b) (.writer .blake2b) =
        (.ok (), ⟨s.transcript, false, data.extract 0 s.cursor, 0⟩) ∧
      s.reading = true ∧ s.cursor ≤ s.buffer.size ∧
      ∃ r s', u32.item (F := Fp3) .blake2b s = (r, s') ∧ s'.cursor ≤ s.buffer.size ∧
        Parsed r fun _ => True := by
  intro items written data
  have hreplays : Replays (fun _ => True) (fun _ _ => False)
      (items.forM (ProofStream.push .blake2b)) ([u32, element].mapM (item .blake2b))
      fun _ is => is = items := by
    rw [List.mapM_cons, List.mapM_cons]
    apply Replays.bind (R := fun _ i => i = .u32 5)
    · apply (ProofStream.replays_u32 .blake2b (n := 5) (by decide)).bind_right
      rintro _ _ rfl
      exact Replays.pure rfl
    · rintro _ _ rfl
      apply Replays.bind_right (R := fun _ is => is = [.element (.fx ⟨7, 0, 2⟩)])
      · apply Replays.bind (R := fun _ i => i = .element (.fx ⟨7, 0, 2⟩))
        · apply (ProofStream.replays_element_item .blake2b _).bind_right
          rintro _ _ rfl
          exact Replays.pure rfl
        · rintro _ _ rfl
          exact Replays.pure rfl
      · rintro _ _ rfl
        exact Replays.pure rfl
  obtain ⟨_, _, _, hfalse⟩ | ⟨_, w, bytes, hpush, -, hbuffer, hread⟩ := hreplays (.writer .blake2b) rfl
  · exact hfalse.elim
  · obtain ⟨_, rfl, hpulls⟩ := hread ByteArray.empty [9, 9].toByteArray trivial
    have hwritten : written = ByteArray.empty ++ bytes := (congrArg (·.2.buffer) hpush).trans hbuffer
    rw [← hwritten] at hpulls
    obtain ⟨hinside, hcanonical⟩ := pushed_eq_consumed Fp3 .blake2b
    have hcursor : written.size ≤ data.size := by
      rw [ByteArray.size_append]
      omega
    obtain ⟨r, s', hnext, -, -, hstays, hparsed⟩ := hinside u32 ⟨_, true, data, written.size⟩ rfl hcursor
    exact ⟨_, hpulls, (hcanonical _ _ _ _ hpulls).1, rfl, hcursor, r, s', hnext, hstays, hparsed⟩

end Pull

end TapeStark
