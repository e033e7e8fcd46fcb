import Mathlib
import TapeStark.Proofs.Machine.Placement

/-!
Parsing and compiling as two readings of one text. Both keep the open brackets on a stack, and both
fail as the brackets tell, whatever else the text holds. What they give spells the text: the tree by
its flat form, the words without the addresses. And the addresses of a loop lead from each of its
brackets behind the other.
-/

namespace TapeStark

section Balance

variable {α : Type} [DecidableEq α]

/-- No prefix closes more brackets than it opens, and the whole text closes as many as it opens. -/
structure Balanced (is : List (Symbol α)) : Prop where
  prefixes (k : Nat) : (is.take k).count .closing ≤ (is.take k).count .opening
  total : is.count .opening = is.count .closing

/-- With `depth` brackets open in front, a text closes these and its own. -/
structure Closes (depth : Nat) (is : List (Symbol α)) : Prop where
  prefixes (k : Nat) : (is.take k).count .closing ≤ depth + (is.take k).count .opening
  total : is.count .closing = depth + is.count .opening

theorem balanced_iff_closes {is : List (Symbol α)} : Balanced is ↔ Closes 0 is := by
  constructor
  · intro h
    refine ⟨fun k => ?_, ?_⟩
    · rw [Nat.zero_add]
      exact h.prefixes k
    · rw [Nat.zero_add]
      exact h.total.symm
  · intro h
    refine ⟨fun k => ?_, ?_⟩
    · have := h.prefixes k
      omega
    · have := h.total
      omega

variable {depth : Nat} {is : List (Symbol α)}

theorem closes_nil_iff : Closes depth ([] : List (Symbol α)) ↔ depth = 0 := by
  constructor
  · intro h
    simpa using h.total.symm
  · rintro rfl
    exact ⟨by simp, rfl⟩

/-- The first symbol closes `c` brackets and opens `o`. -/
private theorem closes_cons_iff {i : Symbol α} {c o : Nat} (hc : [i].count .closing = c)
    (ho : [i].count .opening = o) : Closes depth (i :: is) ↔
      (∀ k, c + (is.take k).count .closing ≤ depth + (o + (is.take k).count .opening)) ∧
        c + is.count .closing = depth + (o + is.count .opening) := by
  have hclosing (rest : List (Symbol α)) :
      (i :: rest).count .closing = c + rest.count .closing := by
    rw [← hc, ← List.count_append, List.singleton_append]
  have hopening (rest : List (Symbol α)) :
      (i :: rest).count .opening = o + rest.count .opening := by
    rw [← ho, ← List.count_append, List.singleton_append]
  constructor
  · intro h
    refine ⟨fun k => ?_, ?_⟩
    · rw [← hclosing, ← hopening]
      exact h.prefixes (k + 1)
    · rw [← hclosing, ← hopening]
      exact h.total
  · rintro ⟨hprefixes, htotal⟩
    refine ⟨fun k => ?_, ?_⟩
    · cases k with
      | zero => simp
      | succ k =>
        rw [List.take_succ_cons, hclosing, hopening]
        exact hprefixes k
    · rw [hclosing, hopening]
      exact htotal

theorem closes_op_iff {a : α} : Closes depth (.op a :: is) ↔ Closes depth is := by
  rw [closes_cons_iff (c := 0) (o := 0) (by simp) (by simp)]
  constructor
  · rintro ⟨hprefixes, htotal⟩
    exact ⟨fun k => by have := hprefixes k; omega, by omega⟩
  · intro h
    exact ⟨fun k => by have := h.prefixes k; omega, by have := h.total; omega⟩

theorem closes_opening_iff : Closes depth (.opening :: is) ↔ Closes (depth + 1) is := by
  rw [closes_cons_iff (c := 0) (o := 1) (by simp) (by simp)]
  constructor
  · rintro ⟨hprefixes, htotal⟩
    exact ⟨fun k => by have := hprefixes k; omega, by omega⟩
  · intro h
    exact ⟨fun k => by have := h.prefixes k; omega, by have := h.total; omega⟩

theorem closes_closing_iff :
    Closes depth (.closing :: is) ↔ ∃ outside, depth = outside + 1 ∧ Closes outside is := by
  rw [closes_cons_iff (c := 1) (o := 0) (by simp) (by simp)]
  constructor
  · rintro ⟨hprefixes, htotal⟩
    have hopen : 1 ≤ depth := by simpa using hprefixes 0
    exact ⟨depth - 1, by omega, fun k => by have := hprefixes k; omega, by omega⟩
  · rintro ⟨outside, rfl, h⟩
    exact ⟨fun k => by have := h.prefixes k; omega, by have := h.total; omega⟩

/-- What is wrong with the brackets of a text in front of which `depth` are open: the first one that
closes nothing, or one that stays open. -/
def bracketFault? : List (Symbol α) → (depth : Nat) → Option MachineFault
  | [], 0 => none
  | [], _ + 1 => some .unmatchedOpening
  | .op _ :: rest, depth => bracketFault? rest depth
  | .opening :: rest, depth => bracketFault? rest (depth + 1)
  | .closing :: _, 0 => some .unmatchedClosing
  | .closing :: rest, depth + 1 => bracketFault? rest depth

theorem bracketFault?_eq_none_iff : bracketFault? is depth = none ↔ Closes depth is := by
  induction is generalizing depth with
  | nil =>
    rw [closes_nil_iff]
    cases depth <;> simp [bracketFault?]
  | cons i is ih =>
    cases i with
    | op a => rw [bracketFault?, ih, closes_op_iff]
    | opening => rw [bracketFault?, ih, closes_opening_iff]
    | closing =>
      rw [closes_closing_iff]
      cases depth with
      | zero => simp [bracketFault?]
      | succ depth => simp [bracketFault?, ih]

omit [DecidableEq α] in
theorem bracketFault?_cases {f : MachineFault} (h : bracketFault? is depth = some f) :
    f = .unmatchedOpening ∨ f = .unmatchedClosing := by
  induction is generalizing depth with
  | nil =>
    cases depth with
    | zero => cases h
    | succ depth => cases h; exact .inl rfl
  | cons i is ih =>
    cases i with
    | op a => exact ih h
    | opening => exact ih h
    | closing =>
      cases depth with
      | zero => cases h; exact .inr rfl
      | succ depth => exact ih h

/-- The brackets at `a` and `b` belong together: what stands between them is balanced. -/
structure Paired (is : List (Symbol α)) (a b : Nat) : Prop where
  lt : a < b
  opening : is[a]? = some .opening
  closing : is[b]? = some .closing
  between : Balanced ((is.take b).drop (a + 1))

theorem Paired.take_eq {a b : Nat} (h : Paired is a b) :
    is.take b = is.take a ++ .opening :: (is.take b).drop (a + 1) := by
  obtain ⟨ha, hopening⟩ := List.getElem?_eq_some_iff.mp h.opening
  obtain ⟨hb, -⟩ := List.getElem?_eq_some_iff.mp h.closing
  have hlt : a < (is.take b).length := by
    rw [List.length_take]
    have := h.lt
    omega
  have hcut := (List.take_append_drop a (is.take b)).symm
  rw [List.take_take, min_eq_left h.lt.le, List.drop_eq_getElem_cons hlt, List.getElem_take,
    hopening] at hcut
  exact hcut

/-- A pair cuts the text in three. -/
theorem Paired.eq_append {a b : Nat} (h : Paired is a b) : is = is.take a ++
    .opening :: ((is.take b).drop (a + 1) ++ .closing :: is.drop (b + 1)) := by
  obtain ⟨hb, hclosing⟩ := List.getElem?_eq_some_iff.mp h.closing
  calc is = is.take b ++ is.drop b := (List.take_append_drop b is).symm
    _ = is.take a ++ .opening :: (is.take b).drop (a + 1) ++ .closing :: is.drop (b + 1) := by
      rw [← h.take_eq, List.drop_eq_getElem_cons hb, hclosing]
    _ = _ := by rw [List.append_assoc, List.cons_append]

end Balance

namespace Block

variable {α : Type} {is : List (Symbol α)} {here : Block α → Block α}
  {outer : List (Block α → Block α)}

/-- The parser fails as the brackets do, and in no other way. -/
theorem parseFrom_of_fault {f : MachineFault} (h : bracketFault? is outer.length = some f) :
    parseFrom is here outer = .error (.machine f) := by
  induction is generalizing here outer with
  | nil =>
    cases outer with
    | nil => cases h
    | cons before outer =>
      cases h
      rfl
  | cons i is ih =>
    cases i with
    | op a => exact ih h
    | opening => exact ih h
    | closing =>
      cases outer with
      | nil =>
        cases h
        rfl
      | cons before outer => exact ih h

theorem exists_of_closed (h : bracketFault? is outer.length = none) :
    ∃ block, parseFrom is here outer = .ok block := by
  induction is generalizing here outer with
  | nil =>
    cases outer with
    | nil => exact ⟨_, rfl⟩
    | cons before outer => cases h
  | cons i is ih =>
    cases i with
    | op a => exact ih h
    | opening => exact ih h
    | closing =>
      cases outer with
      | nil => cases h
      | cons before outer => exact ih h

/-- What is put behind a text, and written out flat with it. -/
def Writes (f : Block α → Block α) (text : List (Symbol α)) : Prop :=
  ∀ b, (f b).flatten = text ++ b.flatten

/-- The text that the parser has read: what stands in the loop that is open, behind its bracket and
what stands before in the loops around it. -/
def Read : (here : Block α → Block α) → (outer : List (Block α → Block α)) →
    List (Symbol α) → Prop
  | here, [], text => Writes here text
  | here, before :: outer, text => ∃ front inside, text = front ++ .opening :: inside ∧
    Writes here inside ∧ Read before outer front

theorem Writes.comp {f g : Block α → Block α} {front text : List (Symbol α)} (hf : Writes f front)
    (hg : Writes g text) : Writes (fun b => f (g b)) (front ++ text) := by
  intro b
  rw [hf, hg, List.append_assoc]

theorem Read.comp {g : Block α → Block α} {front text : List (Symbol α)}
    (h : Read here outer front) (hg : Writes g text) :
    Read (fun b => here (g b)) outer (front ++ text) := by
  cases outer with
  | nil => exact Writes.comp h hg
  | cons before outer =>
    obtain ⟨rest, inside, rfl, hhere, hbefore⟩ := h
    exact ⟨rest, inside ++ text, by simp, hhere.comp hg, hbefore⟩

/-- The tree spells the text that was read for it. -/
theorem flatten_of_parseFrom {text : List (Symbol α)} (hread : Read here outer text)
    {block : Block α} (h : parseFrom is here outer = .ok block) : block.flatten = text ++ is := by
  induction is generalizing here outer text with
  | nil =>
    cases outer with
    | nil =>
      cases h
      exact hread .done
    | cons before outer => cases h
  | cons i is ih =>
    cases i with
    | op a =>
      have hop : Writes (Block.op a) [.op a] := fun b => rfl
      rw [ih (hread.comp hop) h, List.append_assoc]
      rfl
    | opening =>
      have hloop : Read id (here :: outer) (text ++ [.opening]) :=
        ⟨text, [], rfl, fun b => rfl, hread⟩
      rw [ih hloop h, List.append_assoc]
      rfl
    | closing =>
      cases outer with
      | nil => cases h
      | cons before outer =>
        obtain ⟨front, inside, rfl, hhere, hbefore⟩ := hread
        have hloop : Writes (fun b => loop (here done) b) (.opening :: (inside ++ [.closing])) := by
          intro b
          rw [flatten, hhere]
          simp [flatten]
        rw [ih (hbefore.comp hloop) h]
        simp

theorem flatten_of_parse {block : Block α} (h : parse is = .ok block) : block.flatten = is :=
  flatten_of_parseFrom (show Read id [] [] from fun _ => rfl) h

end Block

namespace Program

variable {is : List Instruction} {words : Program} {opens : List Nat} {program : Program}

/-- The compiler fails as the brackets do, and in no other way. -/
theorem compileFrom_of_fault {f : MachineFault} (h : bracketFault? is opens.length = some f) :
    compileFrom is words opens = .error (.machine f) := by
  induction is generalizing words opens with
  | nil =>
    cases opens with
    | nil => cases h
    | cons p opens =>
      cases h
      rfl
  | cons i is ih =>
    cases i with
    | op o => exact ih h
    | opening => exact ih h
    | closing =>
      cases opens with
      | nil =>
        cases h
        rfl
      | cons p opens => exact ih h

theorem exists_of_closed (h : bracketFault? is opens.length = none) :
    ∃ program, compileFrom is words opens = .ok program := by
  induction is generalizing words opens with
  | nil =>
    cases opens with
    | nil => exact ⟨_, rfl⟩
    | cons p opens => cases h
  | cons i is ih =>
    cases i with
    | op o => exact ih h
    | opening => exact ih h
    | closing =>
      cases opens with
      | nil => cases h
      | cons p opens => exact ih h

def withoutAddresses : List Int → List Int
  | [] => []
  | [word] => [word]
  | word :: address :: rest =>
    if word = Instruction.code .opening ∨ word = Instruction.code .closing then
      word :: withoutAddresses rest
    else word :: withoutAddresses (address :: rest)

theorem withoutAddresses_bracket {i : Instruction} (h : i = .opening ∨ i = .closing)
    (address : Int) (rest : List Int) :
    withoutAddresses ((i.code : Int) :: address :: rest) = (i.code : Int) :: withoutAddresses rest := by
  have hword : (i.code : Int) = Instruction.code .opening ∨
      (i.code : Int) = Instruction.code .closing := by
    rcases h with rfl | rfl
    · exact .inl rfl
    · exact .inr rfl
  rw [withoutAddresses, if_pos hword]

theorem withoutAddresses_op (o : Op) (rest : List Int) :
    withoutAddresses ((Instruction.code (.op o) : Int) :: rest) =
      (Instruction.code (.op o) : Int) :: withoutAddresses rest := by
  cases rest with
  | nil => rfl
  | cons address rest =>
    rw [withoutAddresses, if_neg]
    rintro (h | h)
    · exact absurd (Instruction.code_injective h) (by simp)
    · exact absurd (Instruction.code_injective h) (by simp)

/-- Words that hold every instruction at its offset spell the instructions. -/
theorem withoutAddresses_eq {ws : List Int} (hlength : ws.length = Instruction.offset is is.length)
    (hword : ∀ k (hk : k < is.length), ws.getD (Instruction.offset is k) 0 = is[k].code) :
    withoutAddresses ws = is.map fun i => (i.code : Int) := by
  induction is generalizing ws with
  | nil =>
    rw [List.length_eq_zero_iff.mp hlength]
    rfl
  | cons i is ih =>
    rw [List.length_cons, Instruction.offset_cons_succ] at hlength
    have hfirst := hword 0 (by simp)
    have hlater {ws' : List Int} (hws : ∀ k, ws.getD (i.width + k) 0 = ws'.getD k 0) (k : Nat)
        (hk : k < is.length) : ws'.getD (Instruction.offset is k) 0 = is[k].code := by
      rw [← hws, ← Instruction.offset_cons_succ]
      exact hword (k + 1) (by simpa using hk)
    have bracket (hi : i = .opening ∨ i = .closing) (hwidth : i.width = 2) :
        withoutAddresses ws = (i :: is).map fun i => (i.code : Int) := by
      obtain ⟨word, address, rest, rfl⟩ : ∃ word address rest, ws = word :: address :: rest := by
        match ws, hlength with
        | word :: address :: rest, _ => exact ⟨word, address, rest, rfl⟩
        | [], hlength => simp at hlength; omega
        | [_], hlength => simp at hlength; omega
      obtain rfl : word = i.code := hfirst
      rw [withoutAddresses_bracket hi, List.map_cons, ih ?_ (hlater fun k => ?_)]
      · simp only [List.length_cons] at hlength
        omega
      · rw [hwidth, Nat.add_comm]
        rfl
    cases i with
    | op o =>
      have hwidth : Instruction.width (.op o) = 1 := rfl
      obtain ⟨word, rest, rfl⟩ : ∃ word rest, ws = word :: rest :=
        List.exists_cons_of_length_pos (by omega)
      obtain rfl : word = Instruction.code (.op o) := hfirst
      rw [withoutAddresses_op, List.map_cons, ih ?_ (hlater fun k => ?_)]
      · simp only [List.length_cons] at hlength
        omega
      · rw [hwidth, Nat.add_comm]
        rfl
    | opening => exact bracket (.inl rfl) rfl
    | closing => exact bracket (.inr rfl) rfl

theorem offset_length (is : List Instruction) :
    Instruction.offset is is.length = (is.map Instruction.width).sum := by
  rw [Instruction.offset, List.take_length]

theorem exists_of_compileFrom_append {front rest : List Instruction}
    (h : compileFrom (front ++ rest) words opens = .ok program) (hplaces : Places words opens) :
    ∃ words' opens', compileFrom rest words' opens' = .ok program ∧ Places words' opens' ∧
      words'.size = words.size + Instruction.offset front front.length := by
  induction front generalizing words opens with
  | nil => exact ⟨words, opens, h, hplaces, rfl⟩
  | cons i front ih =>
    obtain ⟨-, words₁, opens₁, h₁, hplaces₁, hsize₁⟩ := exists_of_compileFrom_cons h hplaces
    obtain ⟨words₂, opens₂, h₂, hplaces₂, hsize₂⟩ := ih h₁ hplaces₁
    refine ⟨words₂, opens₂, h₂, hplaces₂, ?_⟩
    rw [hsize₂, hsize₁, List.length_cons, Instruction.offset_cons_succ, Nat.add_assoc]

/-- A text that closes the places in `inside` leaves those outside open. -/
theorem exists_of_compileFrom_closes {body rest : List Instruction} {inside outside : List Nat}
    (hbody : Closes inside.length body)
    (h : compileFrom (body ++ rest) words (inside ++ outside) = .ok program)
    (hplaces : Places words (inside ++ outside)) :
    ∃ words', compileFrom rest words' outside = .ok program ∧ Places words' outside ∧
      words'.size = words.size + Instruction.offset body body.length := by
  -- `inside` grows and shrinks with the depth of the body, and the places below it are never met.
  induction body generalizing words inside with
  | nil =>
    obtain rfl := List.length_eq_zero_iff.mp (closes_nil_iff.mp hbody)
    exact ⟨words, h, hplaces, rfl⟩
  | cons i body ih =>
    have behind {words₁ : Program} (hsize : words₁.size = words.size + i.width)
        (h : ∃ words', compileFrom rest words' outside = .ok program ∧ Places words' outside ∧
          words'.size = words₁.size + Instruction.offset body body.length) :
        ∃ words', compileFrom rest words' outside = .ok program ∧ Places words' outside ∧
          words'.size = words.size + Instruction.offset (i :: body) (i :: body).length := by
      obtain ⟨words', hrest, hplaces', hsize'⟩ := h
      refine ⟨words', hrest, hplaces', ?_⟩
      rw [hsize', hsize, List.length_cons, Instruction.offset_cons_succ, Nat.add_assoc]
    cases i with
    | op o =>
      rw [closes_op_iff] at hbody
      exact behind (Array.size_push _) (ih hbody h (hplaces.push _))
    | opening =>
      rw [closes_opening_iff] at hbody
      have hplaces₁ := hplaces.push_place (Instruction.code .opening) 0
      have hinside : Closes ((words.size + 1) :: inside).length body := by
        rwa [List.length_cons]
      exact behind (by simp only [Array.size_push]; rfl) (ih hinside h hplaces₁)
    | closing =>
      obtain ⟨depth, hdepth, hrest⟩ := closes_closing_iff.mp hbody
      obtain ⟨p, inside, rfl⟩ := List.exists_cons_of_length_eq_add_one hdepth
      obtain rfl : inside.length = depth := Nat.succ.inj hdepth
      refine behind ?_ (ih hrest h (hplaces.fill _ _ _))
      simp only [Array.size_setIfInBounds, Array.size_push]
      rfl

/-- Each bracket at an address of the two has behind it the address that follows the other's. -/
structure Linked (program : Program) (i j : Nat) : Prop where
  lt : i < j
  opening : program[i]? = some (Instruction.code .opening : Int)
  forward : program[i + 1]? = some ((j + 2 : Nat) : Int)
  closing : program[j]? = some (Instruction.code .closing : Int)
  back : program[j + 1]? = some ((i + 2 : Nat) : Int)

/-- A word that is not zero stands inside the program. -/
theorem getElem?_of_getD {a : Nat} {w : Int} (h : program.getD a 0 = w) (hw : w ≠ 0) :
    program[a]? = some w := by
  rw [Array.getD_eq_getD_getElem?] at h
  cases hget : program[a]? with
  | none =>
    rw [hget] at h
    exact absurd h.symm hw
  | some v =>
    rw [hget] at h
    exact congrArg some h

theorem linked_of_compileFrom {front body behind : List Instruction} (hbody : Closes 0 body)
    (h : compileFrom (front ++ .opening :: (body ++ .closing :: behind)) words opens = .ok program)
    (hplaces : Places words opens) : Linked program
      (words.size + Instruction.offset front front.length)
      (words.size + Instruction.offset front front.length + 2 +
        Instruction.offset body body.length) := by
  obtain ⟨words₁, opens₁, h₁, hplaces₁, hsize₁⟩ := exists_of_compileFrom_append h hplaces
  obtain ⟨hopen, -⟩ := exists_of_compileFrom_cons h₁ hplaces₁
  have hplaces₂ := hplaces₁.push_place (Instruction.code .opening) 0
  have hinside : Closes ([] : List Nat).length body := hbody
  obtain ⟨words₂, h₂, hplaces₃, hsize₂⟩ :=
    exists_of_compileFrom_closes hinside h₁ hplaces₂
  obtain ⟨hclose, -⟩ := exists_of_compileFrom_cons h₂ hplaces₃
  obtain ⟨hback, hforward⟩ := words_of_closing hplaces₃ h₂
  simp only [Array.size_push] at hsize₂
  rw [← hsize₁, ← hsize₂]
  constructor
  case lt => omega
  case opening => exact getElem?_of_getD hopen (Instruction.code_ne_zero _)
  case forward => exact getElem?_of_getD hforward (by omega)
  case closing => exact getElem?_of_getD hclose (Instruction.code_ne_zero _)
  case back => exact getElem?_of_getD hback (by omega)

section Source

variable {source : String} (h : compile source = .ok program)

include h

theorem withoutAddresses_of_compile : withoutAddresses program.toList =
    (Instruction.lex source).map fun i => (i.code : Int) := by
  refine withoutAddresses_eq (size_of_compile h) fun k hk => ?_
  rw [← code_of_compile h hk]
  simp [List.getD_eq_getElem?_getD, Array.getD_eq_getD_getElem?]

theorem linked_of_compile {a b : Nat} (hpaired : Paired (Instruction.lex source) a b) :
    Linked program (Instruction.offset (Instruction.lex source) a)
      (Instruction.offset (Instruction.lex source) b) := by
  rw [compile, hpaired.eq_append] at h
  have hlinked := linked_of_compileFrom (balanced_iff_closes.mp hpaired.between) h
    ⟨by simp, List.nodup_nil⟩
  have hclosing : Instruction.offset (Instruction.lex source) b =
      Instruction.offset (Instruction.lex source) a + 2 +
        (((((Instruction.lex source).take b).drop (a + 1)).map Instruction.width).sum) := by
    have hsum := congrArg (fun front => (front.map Instruction.width).sum) hpaired.take_eq
    simp only [List.map_append, List.sum_append, List.map_cons, List.sum_cons] at hsum
    exact hsum.trans (Nat.add_assoc _ _ _).symm
  rw [offset_length, offset_length, show (#[] : Program).size = 0 from rfl, Nat.zero_add] at hlinked
  rw [hclosing]
  exact hlinked

end Source

end Program

/-- A text is parsed and compiled exactly if its brackets are balanced, and otherwise both fail alike.
The tree spells the text, the words spell it without the addresses, and the addresses link each pair
of brackets. -/
theorem parse_compile_cases (source : String) :
    (Balanced (Instruction.lex source) ∧ ∃ block program,
      Block.parse (Instruction.lex source) = .ok block ∧ Program.compile source = .ok program ∧
      block.flatten = Instruction.lex source ∧
      Program.withoutAddresses program.toList =
        (Instruction.lex source).map (fun i => (i.code : Int)) ∧
      ∀ a b, Paired (Instruction.lex source) a b →
        program.Linked (Instruction.offset (Instruction.lex source) a)
          (Instruction.offset (Instruction.lex source) b)) ∨
    (¬ Balanced (Instruction.lex source) ∧
      ∃ fault, (fault = .unmatchedOpening ∨ fault = .unmatchedClosing) ∧
        Block.parse (Instruction.lex source) = .error (.machine fault) ∧
        Program.compile source = .error (.machine fault)) := by
  rw [balanced_iff_closes, ← bracketFault?_eq_none_iff]
  cases hfault : bracketFault? (Instruction.lex source) 0 with
  | none =>
    obtain ⟨block, hparse⟩ : ∃ block, Block.parse (Instruction.lex source) = .ok block :=
      Block.exists_of_closed hfault
    obtain ⟨program, hcompile⟩ : ∃ program, Program.compile source = .ok program :=
      Program.exists_of_closed hfault
    refine .inl ⟨rfl, block, program, hparse, hcompile, ?_, ?_, ?_⟩
    · exact Block.flatten_of_parse hparse
    · exact Program.withoutAddresses_of_compile hcompile
    · intro a b hpaired
      exact Program.linked_of_compile hcompile hpaired
  | some fault =>
    refine .inr ⟨by simp, fault, bracketFault?_cases hfault, ?_, ?_⟩
    · have hparse : Block.parse (Instruction.lex source) = .error (.machine fault) :=
        Block.parseFrom_of_fault hfault
      exact hparse
    · have hcompile : Program.compile source = .error (.machine fault) :=
        Program.compileFrom_of_fault hfault
      exact hcompile

theorem linked_of_nested_loops : ∃ block program, Block.parse (Instruction.lex "+[[-]]") = .ok block ∧
    Program.compile "+[[-]]" = .ok program ∧ block.flatten = Instruction.lex "+[[-]]" ∧
    program.Linked 1 8 ∧ program.Linked 3 6 := by
  have hfault : bracketFault? (Instruction.lex "+[[-]]") 0 = none := by decide +kernel
  have hbalanced : Balanced (Instruction.lex "+[[-]]") :=
    balanced_iff_closes.mpr (bracketFault?_eq_none_iff.mp hfault)
  have houter : Paired (Instruction.lex "+[[-]]") 1 5 := by
    refine ⟨by decide, by decide +kernel, by decide +kernel, ?_⟩
    exact balanced_iff_closes.mpr (bracketFault?_eq_none_iff.mp (by decide +kernel))
  have hinner : Paired (Instruction.lex "+[[-]]") 2 4 := by
    refine ⟨by decide, by decide +kernel, by decide +kernel, ?_⟩
    exact balanced_iff_closes.mpr (bracketFault?_eq_none_iff.mp (by decide +kernel))
  rcases parse_compile_cases "+[[-]]" with ⟨-, block, program, hparse, hcompile, hflat, -, hlinked⟩ |
    ⟨hnot, -⟩
  · exact ⟨block, program, hparse, hcompile, hflat, hlinked 1 5 houter, hlinked 2 4 hinner⟩
  · exact absurd hbalanced hnot

end TapeStark
