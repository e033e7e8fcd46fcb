/-! The five tables of an execution, and data that has one entry for each of them. -/

namespace TapeStark

inductive Table
  | processor | memory | instruction | input | output
  deriving DecidableEq, Repr

namespace Table

/-- The order in which tables are committed, weighted and opened. -/
def all : List Table := [.processor, .memory, .instruction, .input, .output]

theorem mem_all (t : Table) : t ∈ all := by cases t <;> decide

def name : Table → String
  | processor => "processor"
  | memory => "memory"
  | instruction => "instruction"
  | input => "input"
  | output => "output"

/-- The sum of a number for every table of a list. -/
def total (tables : List Table) (f : Table → Nat) : Nat := tables.foldr (fun t n => f t + n) 0

end Table

/-- One entry for every table; the type of the entry may depend on the table. -/
structure PerTable (α : Table → Type) where
  processor : α .processor
  memory : α .memory
  instruction : α .instruction
  input : α .input
  output : α .output

namespace PerTable

variable {α β : Table → Type}

def get (p : PerTable α) : (t : Table) → α t
  | .processor => p.processor
  | .memory => p.memory
  | .instruction => p.instruction
  | .input => p.input
  | .output => p.output

def ofFn (f : (t : Table) → α t) : PerTable α :=
  ⟨f .processor, f .memory, f .instruction, f .input, f .output⟩

/-- Fills the entries in table order and stops at the first failure. -/
def ofFnM {m : Type → Type} [Monad m] (f : (t : Table) → m (α t)) : m (PerTable α) := do
  let processor ← f .processor
  let memory ← f .memory
  let instruction ← f .instruction
  let input ← f .input
  let output ← f .output
  return ⟨processor, memory, instruction, input, output⟩

@[simp] theorem get_ofFn (f : (t : Table) → α t) (t : Table) : (ofFn f).get t = f t := by
  cases t <;> rfl

theorem ext_get {p q : PerTable α} (h : ∀ t, p.get t = q.get t) : p = q := by
  cases p
  cases q
  have h1 := h .processor
  have h2 := h .memory
  have h3 := h .instruction
  have h4 := h .input
  have h5 := h .output
  simp only [get] at h1 h2 h3 h4 h5
  subst h1 h2 h3 h4 h5
  rfl

end PerTable

/-- A number of rows for every table. Heights that are asked about may be any integers. -/
abbrev Heights := PerTable fun _ => Int

namespace Heights

def toList (h : Heights) : List Int := Table.all.map h.get

instance : DecidableEq Heights := fun p q =>
  if h : ∀ t ∈ Table.all, p.get t = q.get t then
    .isTrue (PerTable.ext_get fun t => h t t.mem_all)
  else .isFalse fun e => h fun _ _ => e ▸ rfl

end Heights

end TapeStark
