import TapeStark.Text

/-! Everything that can go wrong, as causes, and the text that reports each cause.
A cause without text of its own is one that only its kind reports. -/

namespace TapeStark

/-- Why proof bytes do not have the layout the verifier expects. -/
inductive Malformation
  | tagMissing
  | tagUnknown (tag : Nat)
  | payloadMissing
  | notCanonical
  | afterElement
  | truncated (wanted offset : Nat)
  | trailing (count : Nat)
  | digestLength (length : Nat)
  | elementCount (count : Nat) (limit : Int)
  | openingIndex (index : Nat) (height : Int)
  | openingWidth (count : Nat) (width : Int)
  | pathLength (depth : Nat)
  | openingKind (what : String) (index : Int)
  | terminalKind
  | argumentKind
  | heightsOutOfRange (logs : Heights)
  | heightsMismatch (heights expected : Heights)
  | degreeBound (bound : Nat)
  | security (achieved target : Int)
  | queryCount (count limit : Nat)
  deriving DecidableEq

/-- How the opened positions or folds disagree with the transcript. -/
inductive FoldingFault
  | layerIndex (layer : Nat) (opened expected : Int)
  | layerValue (layer : Nat) (position : Int)
  | queries (answered drawn : List Nat)
  | tracePosition (query : Nat) (base extension expected : Int)
  | randomizerPosition (query : Nat) (opened : Int)
  deriving DecidableEq

/-- How the last polynomial of the low-degree test breaks its bound. -/
inductive DegreeFault
  | coefficients (count bound : Nat)
  | lastFold (position : Int)
  deriving DecidableEq

/-- Why the verifier turns a proof down. -/
inductive Rejection
  | malformed (cause : Malformation)
  | commitment (what : String) (index : Int)
  | proofOfWork (nonce bits : Nat)
  | folding (fault : FoldingFault)
  | degree (fault : DegreeFault)
  | composition (query : Nat)
  deriving DecidableEq

/-- Why no query count reaches a security target. -/
inductive SecurityFault
  | blowup
  | target (bits : Int)
  deriving DecidableEq

/-- Why a set of parameters is refused. -/
inductive ConfigFault
  | expansionFactor (value : Int)
  | securityLevel (value : Int)
  | hashSecurity (level hash : Int)
  | randomizers (value : Int)
  | extensionDegree (value : Int)
  | grindingBits (value : Int)
  | terminalCoefficients (value : Int)
  | workers (value : Int)
  | security (fault : SecurityFault)
  | degreeBound (achieved target bound : Int) (fieldBits : Nat)
  | meetsTrace (points : Nat)
  deriving DecidableEq

/-- Lengths that had to agree and do not. -/
inductive LengthFault
  | slots (found points : Nat)
  | quotient (target source : Nat)
  | rows (expected found : Nat)
  | coefficients (found points : Nat)
  | columnCount (names found : Nat)
  | columnLengths (found : List Nat)
  deriving DecidableEq

/-- Sizes that are no supported power of two. -/
inductive SizeFault
  | notPowerOfTwo (n : Int)
  | noRoot (n : Int)
  | squareOfOne
  | treeHeight (n : Nat)
  deriving DecidableEq

/-- Faults of a source text or of a run of the tape machine. -/
inductive MachineFault
  | unmatchedOpening
  | unmatchedClosing
  | belowTape
  | pastInput
  | outputRange (value : Nat)
  | stepLimit (steps : Int)
  | invalidWord (word address : Int)
  | noCharacter
  | addressRange
  deriving DecidableEq

inductive Error
  | rejected (r : Rejection)
  | config (f : ConfigFault)
  | length (f : LengthFault)
  | size (f : SizeFault)
  | machine (f : MachineFault)
  /-- The composition polynomial of a run that breaks its constraints. -/
  | compositionDegree (actual bound : Int)
  | zeroAt (position : Nat)
  | zeroInverse
  | divisionByZero
  | cannotEmbed
  | fieldMismatch
  | outOfField
  | unknownKind
  /-- Text that is no number or no bytes. -/
  | unreadable
  | noByte
  | extensionDegree (value : Int)
  | negativeExponent
  | negativeShift
  | integerWidth
  /-- An integer that no word of a tree row holds. -/
  | wordOverflow
  /-- A word that would cross the end of its bytes. -/
  | wordBounds
  | personLength
  | transcriptCopy
  | sampleSize (found : Int)
  | readOnly
  | writeOnly
  | leafShape (shape : List Nat)
  | leafIndex (index : Int) (height : Nat)
  | noTree
  | unbuiltTree
  | raggedRows
  /-- A list where a single cell belongs. -/
  | nestedCell
  | unknownColumn
  /-- No value under a name that is looked up. -/
  | missingEntry
  /-- Not a single value to take the field from. -/
  | noEntries
  /-- Too few or too many values for a record. -/
  | entryCount
  | shapeMismatch
  | indexOutOfRange
  | nothingToCommit
  | weightCount (expected : Int) (found : Nat)
  | inputMismatch
  | outputMismatch
  | noMemoryRow
  | negativeSeed
  | security (fault : SecurityFault)
  | pageSize (value : Int)
  deriving DecidableEq

/-- A rejection of bytes that do not have the expected layout. -/
def Error.malformed (cause : Malformation) : Error := .rejected (.malformed cause)

def Malformation.message : Malformation → String
  | tagMissing => "truncated field element tag"
  | tagUnknown tag => s!"unknown field tag {tag}"
  | payloadMissing => "truncated field element payload"
  | notCanonical => "non-canonical field element"
  | afterElement => "trailing bytes after field element"
  | truncated wanted offset => s!"proof truncated: wanted {wanted} bytes at offset {offset}"
  | trailing count => s!"{count} trailing bytes after proof"
  | digestLength length => s!"digest of length {length}, expected 32"
  | elementCount count limit => s!"{count} field elements where at most {limit} are allowed"
  | openingIndex index height => s!"opening index {index} outside a tree of height {height}"
  | openingWidth count width => s!"opening carries {count} values, expected {width}"
  | pathLength depth => s!"authentication path of length {depth}"
  | openingKind what index => s!"{what} opening at {index} carries values of the wrong field"
  | terminalKind => "FRI terminal coefficients must be extension field elements"
  | argumentKind => "permutation terminals must be extension field elements"
  | heightsOutOfRange logs => "table heights out of range: " ++ Text.heights logs
  | heightsMismatch found expected =>
      "table heights " ++ Text.heights found ++ " do not match the public data (" ++
        Text.heights expected ++ ")"
  | degreeBound bound => s!"degree bound {bound} exceeds the two-adic subgroup"
  | security achieved target =>
      s!"proof heights give {achieved} bits of security, below the target {target}"
  | queryCount count limit => s!"proof answers {count} queries, at most {limit} are drawn"

def FoldingFault.message : FoldingFault → String
  | layerIndex layer opened expected => s!"layer {layer} opened at {opened}, expected {expected}"
  | layerValue layer position =>
      s!"layer {layer} value at {position} does not match the fold of layer {layer - 1}"
  | queries answered drawn =>
      "proof answers queries " ++ Text.numbers answered ++ ", transcript draws " ++
        Text.numbers drawn
  | tracePosition query base extension expected =>
      s!"query {query}: trace opened at {base}/{extension}, expected {expected}"
  | randomizerPosition query opened => s!"query {query}: randomizers opened at {opened}"

def DegreeFault.message : DegreeFault → String
  | coefficients count bound =>
      s!"terminal polynomial has {count} coefficients, bound is {bound}"
  | lastFold position => s!"last fold at {position} disagrees with the terminal polynomial"

def Rejection.message : Rejection → String
  | malformed cause => cause.message
  | commitment what index => s!"{what} at index {index} does not match its commitment"
  | proofOfWork nonce bits => s!"nonce {nonce} does not meet {bits} bits of work"
  | folding fault => fault.message
  | degree fault => fault.message
  | composition query => s!"composition mismatch at query {query}"

def SecurityFault.message : SecurityFault → String
  | blowup => "blowup factor must be at least 2"
  | target bits => s!"security target {bits} needs more than 512 queries"

def ConfigFault.message : ConfigFault → String
  | expansionFactor value => s!"expansion factor must be a power of two >= 2, got {value}"
  | securityLevel value => s!"security level must be positive, got {value}"
  | hashSecurity level hash => s!"security level {level} exceeds hash security {hash}"
  | randomizers value => s!"number of randomizers must be non-negative, got {value}"
  | extensionDegree value => s!"extension degree must be 1 or 3, got {value}"
  | grindingBits value => s!"grinding bits must be in [0, 32], got {value}"
  | terminalCoefficients value => s!"FRI terminal coefficients must be a power of two, got {value}"
  | workers value => s!"number of workers must be positive, got {value}"
  | security fault => fault.message
  | degreeBound achieved target bound bits =>
      s!"conjectured security {achieved} bits is below the target {target} " ++
        s!"(degree bound {bound}, {bits}-bit field)"
  | meetsTrace points => s!"evaluation domain of size {points} meets the trace domain"

def LengthFault.message : LengthFault → String
  | slots found points => s!"destination has {found} slots, domain has {points}"
  | quotient target source => s!"dst has {target} coefficients, src has {source}"
  | rows expected found => s!"expected {expected} rows, got {found}"
  | coefficients found points =>
    s!"polynomial with {found} coefficients exceeds domain size {points}"
  | columnCount names found => s!"{names} names for {found} columns"
  | columnLengths found => "columns have different lengths: " ++ Text.numbers found

def SizeFault.message : SizeFault → String
  | notPowerOfTwo n => s!"{n} is not a power of two"
  | noRoot n => s!"no primitive root of unity of order {n}"
  | squareOfOne => "cannot square a domain of size 1"
  | treeHeight n => s!"Merkle tree height must be a power of two, got {n}"

/-- A word that is no character and an address outside the program have no text. -/
def MachineFault.message : MachineFault → Option String
  | unmatchedOpening => some "unmatched '['"
  | unmatchedClosing => some "unmatched ']'"
  | belowTape => some "memory pointer moved below cell 0"
  | pastInput => some "program read past the end of its input"
  | outputRange value => some s!"cannot output non-byte cell value {value}"
  | stepLimit steps => some s!"program did not halt within {steps} steps"
  | invalidWord word address => some s!"invalid instruction word {word} at address {address}"
  | noCharacter | addressRange => none

def Error.message : Error → Option String
  | rejected r => some r.message
  | config f => some f.message
  | length f => some f.message
  | size f => some f.message
  | machine f => f.message
  | compositionDegree actual bound =>
      some s!"composition polynomial has degree {actual}, bound is {bound}"
  | zeroAt position => some s!"cannot invert zero element at position {position}"
  | zeroInverse => some "zero has no multiplicative inverse"
  | cannotEmbed =>
      some "cannot embed GF(18446744069414584321^3) into GF(18446744069414584321)"
  | extensionDegree value => some s!"extension degree must be 1 or 3, got {value}"
  | negativeExponent => some "exponent must be non-negative; use inverse() instead"
  | transcriptCopy => some "a Transcript cannot be copied"
  | sampleSize found => some s!"domain size must be a power of two, got {found}"
  | readOnly => some "cannot push to a proof stream opened for reading"
  | writeOnly => some "cannot pull from a proof stream opened for writing"
  | leafShape shape => some s!"expected a 2-D leaf matrix, got shape {Text.shape shape}"
  | leafIndex index height => some s!"leaf index {index} out of range for height {height}"
  | unbuiltTree => some "tree has not been built"
  | nothingToCommit => some "nothing to commit"
  | weightCount expected found => some s!"expected {expected} weights, got {found}"
  | inputMismatch => some "input bytes do not match the input consumed by the execution"
  | outputMismatch => some "output bytes do not match the output produced by the execution"
  | security fault => some fault.message
  | pageSize value => some s!"page size must be a power of two, got {value}"
  | divisionByZero | fieldMismatch | outOfField | unknownKind | unreadable | noByte | negativeShift
  | integerWidth | wordOverflow | wordBounds | personLength | noTree | raggedRows | nestedCell
  | unknownColumn | missingEntry | noEntries | entryCount | shapeMismatch | indexOutOfRange
  | noMemoryRow | negativeSeed => none

end TapeStark
