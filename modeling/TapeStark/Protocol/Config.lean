import TapeStark.Domain
import TapeStark.Error
import TapeStark.Field.Extension

/-! The parameters that prover and verifier share, and the security that they give. -/

namespace TapeStark

/-! The conjectured security of a set of parameters, in bits. -/

namespace Security

/-- Grinding counts only once the queries alone give this many bits. -/
def grindingFloor : Int := 80

def maxQueries : Nat := 512

/-- The binary digits of the absolute value. -/
def bitLength (n : Int) : Nat := if n = 0 then 0 else n.natAbs.log2 + 1

/-- The exponent of the least power of two that is at least `n`, for positive `n`. -/
def ceilLog2 (n : Int) : Nat := bitLength (n - 1)

def field (fieldBits blowup traceLength : Int) : Int := fieldBits - ceilLog2 (blowup * traceLength)

def query (blowup queries grinding : Int) : Int :=
  let bits := ((bitLength blowup : Int) - 1) * queries
  if bits ≥ grindingFloor then bits + grinding else bits

/-- Never below zero. -/
def conjectured (fieldBits hashBits blowup traceLength queries grinding : Int) : Int :=
  max (min (min (field fieldBits blowup traceLength) (query blowup queries grinding) - 1) hashBits)
    0

/-- The least query count whose security is at least one bit above the target. -/
def queriesFor (target blowup grinding : Int) : Except SecurityFault Nat :=
  if blowup < 2 then .error .blowup
  else
    let enough (n : Nat) : Bool := query blowup n grinding - 1 ≥ target
    match (List.range' 1 maxQueries).find? enough with
    | some n => .ok n
    | none => .error (.target target)

end Security

/-! The parameters that prover and verifier share. -/

/-- Parameters as they are asked for. -/
structure Parameters where
  /-- The factor of the evaluation domain over the degree bound. -/
  expansionFactor : Int := 4
  /-- The conjectured security to reach, in bits. -/
  securityLevel : Int := 32
  /-- The random polynomials mixed into the composition. -/
  numRandomizers : Int := 0
  extensionDegree : Int := 1
  /-- The leading zero bits asked of the proof of work. -/
  grindingBits : Int := 0
  /-- The security of the hash, in bits. -/
  hashSecurity : Int := 128
  /-- The coefficients that the last polynomial of the low-degree test may have. -/
  terminalCoefficients : Int := 4
  numWorkers : Int := 1
  /-- The seed of the random polynomials. -/
  seed : Option Int := none

namespace Parameters

def maxGrindingBits : Int := 32

/-- The first reason to refuse the parameters, in the order in which they are looked at. -/
def fault (p : Parameters) : Option ConfigFault :=
  if !isPowerOfTwo p.expansionFactor || p.expansionFactor < 2 then
    some (.expansionFactor p.expansionFactor)
  else if p.securityLevel < 1 then some (.securityLevel p.securityLevel)
  else if p.securityLevel > p.hashSecurity then
    some (.hashSecurity p.securityLevel p.hashSecurity)
  else if p.numRandomizers < 0 then some (.randomizers p.numRandomizers)
  else if p.extensionDegree ≠ 1 ∧ p.extensionDegree ≠ 3 then
    some (.extensionDegree p.extensionDegree)
  else if p.grindingBits < 0 ∨ p.grindingBits > maxGrindingBits then
    some (.grindingBits p.grindingBits)
  else if !isPowerOfTwo p.terminalCoefficients then
    some (.terminalCoefficients p.terminalCoefficients)
  else if p.numWorkers < 1 then some (.workers p.numWorkers)
  else
    match Security.queriesFor p.securityLevel p.expansionFactor p.grindingBits with
    | .ok _ => none
    | .error fault => some (.security fault)

end Parameters

/-- Parameters without a fault. -/
structure Config where
  parameters : Parameters
  accepted : parameters.fault = none

namespace Config

def of? (p : Parameters) : Except Error Config :=
  match h : p.fault with
  | none => .ok ⟨p, h⟩
  | some fault => .error (.config fault)

variable (c : Config)

def expansion : Nat := c.parameters.expansionFactor.toNat

def securityLevel : Int := c.parameters.securityLevel

def randomizers : Nat := c.parameters.numRandomizers.toNat

def degree : Degree := if c.parameters.extensionDegree = 3 then .three else .one

def grindingBits : Nat := c.parameters.grindingBits.toNat

def terminalCoefficients : Nat := c.parameters.terminalCoefficients.toNat

def workers : Nat := c.parameters.numWorkers.toNat

def numQueries : Nat :=
  match Security.queriesFor c.parameters.securityLevel c.parameters.expansionFactor
      c.parameters.grindingBits with
  | .ok n => n
  | .error _ => 0

/-- The conjectured security under a degree bound. -/
def securityFor (bound : Int) : Int :=
  Security.conjectured c.degree.bits c.parameters.hashSecurity c.parameters.expansionFactor bound
    c.numQueries c.parameters.grindingBits

/-- Refuses a degree bound under which the target is out of reach. -/
def checkSecurity (bound : Int) : Except Error Unit :=
  if c.securityFor bound < c.securityLevel then
    .error (.config (.degreeBound (c.securityFor bound) c.securityLevel bound c.degree.bits))
  else .ok ()

end Config

end TapeStark
