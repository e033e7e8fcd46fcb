import TapeStark.Protocol.Fri

/-! The low-degree test on its own: a codeword of either field is committed and opened on a fresh
stream, and its openings may be changed before they are checked. -/

namespace TapeStark.Fri

/-- What was committed, the length of the proof up to there, and the stream with the answers. -/
structure Trial where
  layers : List (Commitment Variant)
  final : List Variant
  committed : Nat
  stream : ProofStream

/-- An element under the tag of the extension, whatever its own field. -/
def tagExtension (d : Degree) (a : d.Carrier) : Variant := ⟨.fx, ⟨d, a⟩⟩

/-- The commit phase on a proof stream. -/
def commitOn {F : Type} [ExtensionField F] (fri : Fri) (H : Hash) (codeword : Array F) :
    StreamM (Folded F) :=
  letI : Channel F StreamM := ProofStream.channel H F
  fri.commit H 1 codeword

/-- The commit phase for a codeword of any field. It is committed as it is; folding needs the
challenges' field, of degree `d`, to hold it. -/
def commitElements (fri : Fri) (H : Hash) (d : Degree) (codeword : ElementArray) :
    StreamM (List (Commitment Variant) × List Variant) := do
  let own := codeword.values.map (tagExtension codeword.degree)
  match fri.rounds with
  | 0 =>
    let coefficients ← Fourier.interpolate codeword.values fri.domain
    let final := (Polynomial.trim coefficients).toList.map (tagExtension codeword.degree)
    ProofStream.push H (.elements final)
    return ([], final)
  | rounds + 1 =>
    let layer ← commitLayer H 1 own
    ProofStream.push (V := Variant) H (.digest layer.root)
    let alpha ← ProofStream.sampleField H d.Carrier
    let values ← codeword.promote d
    let folded ← fold values alpha fri.domain
    let domain ← fri.domain.squared
    let rest ← commitOn { fri with domain, rounds } H folded
    return (layer :: rest.layers.map fun l => l.map Variant.ofTagged,
      rest.final.map (tagExtension d))

/-- Commits on a fresh stream and answers the indices. -/
def tryOn (fri : Fri) (H : Hash) (d : Degree) (codeword : ElementArray) (indices : List Int) :
    Except Error Trial := do
  let (committed, written) := fri.commitElements H d codeword (.writer H)
  let (layers, final) ← committed
  let answers ← indices.mapM fun i => openLayers layers fri.domain.size i
  let push : StreamM Unit := answers.flatten.forM fun o => ProofStream.push H (.opening o)
  let (pushed, stream) := push written
  pushed
  return ⟨layers, final, written.buffer.size, stream⟩

/-- A change of one opened value; query, layer and place may count from the end. -/
structure OpeningChange where
  query : Int
  layer : Int
  place : Int
  amount : Variant

def OpeningChange.apply {d : Degree} (e : OpeningChange)
    (queries : List (List (Opening (Tagged d.Carrier)))) :
    Except Error (List (List (Opening (Tagged d.Carrier)))) :=
  modifyAt queries e.query fun layers => modifyAt layers e.layer fun o => do
    let values ← modifyAt o.values e.place fun v => do
      let sum ← (Variant.ofTagged v).add e.amount
      sum.tagged d
    return { o with values }

end TapeStark.Fri
