import Switchyard.Station.Substation

/-!
# Noise

Noise perturbs input registers around base values at the start of every tick, with offsets drawn
uniformly from an interval. Where random numbers come from is not part of the engine: a `Generator`
supplies the words that a seed determines, the words without a seed, and the way an offset is drawn
from words.
-/

namespace Switchyard.Engine

/-- An input register and the values it varies between. -/
structure NoiseTarget where
  profile : String
  address : UInt16
  base : Float
  amplitude : Float
  deriving DecidableEq

/-- A source of random words, each with its number in the order in which they are drawn. -/
structure Generator where
  /-- The words that follow from a seed. -/
  seeded : UInt64 → Nat → UInt64
  /-- The words where no seed is given. -/
  fresh : Nat → UInt64
  /-- Draws an offset from `[-amplitude, amplitude]` out of the words to come, and says how many of
  them that takes. -/
  draw : Float → (Nat → UInt64) → Float × Nat

/-- The words of a seed, or fresh ones. -/
def Generator.words (g : Generator) (seed : Option UInt64) : Nat → UInt64 := seed.elim g.fresh g.seeded

/-- Targets with their generator, its seed and the number of words that it has drawn. -/
structure Noise where
  targets : List NoiseTarget
  generator : Generator
  seed : Option UInt64
  drawn : Nat

/-- The nearest register word, halves away from zero; what lies outside the range gives its end. -/
def nearestWord (x : Float) : UInt16 :=
  let n := (Binary64.roundInt64Sat x).toInt
  UInt16.ofNat (min n 65535).toNat

/-- Perturbs one register, after some words have been drawn. An amplitude that is not positive draws
nothing. -/
def NoiseTarget.apply (t : NoiseTarget) (g : Generator) (words : Nat → UInt64) (m : DataModel) (drawn : Nat) :
    DataModel × Nat :=
  if 0.0 < t.amplitude then
    let (offset, used) := g.draw t.amplitude fun i => words (drawn + i)
    (m.modifyProfile t.profile fun p => p.setInput t.address (nearestWord (t.base + offset)), drawn + used)
  else (m.modifyProfile t.profile fun p => p.setInput t.address (nearestWord t.base), drawn)

/-- Perturbs all registers of a list of targets. -/
def perturb (g : Generator) (words : Nat → UInt64) : List NoiseTarget → DataModel → Nat → DataModel × Nat
  | [], m, drawn => (m, drawn)
  | t :: ts, m, drawn =>
    let (m, drawn) := t.apply g words m drawn
    perturb g words ts m drawn

def Noise.apply (n : Noise) (m : DataModel) : DataModel × Noise :=
  let (m, drawn) := perturb n.generator (n.generator.words n.seed) n.targets m n.drawn
  (m, { n with drawn })

end Switchyard.Engine
