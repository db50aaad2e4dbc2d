import Dicebox.Source.Twister

/-! # The sources there are

Seeded sources count the values that they hand out and can be rewound to their seed. Sources of
listed words, of the system's entropy and without words sample in the same way. A replay hands out
recorded values as they are, whatever range is asked for, and a constant source always the same one.

- `Seeded`, `Replay`: the sources with a state that can be asked for.
- `Source`: any of the sources.
- `Source.forSeed`: the source that settings ask for.
- `Source.reset?`: rewinding.
-/

namespace Dicebox

/-! ## Seeded sources -/

/-- A generator with its seed and the number of values handed out since it was started. -/
structure Seeded where
  seed : Int
  generator : Twister
  draws : Nat
  deriving DecidableEq

namespace Seeded

def ofSeed (seed : Int) : Seeded := ⟨seed, Twister.ofSeed seed, 0⟩

def reset (s : Seeded) : Seeded := ofSeed s.seed

/-- The next value; only values that are handed out count. -/
def next (s : Seeded) (low high : Int) : Except SourceFault Int × Seeded :=
  match sample s.generator low high with
  | (.ok v, g) => (.ok v, { s with generator := g, draws := s.draws + 1 })
  | (.error f, g) => (.error f, { s with generator := g })

end Seeded

/-! ## Replays -/

/-- Recorded values still to be handed out, and how many have been. -/
structure Replay where
  rest : List Data
  handed : Nat

namespace Replay

def ofList (values : List Data) : Replay := ⟨values, 0⟩

/-- The next value, as it was recorded. -/
def next (r : Replay) : Except SourceFault Data × Replay :=
  match r.rest with
  | [] => (.error (.valuesRanOut r.handed), r)
  | v :: rest => (.ok v, ⟨rest, r.handed + 1⟩)

end Replay

instance : RandomSource Replay where
  next r _ _ := r.next

/-! ## Any source -/

/-- A source of one of the kinds there are. -/
inductive Source where
  | seeded (state : Seeded)
  | secure (words : Entropy)
  | listed (words : ListedWords)
  | wordless
  | replay (state : Replay)
  | constant (value : Data)

/-- The answer of a sampler as a plain value. -/
def sampled {ω : Type} (build : ω → Source) :
    Except SourceFault Int × ω → Except SourceFault Data × Source
  | (.ok v, w) => (.ok (.int v), build w)
  | (.error f, w) => (.error f, build w)

namespace Source

/-- What a source gives for a range, and the source afterwards. -/
def next (s : Source) (low high : Int) : Except SourceFault Data × Source :=
  match s with
  | seeded state => sampled seeded (state.next low high)
  | secure words => sampled secure (sample words low high)
  | listed words => sampled listed (sample words low high)
  | wordless => sampled (fun _ => wordless) (sample () low high)
  | replay state => let (v, state) := state.next; (v, replay state)
  | constant value => (.ok value, constant value)

/-- The source of a seed, or of the system's entropy if there is no seed. -/
def forSeed (seed : Option Int) (words : Entropy) : Source :=
  match seed with
  | some n => seeded (Seeded.ofSeed n)
  | none => secure words

/-- The source rewound to its beginning, if it can be. -/
def reset? : Source → Option Source
  | seeded state => some (seeded state.reset)
  | _ => none

end Source

instance : RandomSource Source where
  next := Source.next

end Dicebox
