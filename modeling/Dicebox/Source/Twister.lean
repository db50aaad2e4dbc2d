import Dicebox.Source.Words

/-! # The seeded generator

The Mersenne twister with 32-bit words and a table of 624 of them. A seed is any integer; its
absolute value, cut into words from the lowest one on, mixes the table.

- `Twister.ofSeed`: the generator of a seed.
- `Twister.next`: the next word.
- `Twister.states`: the number of its states, which bounds any search in its stream.
-/

namespace Dicebox

namespace Twister

def size : Nat := 624

/-- How far away the word is that the next word of the table depends on. -/
def shift : Nat := 397

theorem size_pos : 0 < size := by decide

end Twister

/-- A generator: its table, and how many words of the table are used up. -/
structure Twister where
  table : Vector UInt32 Twister.size
  used : Fin (Twister.size + 1)
  deriving DecidableEq

namespace Twister

def word (t : Vector UInt32 size) (i : Nat) : UInt32 := t.get ⟨i % size, Nat.mod_lt _ size_pos⟩

/-- The table with another word, counted around it. -/
def put (t : Vector UInt32 size) (i : Nat) (x : UInt32) : Vector UInt32 size :=
  t.set (i % size) x (Nat.mod_lt _ size_pos)

/-! ## Seeding -/

/-- The 32-bit words of a number, the lowest first, at most `fuel` of them. -/
def wordsOf : Nat → Nat → List UInt32
  | 0, _ => []
  | fuel + 1, n => n.toUInt32 :: if n < wordRange then [] else wordsOf fuel (n / wordRange)

/-- The mixed predecessor of a word of the table. -/
def mixed (t : Vector UInt32 size) (i : Nat) : UInt32 :=
  let x := word t (i + size - 1)
  x ^^^ (x >>> 30)

def start (x : UInt32) : Vector UInt32 size :=
  (List.range (size - 1)).foldl
    (fun t i => put t (i + 1) (1812433253 * mixed t (i + 1) + (i + 1).toUInt32))
    (Vector.replicate size x)

/-- Goes on to the next place of the table. The first word is never mixed: it takes the value of
the last one whenever the end is reached. -/
def advance (t : Vector UInt32 size) (i : Nat) : Vector UInt32 size × Nat :=
  if i + 1 < size then (t, i + 1) else (put t 0 (word t (size - 1)), 1)

/-- Mixes the words of a key into the table, starting at place `i` with the key's `j`th word. -/
def mixKey (key : Array UInt32) : Nat → Vector UInt32 size → Nat → Nat → Vector UInt32 size × Nat
  | 0, t, i, _ => (t, i)
  | rounds + 1, t, i, j =>
    let x := (word t i ^^^ (mixed t i * 1664525)) + key.getD j 0 + j.toUInt32
    let (t, i) := advance (put t i x) i
    mixKey key rounds t i (if j + 1 < key.size then j + 1 else 0)

/-- Mixes the places of the table into it. -/
def mixPlaces : Nat → Vector UInt32 size → Nat → Vector UInt32 size
  | 0, t, _ => t
  | rounds + 1, t, i =>
    let x := (word t i ^^^ (mixed t i * 1566083941)) - i.toUInt32
    let (t, i) := advance (put t i x) i
    mixPlaces rounds t i

def ofKey (key : Array UInt32) : Vector UInt32 size :=
  let (t, i) := mixKey key (max size key.size) (start 19650218) 1 0
  put (mixPlaces (size - 1) t i) 0 0x80000000

/-- The generator of a seed. A seed and its negative give the same one. -/
def ofSeed (seed : Int) : Twister :=
  ⟨ofKey (wordsOf (seed.natAbs.log2 / 32 + 1) seed.natAbs).toArray, Fin.last size⟩

/-! ## Words -/

/-- The next word of the table at a place, from the word there, its successor and the one that is
`shift` places on. -/
def twisted (t : Vector UInt32 size) (i : Nat) : UInt32 :=
  let y := (word t i &&& 0x80000000) ||| (word t (i + 1) &&& 0x7fffffff)
  word t (i + shift) ^^^ (y >>> 1) ^^^ (if y &&& 1 = 1 then 0x9908b0df else 0)

/-- The table after all its words are used up. -/
def refill (t : Vector UInt32 size) : Vector UInt32 size :=
  (List.range size).foldl (fun t i => put t i (twisted t i)) t

/-- The word given out for a word of the table. -/
def temper (y : UInt32) : UInt32 :=
  let y := y ^^^ (y >>> 11)
  let y := y ^^^ ((y <<< 7) &&& 0x9d2c5680)
  let y := y ^^^ ((y <<< 15) &&& 0xefc60000)
  y ^^^ (y >>> 18)

def next (g : Twister) : UInt32 × Twister :=
  if h : g.used.val < size then
    (temper (g.table.get ⟨g.used.val, h⟩), ⟨g.table, ⟨g.used.val + 1, Nat.succ_lt_succ h⟩⟩)
  else
    let t := refill g.table
    (temper (word t 0), ⟨t, ⟨1, by decide⟩⟩)

/-- How many states a generator has. Its stream comes round after at most so many words, so a word
that is not among them never appears. -/
def states : Nat := wordRange.pow size * (size + 1)

end Twister

instance : WordStream Twister where
  next g := let (x, g) := g.next; (.ok x, g)
  horizon _ := Twister.states

end Dicebox
