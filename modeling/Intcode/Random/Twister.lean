/-
# The Mersenne Twister

The generator MT19937: 624 words of 32 bits, renewed all at once when they
are used up, each word tempered before it is given out. A seed is an integer
whose magnitude, in words, is spread over the state.

Key definitions: `Twister`, `Twister.ofSeed`, `Twister.next`.
-/

namespace Intcode

/-- The state of a generator: its words, and how many have been given out
since they were renewed. -/
structure Twister where
  words : Array UInt32
  used : Nat
  deriving Repr

namespace Twister

/-- The number of words. -/
def size : Nat := 624

/-- The word at an index. -/
def wordAt (words : Array UInt32) (i : Nat) : UInt32 := words.getD i 0

/-- A word mixed with its own top bits. -/
def mixed (w : UInt32) : UInt32 := w ^^^ (w >>> 30)

/-- The words made from one starting word. -/
def expand (seed : UInt32) : Array UInt32 :=
  (List.range (size - 1)).foldl
    (fun words i => words.push (1812433253 * mixed (wordAt words i) + UInt32.ofNat (i + 1))) #[seed]

/-- Sets the word at an index from 1 on, and carries the last word over to
the front when the index was the last one. -/
def place (words : Array UInt32) (i : Nat) (w : UInt32) : Array UInt32 × Nat :=
  let words := words.setIfInBounds i w
  if i + 1 < size then (words, i + 1) else (words.setIfInBounds 0 w, 1)

/-- Adds the words of a key to the state, going round both as long as
needed. -/
def addKey (key : List UInt32) : Nat → Array UInt32 → Nat → List (UInt32 × Nat) → Array UInt32 × Nat
  | 0, words, i, _ => (words, i)
  | n + 1, words, i, [] => match key.zipIdx with
    | [] => (words, i)
    | (k, j) :: rest =>
      let (words, i) := place words i
        ((wordAt words i ^^^ (mixed (wordAt words (i - 1)) * 1664525)) + k + UInt32.ofNat j)
      addKey key n words i rest
  | n + 1, words, i, (k, j) :: rest =>
    let (words, i) := place words i
      ((wordAt words i ^^^ (mixed (wordAt words (i - 1)) * 1664525)) + k + UInt32.ofNat j)
    addKey key n words i rest

/-- Stirs the words once more, each by its index. -/
def stir : Nat → Array UInt32 → Nat → Array UInt32
  | 0, words, _ => words
  | n + 1, words, i =>
    let (words, i) := place words i
      ((wordAt words i ^^^ (mixed (wordAt words (i - 1)) * 1566083941)) - UInt32.ofNat i)
    stir n words i

/-- The words of a natural number, least significant first. -/
def keyWords (n : Nat) : List UInt32 :=
  if n < 1 <<< 32 then [UInt32.ofNat n] else UInt32.ofNat (n % 1 <<< 32) :: keyWords (n >>> 32)
termination_by n

/-- The generator of a seed. The sign of the seed does not count. -/
def ofSeed (seed : Int) : Twister :=
  let key := keyWords seed.natAbs
  let (words, i) := addKey key (max size key.length) (expand 19650218) 1 []
  let words := stir (size - 1) words i
  ⟨words.setIfInBounds 0 0x80000000, size⟩

/-- The new word at an index, from the words as they are. -/
def renewedWord (words : Array UInt32) (i : Nat) : UInt32 :=
  let y := (wordAt words i &&& 0x80000000) ||| (wordAt words ((i + 1) % size) &&& 0x7fffffff)
  wordAt words ((i + 397) % size) ^^^ (y >>> 1) ^^^ (if y &&& 1 = 0 then 0 else 0x9908b0df)

/-- All words renewed, in order and in place. -/
def renew (words : Array UInt32) : Array UInt32 :=
  (List.range size).foldl (fun words i => words.setIfInBounds i (renewedWord words i)) words

/-- A word as it is given out. -/
def temper (y : UInt32) : UInt32 :=
  let y := y ^^^ (y >>> 11)
  let y := y ^^^ ((y <<< 7) &&& 0x9d2c5680)
  let y := y ^^^ ((y <<< 15) &&& 0xefc60000)
  y ^^^ (y >>> 18)

/-- The next word. -/
def next (t : Twister) : UInt32 × Twister :=
  match t with
  | ⟨words, used⟩ =>
    if used < size then (temper (wordAt words used), ⟨words, used + 1⟩)
    else
      let words := renew words
      (temper (wordAt words 0), ⟨words, 1⟩)

end Twister
end Intcode
