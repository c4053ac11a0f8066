import Neighbors.Metric

/-!
# Random vectors

A stream of 32-bit words from a seed: the ChaCha block function with twelve rounds in counter
mode, its key grown from the seed by a linear congruence with a permuted output. A word gives a
number from `0` to below `1` by its upper 24 bits.
-/

namespace Neighbors.Random

def rotateLeft (x n : UInt32) : UInt32 := (x <<< n) ||| (x >>> (32 - n))

def rotateRight (x n : UInt32) : UInt32 := if n = 0 then x else (x >>> n) ||| (x <<< (32 - n))

/-- Eight key words from a 64-bit seed. -/
def key (seed : UInt64) : List UInt32 := go 8 seed
where
  go : Nat → UInt64 → List UInt32
    | 0, _ => []
    | n + 1, state =>
      let state := state * 6364136223846793005 + 11634580027462260723
      let x := (((state >>> 18) ^^^ state) >>> 27).toUInt32
      rotateRight x (state >>> 59).toUInt32 :: go n state

abbrev Block := Vector UInt32 16

def quarterRound (a b c d : Fin 16) (s : Block) : Block :=
  let s := s.set a (s[a] + s[b])
  let s := s.set d (rotateLeft (s[d] ^^^ s[a]) 16)
  let s := s.set c (s[c] + s[d])
  let s := s.set b (rotateLeft (s[b] ^^^ s[c]) 12)
  let s := s.set a (s[a] + s[b])
  let s := s.set d (rotateLeft (s[d] ^^^ s[a]) 8)
  let s := s.set c (s[c] + s[d])
  s.set b (rotateLeft (s[b] ^^^ s[c]) 7)

/-- A round on the columns and one on the diagonals. -/
def doubleRound (s : Block) : Block :=
  let columns := s |> quarterRound 0 4 8 12 |> quarterRound 1 5 9 13 |> quarterRound 2 6 10 14
    |> quarterRound 3 7 11 15
  columns |> quarterRound 0 5 10 15 |> quarterRound 1 6 11 12 |> quarterRound 2 7 8 13
    |> quarterRound 3 4 9 14

/-- The block before the rounds: four constants, the key, a 64-bit counter and two zeros. -/
def initial (key : List UInt32) (counter : Nat) : Block :=
  Vector.ofFn fun i =>
    ([0x61707865, 0x3320646e, 0x79622d32, 0x6b206574] ++ key ++
      [UInt32.ofNat counter, UInt32.ofNat (counter / 0x100000000), 0, 0]).getD i 0

def block (key : List UInt32) (counter : Nat) : List UInt32 :=
  let start := initial key counter
  (Vector.zipWith (· + ·) (Nat.repeat doubleRound 6 start) start).toList

def words (seed : UInt64) (n : Nat) : List UInt32 :=
  let k := key seed
  ((List.range ((n + 15) / 16)).flatMap (block k)).take n

/-- The number of a word: its upper 24 bits over `2 ^ 24`. -/
def toUnit (w : UInt32) : Binary32 :=
  .ofUnits false ((w >>> 8).toNat * Binary32.unitsInOne) 0x1000000

def numbers (seed : UInt64) (n : Nat) : Floats := ((words seed n).map toUnit).toArray

/-- Moves the first component of row `i` up by `i / 1000`. -/
def spread (d : Nat) (x : Floats) : Floats :=
  x.mapIdx fun i v => if i % d = 0 then v + .ofNat (i / d) / .ofNat 1000 else v

end Neighbors.Random
