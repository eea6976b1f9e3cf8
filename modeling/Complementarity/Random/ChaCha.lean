import Complementarity.Random.Uniform

/-!
# The ChaCha stream with eight rounds

A key of eight words determines a stream of blocks of sixteen words.  A block is computed from a
state of sixteen words (four constants, the key, a 64-bit block number and a 64-bit nonce, which
is zero): eight rounds of quarter rounds, alternately on the columns and on the diagonals of the
state, and then an addition of the state itself.

A 64-bit word of the source takes two words of the stream, the low half first.
-/

namespace Complementarity.Random

/-- The number with its bits rotated to the left. -/
def rotateLeft (x : UInt32) (k : UInt32) : UInt32 := (x <<< k) ||| (x >>> (32 - k))

/-- Sixteen words. -/
abbrev Block := Vector UInt32 16

namespace Block

/-- The quarter round on the words at four positions. -/
def quarterRound (b : Block) (i j k l : Fin 16) : Block :=
  let a := b[i] + b[j]
  let d := rotateLeft (b[l] ^^^ a) 16
  let c := b[k] + d
  let b' := rotateLeft (b[j] ^^^ c) 12
  let a' := a + b'
  let d' := rotateLeft (d ^^^ a') 8
  let c' := c + d'
  let b'' := rotateLeft (b' ^^^ c') 7
  (((b.set i a').set j b'').set k c').set l d'

/-- A round on the four columns and a round on the four diagonals. -/
def doubleRound (b : Block) : Block :=
  [(0, 4, 8, 12), (1, 5, 9, 13), (2, 6, 10, 14), (3, 7, 11, 15),
    (0, 5, 10, 15), (1, 6, 11, 12), (2, 7, 8, 13), (3, 4, 9, 14)].foldl
    (fun b (i, j, k, l) => b.quarterRound i j k l) b

/-- The words with which every state begins. -/
def constants : Vector UInt32 4 := #v[0x61707865, 0x3320646e, 0x79622d32, 0x6b206574]

/-- The state from which block number `counter` is computed. -/
def start (key : Vector UInt32 8) (counter : UInt64) : Block :=
  constants ++ key ++ #v[counter.toUInt32, (counter >>> 32).toUInt32, 0, 0]

/-- Block number `counter` of the stream. -/
def ofKey (key : Vector UInt32 8) (counter : UInt64) : Block :=
  let initial := start key counter
  let mixed := initial.doubleRound.doubleRound.doubleRound.doubleRound
  Vector.zipWith (· + ·) mixed initial

/-- The words of a block in pairs, the first word of a pair as the low half. -/
def pairs (b : Block) : Vector UInt64 8 :=
  Vector.ofFn fun i =>
    b[2 * i.val].toUInt64 ||| (b[2 * i.val + 1].toUInt64 <<< 32)

end Block

/-- A place in the stream of a key. -/
structure ChaCha where
  key : Vector UInt32 8
  /-- The number of the next block. -/
  counter : UInt64
  /-- What is left of the block before it. -/
  pending : List UInt64

namespace ChaCha

/-- One step of the generator that stretches a seed: multiply and add, with a multiplier and an
increment of 64 bits. -/
def stretch (state : UInt64) : UInt64 := state * 6364136223846793005 + 11634580027462260723

/-- The key word of a state: its high bits, folded and then rotated to the right. -/
def keyWord (state : UInt64) : UInt32 :=
  let folded := (((state >>> 18) ^^^ state) >>> 27).toUInt32
  let distance := (state >>> 59).toUInt32
  (folded >>> distance) ||| (folded <<< ((32 - distance) % 32))

/-- The start of the stream whose key is stretched from a seed. -/
def ofSeed (seed : UInt64) : ChaCha where
  key := Vector.ofFn fun i => keyWord (Nat.repeat stretch (i.val + 1) seed)
  counter := 0
  pending := []

/-- The next word of the stream. -/
def next (s : ChaCha) : UInt64 × ChaCha :=
  match s.pending with
  | word :: rest => (word, { s with pending := rest })
  | [] =>
    let block := (Block.ofKey s.key s.counter).pairs
    (block[0], { s with counter := s.counter + 1, pending := block.toList.tail })

instance : Source ChaCha where
  next := next

end ChaCha

end Complementarity.Random
