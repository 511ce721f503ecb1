/-!
# ChaCha

The ChaCha key stream with eight rounds and stream number zero, read as 64-bit
words, and the expansion of a 64-bit seed into its key.
-/

namespace Trellis.ChaCha

abbrev Key : Type := Vector UInt32 8

abbrev Block : Type := Vector UInt32 16

def rotateLeft (x n : UInt32) : UInt32 := (x <<< n) ||| (x >>> (32 - n))

def quarterRound (a b c d : Fin 16) (s : Block) : Block :=
  let s := s.set a (s[a] + s[b])
  let s := s.set d (rotateLeft (s[d] ^^^ s[a]) 16)
  let s := s.set c (s[c] + s[d])
  let s := s.set b (rotateLeft (s[b] ^^^ s[c]) 12)
  let s := s.set a (s[a] + s[b])
  let s := s.set d (rotateLeft (s[d] ^^^ s[a]) 8)
  let s := s.set c (s[c] + s[d])
  s.set b (rotateLeft (s[b] ^^^ s[c]) 7)

/-- A round down the columns and a round along the diagonals. -/
def doubleRound (s : Block) : Block :=
  let s := quarterRound 0 4 8 12 s
  let s := quarterRound 1 5 9 13 s
  let s := quarterRound 2 6 10 14 s
  let s := quarterRound 3 7 11 15 s
  let s := quarterRound 0 5 10 15 s
  let s := quarterRound 1 6 11 12 s
  let s := quarterRound 2 7 8 13 s
  quarterRound 3 4 9 14 s

/-- The constants, the key, the block number and the stream number. -/
def initialBlock (key : Key) (number : UInt64) : Block :=
  #v[0x61707865, 0x3320646e, 0x79622d32, 0x6b206574,
    key[0], key[1], key[2], key[3], key[4], key[5], key[6], key[7],
    number.toUInt32, (number >>> 32).toUInt32, 0, 0]

/-- The block of the key stream with a number: four double rounds over the initial block,
which is added at the end. -/
def block (key : Key) (number : UInt64) : Block :=
  let s := initialBlock key number
  s.zipWith (· + ·) (doubleRound (doubleRound (doubleRound (doubleRound s))))

/-- The word at a position of the key stream. Each block holds eight; the lower
half of a word comes first. -/
def word (key : Key) (position : Nat) : UInt64 :=
  let b := block key (position / 8).toUInt64
  let low := b[2 * (position % 8)]
  let high := b[2 * (position % 8) + 1]
  low.toUInt64 ||| (high.toUInt64 <<< 32)

/-- One step of the generator that expands a seed. -/
def seedStep (state : UInt64) : UInt64 :=
  state * 6364136223846793005 + 11634580027462260723

/-- The key word of a generator state: its upper bits mixed and rotated. -/
def seedWord (state : UInt64) : UInt32 :=
  let mixed := (((state >>> 18) ^^^ state) >>> 27).toUInt32
  let amount := (state >>> 59).toUInt32
  (mixed >>> amount) ||| (mixed <<< (32 - amount))

/-- The states after `n + 1` steps from a seed. -/
def seedState (seed : UInt64) : Nat → UInt64
  | 0 => seedStep seed
  | n + 1 => seedStep (seedState seed n)

def keyOfSeed (seed : UInt64) : Key := .ofFn fun i => seedWord (seedState seed i)

/-- The stream of words that a seed stands for. -/
def stream (seed : UInt64) : Nat → UInt64 := word (keyOfSeed seed)

end Trellis.ChaCha
