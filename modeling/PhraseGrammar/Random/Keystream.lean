import PhraseGrammar.Random.Source

set_option autoImplicit false

/-! # The ChaCha12 keystream

The random source of an engine: the words of the ChaCha stream cipher with twelve rounds, a key
of eight words, a 64-bit block counter that starts at zero, and a nonce of zeros. The words of
the blocks follow one another without a gap.

A seed of 64 bits is spread over the key by eight steps of a linear congruential generator, whose
states are permuted into words (`Keystream.keyOfSeed`).
-/

namespace PhraseGrammar

/-- Where a keystream stands: its key, the number of the next block, and the words of the
current block that are still to come. -/
structure Keystream where
  key : Vector UInt32 8
  counter : UInt64
  pending : List UInt32

namespace Keystream

/-! ## The block function -/

/-- A word rotated to the left by `n` bits, for `0 < n < 32`. -/
def rotateLeft (w : UInt32) (n : UInt32) : UInt32 := (w <<< n) ||| (w >>> (32 - n))

/-- The sixteen words of a block. -/
abbrev Block := Vector UInt32 16

/-- Adds word `b` to word `a`, mixes the sum into word `d`, and rotates that by `n`. -/
def mix (a b d : Fin 16) (n : UInt32) (v : Block) : Block :=
  let sum := v[a] + v[b]
  (v.set a sum).set d (rotateLeft (v[d] ^^^ sum) n)

/-- One quarter round on four words of a block. -/
def quarterRound (a b c d : Fin 16) (v : Block) : Block :=
  mix c d b 7 (mix a b d 8 (mix c d b 12 (mix a b d 16 v)))

/-- A round on the columns and a round on the diagonals. -/
def doubleRound (v : Block) : Block :=
  let v := quarterRound 0 4 8 12 v
  let v := quarterRound 1 5 9 13 v
  let v := quarterRound 2 6 10 14 v
  let v := quarterRound 3 7 11 15 v
  let v := quarterRound 0 5 10 15 v
  let v := quarterRound 1 6 11 12 v
  let v := quarterRound 2 7 8 13 v
  quarterRound 3 4 9 14 v

/-- The block before its rounds: four constants, the key, the counter and the nonce. -/
def initialBlock (key : Vector UInt32 8) (counter : UInt64) : Block :=
  #v[0x61707865, 0x3320646e, 0x79622d32, 0x6b206574,
     key[0], key[1], key[2], key[3], key[4], key[5], key[6], key[7],
     counter.toUInt32, (counter >>> 32).toUInt32, 0, 0]

/-- The block with the given number. -/
def block (key : Vector UInt32 8) (counter : UInt64) : Block :=
  let start := initialBlock key counter
  (Nat.repeat doubleRound 6 start).zipWith (· + ·) start

/-! ## The stream -/

/-- The next word of the stream. -/
def nextWord (s : Keystream) : UInt32 × Keystream :=
  match s.pending with
  | word :: rest => (word, { s with pending := rest })
  | [] =>
    let words := block s.key s.counter
    (words[0], { s with counter := s.counter + 1, pending := words.toList.tail })

instance : WordSource Keystream where
  next := nextWord

/-- The stream of a key, from its start. -/
def ofKey (key : Vector UInt32 8) : Keystream := { key, counter := 0, pending := [] }

/-! ## Seeds -/

/-- One step of the generator that spreads a seed. -/
def spread (s : UInt64) : UInt64 := s * 6364136223846793005 + 11634580027462260723

/-- The word that a state of the generator yields: its high bits, rotated to the right by the
number that the highest five bits form. -/
def permuted (s : UInt64) : UInt32 :=
  let word := (((s >>> 18) ^^^ s) >>> 27).toUInt32
  let turn := (s >>> 59).toUInt32
  (word >>> turn) ||| (word <<< ((32 - turn) &&& 31))

/-- The key of a seed. -/
def keyOfSeed (seed : UInt64) : Vector UInt32 8 :=
  Vector.ofFn fun i => permuted (Nat.repeat spread (i.val + 1) seed)

/-- The stream of a seed, from its start. -/
def ofSeed (seed : UInt64) : Keystream := ofKey (keyOfSeed seed)

end Keystream

end PhraseGrammar
