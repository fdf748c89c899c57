/-
Gimbal/Keystream.lean

Reproducible random numbers: the keystream of a twelve-round ChaCha cipher whose
key is spread from a 64-bit seed by a permuted congruential generator.

The stream is a function of the key and a position, `Keystream.wordAt`, so that
reading it needs no hidden state.  Eight 64-bit words come from a block.

`AngleSource G R` is all that a search wants of randomness: an angle, and the
source that gives the next one.
-/
import Gimbal.Scalar

namespace Gimbal

/-- A source of angles in one turn. -/
class AngleSource (G R : Type) where
  draw : G → R × G

namespace ChaCha

/-- The sixteen words of a block. -/
abbrev Block := Vector UInt32 16

/-- Rotates a word to the left. -/
def rotateLeft (x : UInt32) (n : UInt32) : UInt32 :=
  (x <<< n) ||| (x >>> (32 - n))

/-- Mixes four words. -/
def quarterRound (a b c d : Fin 16) (s : Block) : Block :=
  let s := s.set a (s[a] + s[b])
  let s := s.set d (rotateLeft (s[d] ^^^ s[a]) 16)
  let s := s.set c (s[c] + s[d])
  let s := s.set b (rotateLeft (s[b] ^^^ s[c]) 12)
  let s := s.set a (s[a] + s[b])
  let s := s.set d (rotateLeft (s[d] ^^^ s[a]) 8)
  let s := s.set c (s[c] + s[d])
  s.set b (rotateLeft (s[b] ^^^ s[c]) 7)

/-- Mixes the columns, then the diagonals. -/
def doubleRound (s : Block) : Block :=
  let s := quarterRound 0 4 8 12 s
  let s := quarterRound 1 5 9 13 s
  let s := quarterRound 2 6 10 14 s
  let s := quarterRound 3 7 11 15 s
  let s := quarterRound 0 5 10 15 s
  let s := quarterRound 1 6 11 12 s
  let s := quarterRound 2 7 8 13 s
  quarterRound 3 4 9 14 s

/-- The block before mixing: constants, key, and the number of the block. -/
def input (key : Vector UInt32 8) (block : UInt64) : Block :=
  #v[0x61707865, 0x3320646e, 0x79622d32, 0x6b206574,
    key[0], key[1], key[2], key[3], key[4], key[5], key[6], key[7],
    block.toUInt32, (block >>> 32).toUInt32, 0, 0]

/-- The block with the given number: six double rounds, added to the input. -/
def block (key : Vector UInt32 8) (number : UInt64) : Block :=
  let start := input key number
  let mixed := Nat.fold 6 (fun _ _ s => doubleRound s) start
  Vector.zipWith (· + ·) mixed start

end ChaCha

/-- A keystream and the position of the next 64-bit word. -/
structure Keystream where
  key : Vector UInt32 8
  position : Nat

namespace Keystream

/-- One step of the generator that spreads a seed. -/
def spreadStep (state : UInt64) : UInt64 :=
  state * 6364136223846793005 + 11634580027462260723

/-- The word that a state of that generator shows. -/
def spreadWord (state : UInt64) : UInt32 :=
  let x := (((state >>> 18) ^^^ state) >>> 27).toUInt32
  let r := (state >>> 59).toUInt32
  (x >>> r) ||| (x <<< ((32 - r) % 32))

/-- The state after some steps. -/
def spreadState (seed : UInt64) (steps : Nat) : UInt64 :=
  Nat.fold steps (fun _ _ s => spreadStep s) seed

/-- The keystream of a seed. -/
def ofSeed (seed : UInt64) : Keystream :=
  ⟨Vector.ofFn fun i => spreadWord (spreadState seed (i + 1)), 0⟩

/-- The 64-bit word at a position, low half first. -/
def wordAt (key : Vector UInt32 8) (position : Nat) : UInt64 :=
  let b := ChaCha.block key (position / 8).toUInt64
  let k := 2 * (position % 8)
  let word (i : Nat) : UInt64 := if h : i < 16 then b[i].toUInt64 else 0
  word k ||| (word (k + 1) <<< 32)

/-- The next word. -/
def next (s : Keystream) : UInt64 × Keystream :=
  (wordAt s.key s.position, { s with position := s.position + 1 })

/-- The angle that a word stands for: its upper 52 bits as a fraction of a
turn. -/
def angleOfWord {R : Type} [Scalar R] (w : UInt64) : R :=
  ((w >>> 12).toNat : R) / ((0x10000000000000 : Nat) : R) * tau

instance {R : Type} [Scalar R] : AngleSource Keystream R where
  draw s := let (w, s) := s.next; (angleOfWord w, s)

end Keystream

/-- Several angles in order. -/
def drawMany {G R : Type} [AngleSource G R] : Nat → G → List R × G
  | 0, g => ([], g)
  | n + 1, g =>
    let (x, g) := AngleSource.draw g
    let (xs, g) := drawMany n g
    (x :: xs, g)

end Gimbal
