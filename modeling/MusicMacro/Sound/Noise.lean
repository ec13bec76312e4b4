/-!
# Noise

The random numbers of the noise oscillator are the words of a ChaCha key stream of twelve rounds.
The key is fixed, so that the same music always sounds the same.

* `Noise.draw` — takes the next word of the stream.
-/

namespace MusicMacro

namespace ChaCha

/-- The sixteen words of a block. -/
abbrev Block := Vector UInt32 16

/-- Rotates the bits of a word to the left. -/
def rotate (w n : UInt32) : UInt32 := (w <<< n) ||| (w >>> (32 - n))

/-- Mixes four words of a block. -/
def quarterRound (v : Block) (a b c d : Fin 16) : Block :=
  let v := v.set a (v[a] + v[b])
  let v := v.set d (rotate (v[d] ^^^ v[a]) 16)
  let v := v.set c (v[c] + v[d])
  let v := v.set b (rotate (v[b] ^^^ v[c]) 12)
  let v := v.set a (v[a] + v[b])
  let v := v.set d (rotate (v[d] ^^^ v[a]) 8)
  let v := v.set c (v[c] + v[d])
  v.set b (rotate (v[b] ^^^ v[c]) 7)

/-- Mixes the columns and then the diagonals. -/
def doubleRound (v : Block) : Block :=
  let v := quarterRound v 0 4 8 12
  let v := quarterRound v 1 5 9 13
  let v := quarterRound v 2 6 10 14
  let v := quarterRound v 3 7 11 15
  let v := quarterRound v 0 5 10 15
  let v := quarterRound v 1 6 11 12
  let v := quarterRound v 2 7 8 13
  quarterRound v 3 4 9 14

/-- The words of the block with a number, under a key. -/
def block (key : Vector UInt32 8) (number : UInt64) : List UInt32 :=
  let v : Block := #v[0x61707865, 0x3320646e, 0x79622d32, 0x6b206574,
    key[0], key[1], key[2], key[3], key[4], key[5], key[6], key[7],
    number.toUInt32, (number >>> 32).toUInt32, 0, 0]
  let mixed := (List.range 6).foldl (fun v _ => doubleRound v) v
  (v.zipWith (· + ·) mixed).toList

end ChaCha

namespace Noise

/-- A step of the generator that spreads a seed over the key. -/
def advanceSeed (s : UInt64) : UInt64 := s * 6364136223846793005 + 11634580027462260723

/-- The word of the key that belongs to a state of that generator. -/
def keyWord (s : UInt64) : UInt32 :=
  let word : UInt32 := (((s >>> 18) ^^^ s) >>> 27).toUInt32
  let right : UInt32 := (s >>> 59).toUInt32
  ChaCha.rotate word (32 - right)

/-- The state of that generator after a number of steps from seed zero. -/
def seedState : Nat → UInt64
  | 0 => 0
  | n + 1 => advanceSeed (seedState n)

/-- The key that belongs to seed zero. -/
def key : Vector UInt32 8 :=
  Vector.ofFn fun i => keyWord (seedState (i.val + 1))

end Noise

/-- A place in the key stream: the number of the next block, and the words before it. -/
structure Noise where
  next : UInt64
  ready : List UInt32
deriving Repr

namespace Noise

/-- The start of the stream. -/
def start : Noise := ⟨0, []⟩

/-- Takes the next word of the stream. -/
def draw (n : Noise) : UInt32 × Noise :=
  match n.ready with
  | w :: rest => (w, { n with ready := rest })
  | [] =>
    let words := ChaCha.block key n.next
    (words.headD 0, ⟨n.next + 1, words.tail⟩)

end Noise

end MusicMacro
