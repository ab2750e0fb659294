import TileProgram.Fault

/-!
# Seeded random words

A stream of random words from a 64-bit seed: ChaCha with twelve rounds, its key
filled by a linear congruential generator with permuted output.
-/

namespace TileProgram
namespace Random

structure Lanes where
  first : UInt32
  second : UInt32
  third : UInt32
  fourth : UInt32

namespace Lanes

@[inline]
def zip (f : UInt32 → UInt32 → UInt32) (x y : Lanes) : Lanes :=
  ⟨f x.first y.first, f x.second y.second, f x.third y.third,
    f x.fourth y.fourth⟩

@[inline]
def add (x y : Lanes) : Lanes := zip (· + ·) x y

@[inline]
def xorRotate (n : UInt32) (x y : Lanes) : Lanes :=
  zip (fun x y => ((x ^^^ y) <<< n) ||| ((x ^^^ y) >>> (32 - n))) x y

def shift (x : Lanes) : Lanes := ⟨x.second, x.third, x.fourth, x.first⟩

def toList (x : Lanes) : List UInt32 := [x.first, x.second, x.third, x.fourth]

end Lanes

structure Block where
  a : Lanes
  b : Lanes
  c : Lanes
  d : Lanes

namespace Block

def columns (v : Block) : Block :=
  let a := v.a.add v.b
  let d := v.d.xorRotate 16 a
  let c := v.c.add d
  let b := v.b.xorRotate 12 c
  let a := a.add b
  let d := d.xorRotate 8 a
  let c := c.add d
  let b := b.xorRotate 7 c
  ⟨a, b, c, d⟩

def doubleRound (v : Block) : Block :=
  let v := v.columns
  let w := columns ⟨v.a, v.b.shift, v.c.shift.shift, v.d.shift.shift.shift⟩
  ⟨w.a, w.b.shift.shift.shift, w.c.shift.shift, w.d.shift⟩

def add (v w : Block) : Block :=
  ⟨v.a.add w.a, v.b.add w.b, v.c.add w.c, v.d.add w.d⟩

def toList (v : Block) : List UInt32 :=
  v.a.toList ++ v.b.toList ++ v.c.toList ++ v.d.toList

end Block

def keyWords : Nat → UInt64 → List UInt32
  | 0, _ => []
  | n + 1, state =>
      let state := state * 6364136223846793005 + 11634580027462260723
      let x := (((state >>> 18) ^^^ state) >>> 27).toUInt32
      let turn := (state >>> 59).toUInt32
      let word := (x >>> turn) ||| (x <<< ((32 - turn) &&& 31))
      word :: keyWords n state

def initialBlock (key : List UInt32) (counter : UInt64) : Block :=
  let word (i : Nat) : UInt32 := key[i]?.getD 0
  { a := ⟨0x61707865, 0x3320646e, 0x79622d32, 0x6b206574⟩
    b := ⟨word 0, word 1, word 2, word 3⟩
    c := ⟨word 4, word 5, word 6, word 7⟩
    d := ⟨counter.toUInt32, (counter >>> 32).toUInt32, 0, 0⟩ }

def block (key : List UInt32) (counter : UInt64) : List UInt32 :=
  let start := initialBlock key counter
  let mixed := (List.range 6).foldl (fun v _ => v.doubleRound) start
  (mixed.add start).toList

/-- A stream of words: the key, the next block and the words left of this
one. -/
structure Stream where
  key : List UInt32
  counter : UInt64
  buffer : List UInt32

namespace Stream

def ofSeed (seed : Nat) : Stream := ⟨keyWords 8 seed.toUInt64, 0, []⟩

def nextWord (s : Stream) : UInt32 × Stream :=
  match s.buffer with
  | word :: rest => (word, { s with buffer := rest })
  | [] =>
      match block s.key s.counter with
      | word :: rest => (word, ⟨s.key, s.counter + 1, rest⟩)
      | [] => (0, s)

def next (s : Stream) : UInt64 × Stream :=
  let (low, s) := s.nextWord
  let (high, s) := s.nextWord
  ((high.toUInt64 <<< 32) ||| low.toUInt64, s)

/-- What five times a word carries past 64 bits. -/
def carryOfFive (x : UInt64) : UInt64 :=
  let low : UInt64 := (x &&& 0xffffffff) * 5
  let high : UInt64 := (x >>> 32) * 5
  (high + (low >>> 32)) >>> 32

/-- A number below five, without bias.  A draw past the last full multiple is
thrown away; a generator that never leaves that zone is cut off. -/
def belowFive (s : Stream) : Nat → UInt64 × Stream
  | 0 => (0, s)
  | tries + 1 =>
      let (draw, s) := s.next
      if draw * 5 ≤ 0x9fffffffffffffff then (carryOfFive draw, s)
      else s.belowFive tries

/-- A double in `[0, 1)`, from the upper 52 bits of a draw. -/
def unit (s : Stream) : Float × Stream :=
  let (draw, s) := s.next
  let bits : UInt64 := (draw >>> 12) ||| 0x3ff0000000000000
  (Float.ofBits bits - 1, s)

end Stream

end Random
end TileProgram
