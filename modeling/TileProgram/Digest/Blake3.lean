/-!
# BLAKE3 digests

The 32-byte unkeyed BLAKE3 hash of a byte sequence.  The input is cut into
chunks of 1024 bytes, each chunk into blocks of 64 bytes; the chunks are the
leaves of a binary tree whose left subtrees are complete.
-/

namespace TileProgram
namespace Digest

abbrev Words8 := Vector UInt32 8

abbrev Words16 := Vector UInt32 16

def initial : Words8 :=
  #v[0x6a09e667, 0xbb67ae85, 0x3c6ef372, 0xa54ff53a, 0x510e527f, 0x9b05688c,
    0x1f83d9ab, 0x5be0cd19]

def rotateRight (x : UInt32) (n : UInt32) : UInt32 :=
  (x >>> n) ||| (x <<< (32 - n))

def mix (v : Words16) (a b c d : Fin 16) (x y : UInt32) : Words16 :=
  let va := v[a] + v[b] + x
  let vd := rotateRight (v[d] ^^^ va) 16
  let vc := v[c] + vd
  let vb := rotateRight (v[b] ^^^ vc) 12
  let va := va + vb + y
  let vd := rotateRight (vd ^^^ va) 8
  let vc := vc + vd
  let vb := rotateRight (vb ^^^ vc) 7
  (((v.set a va).set b vb).set c vc).set d vd

def round (v m : Words16) : Words16 :=
  let v := mix v 0 4 8 12 m[0] m[1]
  let v := mix v 1 5 9 13 m[2] m[3]
  let v := mix v 2 6 10 14 m[4] m[5]
  let v := mix v 3 7 11 15 m[6] m[7]
  let v := mix v 0 5 10 15 m[8] m[9]
  let v := mix v 1 6 11 12 m[10] m[11]
  let v := mix v 2 7 8 13 m[12] m[13]
  mix v 3 4 9 14 m[14] m[15]

def permute (m : Words16) : Words16 :=
  #v[m[2], m[6], m[3], m[10], m[7], m[0], m[4], m[13], m[1], m[11], m[12], m[5],
    m[9], m[14], m[15], m[8]]

def rounds : Nat → Words16 → Words16 → Words16
  | 0, v, _ => v
  | n + 1, v, m => rounds n (round v m) (permute m)

structure Flags where
  chunkStart : Bool
  chunkEnd : Bool
  parent : Bool
  root : Bool

def Flags.word (f : Flags) : UInt32 :=
  (if f.chunkStart then 1 else 0) ||| (if f.chunkEnd then 2 else 0)
    ||| (if f.parent then 4 else 0) ||| (if f.root then 8 else 0)

/-- A block on which one last compression is pending. -/
structure Pending where
  chain : Words8
  block : Words16
  counter : UInt64
  length : UInt32
  flags : Flags

namespace Pending

def compress (p : Pending) : Words8 :=
  let h := p.chain
  let v : Words16 :=
    #v[h[0], h[1], h[2], h[3], h[4], h[5], h[6], h[7], initial[0], initial[1],
      initial[2], initial[3], p.counter.toUInt32, (p.counter >>> 32).toUInt32,
      p.length, p.flags.word]
  let v := rounds 7 v p.block
  #v[v[0] ^^^ v[8], v[1] ^^^ v[9], v[2] ^^^ v[10], v[3] ^^^ v[11],
    v[4] ^^^ v[12], v[5] ^^^ v[13], v[6] ^^^ v[14], v[7] ^^^ v[15]]

end Pending

def wordAt (bytes : List UInt8) (i : Nat) : UInt32 :=
  let byte (j : Nat) : UInt32 := (bytes[4 * i + j]?.getD 0).toUInt32
  byte 0 ||| (byte 1 <<< 8) ||| (byte 2 <<< 16) ||| (byte 3 <<< 24)

def blockWords (bytes : List UInt8) : Words16 :=
  Vector.ofFn fun i : Fin 16 => wordAt bytes i

def chunkBlocks
    (counter : UInt64) (first : Bool) (chain : Words8) (bytes : List UInt8) :
    Nat → Pending
  | 0 =>
      ⟨chain, blockWords bytes, counter, bytes.length.toUInt32,
        ⟨first, true, false, false⟩⟩
  | left + 1 =>
      if bytes.length ≤ 64 then
        ⟨chain, blockWords bytes, counter, bytes.length.toUInt32,
          ⟨first, true, false, false⟩⟩
      else
        let block : Pending :=
          ⟨chain, blockWords (bytes.take 64), counter, 64,
            ⟨first, false, false, false⟩⟩
        chunkBlocks counter false block.compress (bytes.drop 64) left

def chunk (counter : Nat) (bytes : List UInt8) : Pending :=
  chunkBlocks counter.toUInt64 true initial bytes 16

def parent (left right : Words8) : Pending :=
  let block : Words16 :=
    #v[left[0], left[1], left[2], left[3], left[4], left[5], left[6], left[7],
      right[0],
      right[1], right[2], right[3], right[4], right[5], right[6], right[7]]
  ⟨initial, block, 0, 64, ⟨false, false, true, false⟩⟩

/-- Largest power of two below `n`, from `p` on, within `fuel` doublings. -/
def leftChunks (n p : Nat) : Nat → Nat
  | 0 => p
  | fuel + 1 => if 2 * p < n then leftChunks n (2 * p) fuel else p

/-- Tree over the chunks from number `counter` on; `levels` bounds its
height. -/
def tree (counter : Nat) (bytes : List UInt8) : Nat → Pending
  | 0 => chunk counter bytes
  | levels + 1 =>
      if bytes.length ≤ 1024 then chunk counter bytes
      else
        let chunks := (bytes.length + 1023) / 1024
        let left := leftChunks chunks 1 64
        let head := tree counter (bytes.take (1024 * left)) levels
        let tail := tree (counter + left) (bytes.drop (1024 * left)) levels
        parent head.compress tail.compress

def hexByte (n : Nat) : String :=
  let digits := "0123456789abcdef".toList
  String.ofList [digits[n / 16]?.getD '0', digits[n % 16]?.getD '0']

def hexWord (w : UInt32) : String :=
  String.join
    ((List.range 4).map fun i => hexByte ((w.toNat >>> (8 * i)) % 256))

def blake3 (bytes : List UInt8) : String :=
  let top := tree 0 bytes 64
  let root := { top with flags := { top.flags with root := true } }
  String.join (root.compress.toList.map hexWord)

def ofText (text : String) : String :=
  blake3 text.toUTF8.toList

end Digest
end TileProgram
