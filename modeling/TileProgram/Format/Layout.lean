import TileProgram.Access.Pattern
import TileProgram.Format.Decoder

/-!
# Layouts in files
-/

namespace TileProgram

open Json (nat nats tagged)

def ElementType.toJson (t : ElementType) : Json := .string t.name

def ElementType.decode : Decoder ElementType := Decoder.name ElementType.ofName?

def Scope.toJson (s : Scope) : Json := .string s.name

def Scope.decode : Decoder Scope := Decoder.name Scope.ofName?

def WarpGrid.toJson (g : WarpGrid) : Json := nats [g.rows, g.cols]

def WarpGrid.decode : Decoder WarpGrid := fun form depth j => do
  let (rows, cols) ← Decoder.pair Decoder.word32 Decoder.word32 form depth j
  return ⟨rows, cols⟩

namespace Swizzle

def toJson (s : Swizzle) : Json :=
  .object [("bits", nat s.bits), ("base", nat s.base), ("shift", nat s.shift)]

def decode : Decoder Swizzle := fun form depth j => do
  let f ← Fields.ofJson? ["bits", "base", "shift"] form depth j
  return ⟨← f.required "bits" Decoder.word32,
    ← f.required "base" Decoder.word32, ← f.required "shift" Decoder.word32⟩

end Swizzle

namespace Atom

def toJson : Atom → Json
  | mmaA pack => tagged "mma_a" (.object [("pack", nat pack)])
  | mmaB pack => tagged "mma_b" (.object [("pack", nat pack)])
  | mmaC => .string "mma_c"
  | mfmaA m k => tagged "mfma_a" (.object [("m", nat m), ("k", nat k)])
  | mfmaB n k => tagged "mfma_b" (.object [("n", nat n), ("k", nat k)])
  | mfmaC m n => tagged "mfma_c" (.object [("m", nat m), ("n", nat n)])

def decode : Decoder Atom := fun form depth j => do
  let v ← Variant.ofJson? form depth j
  match v.tag with
  | "mma_a" =>
      let f ← v.record? ["pack"]
      return mmaA (← f.required "pack" Decoder.word32)
  | "mma_b" =>
      let f ← v.record? ["pack"]
      return mmaB (← f.required "pack" Decoder.word32)
  | "mma_c" => v.unit? mmaC
  | "mfma_a" =>
      let f ← v.record? ["m", "k"]
      return mfmaA (← f.required "m" Decoder.word32)
        (← f.required "k" Decoder.word32)
  | "mfma_b" =>
      let f ← v.record? ["n", "k"]
      return mfmaB (← f.required "n" Decoder.word32)
        (← f.required "k" Decoder.word32)
  | "mfma_c" =>
      let f ← v.record? ["m", "n"]
      return mfmaC (← f.required "m" Decoder.word32)
        (← f.required "n" Decoder.word32)
  | _ => none

end Atom

namespace RegisterLayout

def toJson : RegisterLayout → Json
  | operand atom warps replicas transposed =>
      tagged "operand" (.object [("atom", atom.toJson), ("warps", warps.toJson),
        ("replicas", nat replicas), ("transposed", .bool transposed)])
  | striped threads vector =>
      tagged "striped"
        (.object [("threads", nat threads), ("vector", nat vector)])

def decode : Decoder RegisterLayout := fun form depth j => do
  let v ← Variant.ofJson? form depth j
  match v.tag with
  | "operand" =>
      let f ← v.record? ["atom", "warps", "replicas", "transposed"]
      return operand (← f.required "atom" Atom.decode) (← f.required "warps"
        WarpGrid.decode) (← f.required "replicas" Decoder.word32)
        (← f.required "transposed" Decoder.bool)
  | "striped" =>
      let f ← v.record? ["threads", "vector"]
      return striped (← f.required "threads" Decoder.word32)
        (← f.required "vector" Decoder.word32)
  | _ => none

end RegisterLayout

namespace LayoutKind

def toJson : LayoutKind → Json
  | rowMajor => .string "row_major"
  | padded pad => tagged "padded" (.object [("pad", nat pad)])
  | swizzled s => tagged "swizzled" s.toJson
  | fragment f => tagged "fragment" f.toJson

def decode : Decoder LayoutKind := fun form depth j => do
  let v ← Variant.ofJson? form depth j
  match v.tag with
  | "row_major" => v.unit? rowMajor
  | "padded" =>
      let f ← v.record? ["pad"]
      return padded (← f.required "pad" Decoder.word32)
  | "swizzled" => return swizzled (← v.content? Swizzle.decode)
  | "fragment" => return fragment (← v.content? RegisterLayout.decode)
  | _ => none

end LayoutKind

namespace Layout

def toJson (l : Layout) : Json :=
  .object [("shape", nats l.shape), ("kind", l.kind.toJson)]

def decode : Decoder Layout := fun form depth j => do
  let f ← Fields.ofJson? ["shape", "kind"] form depth j
  return ⟨← f.required "shape" (Decoder.list Decoder.word32),
    ← f.required "kind" LayoutKind.decode⟩

end Layout

namespace AccessPattern

def toJson : AccessPattern → Json
  | rowMajor vector => tagged "row_major" (.object [("vector", nat vector)])
  | columnMajor => .string "column_major"
  | operand f => tagged "operand" f.toJson

def decode : Decoder AccessPattern := fun form depth j => do
  let v ← Variant.ofJson? form depth j
  match v.tag with
  | "row_major" =>
      let f ← v.record? ["vector"]
      return rowMajor (← f.required "vector" Decoder.word32)
  | "column_major" => v.unit? columnMajor
  | "operand" => return operand (← v.content? RegisterLayout.decode)
  | _ => none

end AccessPattern

end TileProgram
