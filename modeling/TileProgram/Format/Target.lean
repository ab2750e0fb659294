import TileProgram.Format.Layout
import TileProgram.Target.Basic

/-!
# Targets and instructions as JSON
-/

namespace TileProgram

open Json (nat nats)

def Vendor.toJson (v : Vendor) : Json := .string v.name

def Vendor.decode : Decoder Vendor := Decoder.name Vendor.ofName?

def GemmShape.toJson (s : GemmShape) : Json := nats s.toList

def GemmShape.decode : Decoder GemmShape :=
  Decoder.triple Decoder.word32 GemmShape.mk

namespace MatrixInstruction

def toJson (i : MatrixInstruction) : Json :=
  .object [("name", .string i.name), ("vendor", i.vendor.toJson),
    ("shape", i.shape.toJson), ("a", i.a.toJson), ("b", i.b.toJson),
    ("acc", i.acc.toJson), ("warp_size", nat i.lanes)]

def decode : Decoder MatrixInstruction := fun form depth j => do
  let f ← Fields.ofJson?
    ["name", "vendor", "shape", "a", "b", "acc", "warp_size"] form depth j
  return {
    name := ← f.required "name" Decoder.string
    vendor := ← f.required "vendor" Vendor.decode
    shape := ← f.required "shape" GemmShape.decode
    a := ← f.required "a" ElementType.decode
    b := ← f.required "b" ElementType.decode
    acc := ← f.required "acc" ElementType.decode
    lanes := ← f.required "warp_size" Decoder.word32 }

end MatrixInstruction

namespace SharedMemory

def toJson (s : SharedMemory) : Json :=
  .object [("banks", nat s.banks), ("bank_bytes", nat s.bankBytes),
    ("capacity_bytes", nat s.capacityBytes)]

def decode : Decoder SharedMemory := fun form depth j => do
  let f ← Fields.ofJson? ["banks", "bank_bytes", "capacity_bytes"] form depth j
  return ⟨← f.required "banks" Decoder.word32, ← f.required "bank_bytes"
    Decoder.word32, ← f.required "capacity_bytes" Decoder.word64⟩

end SharedMemory

namespace BulkEngine

def fileName : BulkEngine → String
  | tma => "tma"
  | cpAsync => "cp_async"

def ofFileName? (text : String) : Option BulkEngine :=
  [tma, cpAsync].find? (·.fileName == text)

def toJson (e : BulkEngine) : Json := .string e.fileName

def decode : Decoder BulkEngine := Decoder.name ofFileName?

end BulkEngine

namespace BulkCopy

def toJson (b : BulkCopy) : Json :=
  .object [("engine", b.engine.toJson), ("min_bytes", nat b.minBytes)]

def decode : Decoder BulkCopy := fun form depth j => do
  let f ← Fields.ofJson? ["engine", "min_bytes"] form depth j
  return ⟨← f.required "engine" BulkEngine.decode,
    ← f.required "min_bytes" Decoder.word64⟩

end BulkCopy

namespace Target

def toJson (t : Target) : Json :=
  .object [("name", .string t.name), ("display_name", .string t.displayName),
    ("vendor", t.vendor.toJson), ("arch", .string t.arch),
    ("warp_size", nat t.warpSize), ("shared", t.shared.toJson),
    ("vector_bytes", nat t.vectorBytes), ("max_threads", nat t.maxThreads),
    ("bulk_copy", Json.option BulkCopy.toJson t.bulkCopy),
    ("mma", Json.list MatrixInstruction.toJson t.instructions)]

def decode : Decoder Target := fun form depth j => do
  let f ← Fields.ofJson? ["name", "display_name", "vendor", "arch", "warp_size",
    "shared", "vector_bytes", "max_threads", "bulk_copy", "mma"] form depth j
  return {
    name := ← f.required "name" Decoder.string
    displayName := ← f.required "display_name" Decoder.string
    vendor := ← f.required "vendor" Vendor.decode
    arch := ← f.required "arch" Decoder.string
    warpSize := ← f.required "warp_size" Decoder.word32
    shared := ← f.required "shared" SharedMemory.decode
    vectorBytes := ← f.required "vector_bytes" Decoder.word32
    maxThreads := ← f.required "max_threads" Decoder.word32
    bulkCopy := ← f.optional "bulk_copy" BulkCopy.decode
    instructions := ← f.required "mma" (Decoder.list MatrixInstruction.decode) }

end Target

end TileProgram
