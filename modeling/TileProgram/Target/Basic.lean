import TileProgram.Target.Instruction

/-!
# Targets

Everything the passes have to know of a device: its banks, its widest access,
its copy engine and its table of matrix instructions.
-/

namespace TileProgram

structure SharedMemory where
  banks : Nat
  bankBytes : Nat
  capacityBytes : Nat
  deriving DecidableEq, Repr

def SharedMemory.lineBytes (s : SharedMemory) : Checked Nat :=
  Checked.word32 (s.banks * s.bankBytes)

inductive BulkEngine where
  | tma
  | cpAsync
  deriving DecidableEq, Repr

def BulkEngine.name : BulkEngine → String
  | tma => "tma"
  | cpAsync => "cp.async"

structure BulkCopy where
  engine : BulkEngine
  minBytes : Nat
  deriving DecidableEq, Repr

structure Target where
  name : String
  displayName : String
  vendor : Vendor
  arch : String
  warpSize : Nat
  shared : SharedMemory
  vectorBytes : Nat
  maxThreads : Nat
  bulkCopy : Option BulkCopy
  instructions : List MatrixInstruction
  deriving DecidableEq, Repr

namespace Target

def vectorElements (t : Target) (type : ElementType) : Nat :=
  max 1 (t.vectorBytes / type.bytes)

def instruction? (t : Target) (a b acc : ElementType) :
    Option MatrixInstruction :=
  t.instructions.find? (·.accepts a b acc)

/-- Volta: no matrix instructions, no bulk copies. -/
def sm70 : Target where
  name := "sm70"
  displayName := "NVIDIA Volta"
  vendor := .nvidia
  arch := "sm_70"
  warpSize := 32
  shared := ⟨32, 4, 96 * 1024⟩
  vectorBytes := 16
  maxThreads := 1024
  bulkCopy := none
  instructions := []

/-- Ampere: tensor cores and copies of sixteen bytes a thread. -/
def sm80 : Target :=
  { sm70 with
    name := "sm80"
    displayName := "NVIDIA Ampere"
    arch := "sm_80"
    shared := ⟨32, 4, 164 * 1024⟩
    bulkCopy := some ⟨.cpAsync, 1024⟩
    instructions := MatrixInstruction.nvidiaTable }

/-- Hopper: copies of whole windows. -/
def sm90 : Target :=
  { sm80 with
    name := "sm90"
    displayName := "NVIDIA Hopper"
    arch := "sm_90"
    shared := ⟨32, 4, 228 * 1024⟩
    bulkCopy := some ⟨.tma, 1024⟩ }

/-- CDNA2: warps of 64 lanes. -/
def gfx90a : Target where
  name := "gfx90a"
  displayName := "AMD CDNA2"
  vendor := .amd
  arch := "gfx90a"
  warpSize := 64
  shared := ⟨32, 4, 64 * 1024⟩
  vectorBytes := 16
  maxThreads := 1024
  bulkCopy := none
  instructions := MatrixInstruction.amdTable

/-- CDNA3. -/
def gfx942 : Target :=
  { gfx90a with
    name := "gfx942"
    displayName := "AMD CDNA3"
    arch := "gfx942" }

def presets : List Target := [sm70, sm80, sm90, gfx90a, gfx942]

def preset? (name : String) : Option Target :=
  presets.find? (·.name == name)

end Target

end TileProgram
