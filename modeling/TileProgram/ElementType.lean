/-!
# Element types and scopes

What one element of a tile is, and in which memory the tile lives.
-/

namespace TileProgram

inductive ElementType where
  | f16
  | bf16
  | f32
  | f64
  | i8
  | i32
  deriving DecidableEq, Repr

namespace ElementType

def bytes : ElementType → Nat
  | i8 => 1
  | f16 | bf16 => 2
  | f32 | i32 => 4
  | f64 => 8

def isFloat : ElementType → Bool
  | i8 | i32 => false
  | _ => true

def name : ElementType → String
  | f16 => "f16"
  | bf16 => "bf16"
  | f32 => "f32"
  | f64 => "f64"
  | i8 => "i8"
  | i32 => "i32"

def all : List ElementType := [f16, bf16, f32, f64, i8, i32]

def ofName? (text : String) : Option ElementType :=
  all.find? (·.name == text)

/-- The type meant by a kernel author, who may write a long name. -/
def parse? (text : String) : Option ElementType :=
  match text with
  | "f16" | "float16" | "half" => some f16
  | "bf16" | "bfloat16" => some bf16
  | "f32" | "float32" | "float" => some f32
  | "f64" | "float64" | "double" => some f64
  | "i8" | "int8" => some i8
  | "i32" | "int32" | "int" => some i32
  | _ => none

def unknownMessage (text : String) : String :=
  s!"unknown element type '{text}'"

end ElementType

inductive Scope where
  /-- Device memory, always row-major. -/
  | global
  /-- On-chip memory of a block, divided into banks. -/
  | shared
  | fragment
  deriving DecidableEq, Repr

namespace Scope

def isOnChip : Scope → Bool
  | global => false
  | _ => true

def name : Scope → String
  | global => "global"
  | shared => "shared"
  | fragment => "fragment"

def all : List Scope := [global, shared, fragment]

def ofName? (text : String) : Option Scope :=
  all.find? (·.name == text)

end Scope

end TileProgram
