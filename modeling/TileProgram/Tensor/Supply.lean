import TileProgram.ElementType
import TileProgram.Random.ChaCha

/-!
# Supplies

Synthetic contents for global tiles, drawn from a seeded stream.
-/

namespace TileProgram

inductive Supply where
  /-- Whole numbers from `-2` to `2`. -/
  | integer
  /-- Uniform in `[-1, 1)`. -/
  | uniform
  /-- Normal with mean `-1` and standard deviation `1`. -/
  | normal
  | randn
  | zero
  | one
  deriving DecidableEq, Repr

namespace Supply

def name : Supply → String
  | integer => "integer"
  | uniform => "uniform"
  | normal => "normal"
  | randn => "randn"
  | zero => "zero"
  | one => "one"

def ofName? (text : String) : Option Supply :=
  [integer, uniform, normal, randn, zero, one].find? (·.name == text)

def parse? (text : String) : Option Supply := ofName? text.toLower

def unknownMessage (text : String) : String :=
  s!"unknown supply '{text.toLower}' "
    ++ "(expected integer, uniform, normal, randn, zero or one)"

/-- The supply in use for a type: 8-bit integers hold no continuous samples. -/
def forType (s : Supply) (type : ElementType) : Supply :=
  match type, s with
  | .i8, uniform => one
  | .i8, normal => one
  | .i8, randn => one
  | _, s => s

def gaussian (stream : Random.Stream) : Float × Random.Stream :=
  let (u, stream) := stream.unit
  let (v, stream) := stream.unit
  let radius := (-2 * (1 - u).log).sqrt
  (radius * (6.283185307179586 * v).cos, stream)

def tries : Nat := 4096

def sample (s : Supply) (stream : Random.Stream) : Float × Random.Stream :=
  match s with
  | integer =>
      let (n, stream) := stream.belowFive tries
      (n.toFloat - 2, stream)
  | uniform =>
      let (u, stream) := stream.unit
      (u * 2 + (-1), stream)
  | normal =>
      let (x, stream) := gaussian stream
      (x - 1, stream)
  | randn => gaussian stream
  | zero => (0, stream)
  | one => (1, stream)

def samples (s : Supply) :
    Nat → Random.Stream → Array Float → Array Float × Random.Stream
  | 0, stream, acc => (acc, stream)
  | count + 1, stream, acc =>
      let (x, stream) := s.sample stream
      samples s count stream (acc.push x)

def generate
    (s : Supply) (count : Nat) (type : ElementType) (stream : Random.Stream) :
    Array Float × Random.Stream :=
  (s.forType type).samples count stream #[]

end Supply

end TileProgram
