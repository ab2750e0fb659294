/-!
# Shortest decimals

Among the decimals that read back as a given double, a printer takes one with
the fewest digits, and of those the nearest to the double.  The search runs on
exact numbers: the double and the two ends of the interval of reals that round
to it are kept over a common denominator.
-/

namespace TileProgram
namespace Decimal

inductive Tie where
  | up
  | even
  deriving DecidableEq, Repr

structure Digits where
  significand : Nat
  exponent : Int
  deriving DecidableEq, Repr

/-- A value and the interval of reals that round to it, over `scale`. -/
structure Interval where
  lower : Nat
  value : Nat
  upper : Nat
  scale : Nat
  closed : Bool

namespace Interval

/-- The interval of the double `mantissa * 2 ^ exponent`.  Below a power of two
the neighbours lie at half the distance. -/
def ofBinary (mantissa : Nat) (exponent : Int) (narrowBelow : Bool) :
    Interval :=
  let grow := 1 <<< (exponent - 2).toNat
  { lower := (4 * mantissa - if narrowBelow then 1 else 2) * grow
    value := 4 * mantissa * grow
    upper := (4 * mantissa + 2) * grow
    scale := 1 <<< (2 - exponent).toNat
    closed := mantissa % 2 = 0 }

def inUnits (i : Interval) (grid : Int) : Interval :=
  let stretch := Nat.pow 10 (-grid).toNat
  { i with
    lower := i.lower * stretch
    value := i.value * stretch
    upper := i.upper * stretch
    scale := i.scale * Nat.pow 10 grid.toNat }

def holds (i : Interval) (d : Nat) : Bool :=
  if i.closed then i.lower ≤ d * i.scale && d * i.scale ≤ i.upper
  else i.lower < d * i.scale && d * i.scale < i.upper

/-- The nearest integer that reads back as the value, if a neighbour does. -/
def nearest? (tie : Tie) (i : Interval) : Option Nat :=
  let below := i.value / i.scale
  let above := below + 1
  match i.holds below, i.holds above with
  | true, true =>
      match compare (2 * i.value) ((below + above) * i.scale) with
      | .lt => some below
      | .gt => some above
      | .eq => some (if tie = .even ∧ below % 2 = 0 then below else above)
  | true, false => some below
  | false, true => some above
  | false, false => none

/-- Position of the decimal point: the value lies below `10 ^ point` and not
below a tenth of it.  Doubles lie between `10 ^ -400` and `10 ^ 400`. -/
def point (i : Interval) : Int :=
  ((i.value * Nat.pow 10 400 / i.scale).repr.length : Int) - 400

/-- The first grid, from coarse to fine, with a decimal that reads back.  The
finest grid holds the value itself rounded down. -/
def search (tie : Tie) (i : Interval) (point : Int) : Nat → Nat → Digits
  | digits, 0 =>
      let u := i.inUnits (point - digits)
      ⟨u.value / u.scale, point - digits⟩
  | digits, left + 1 =>
      match (i.inUnits (point - digits)).nearest? tie with
      | some d => ⟨d, point - digits⟩
      | none => search tie i point (digits + 1) left

end Interval

def Digits.strip (d : Digits) : Digits :=
  descend d.significand d.exponent d.significand
where
  descend (significand : Nat) (exponent : Int) : Nat → Digits
    | 0 => ⟨significand, exponent⟩
    | fuel + 1 =>
        if significand % 10 = 0 ∧ significand ≠ 0 then
          descend (significand / 10) (exponent + 1) fuel
        else ⟨significand, exponent⟩

/-- The shortest decimal that reads back as a positive finite double. -/
def shortest (tie : Tie) (x : Float) : Digits :=
  let bits := x.toBits.toNat
  let biased : Nat := (bits >>> 52) % 0x800
  let fraction : Nat := bits % 0x10000000000000
  let interval :=
    if biased = 0 then Interval.ofBinary fraction (-1074) false
    else Interval.ofBinary (0x10000000000000 + fraction) ((biased : Int) - 1075)
      (fraction = 0 && biased > 1)
  (interval.search tie interval.point 1 17).strip

end Decimal
end TileProgram
