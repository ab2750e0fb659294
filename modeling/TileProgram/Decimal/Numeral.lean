import TileProgram.Decimal.Shortest

/-!
# Written numbers

A style fixes how the shortest digits of a double are set: where the point may
stand before an exponent takes over, whether whole numbers keep a fraction, and
which way ties go.
-/

namespace TileProgram
namespace Decimal

structure Style where
  /-- Positions of the point, counted from the first digit, that are written
  out; `none` writes out every position. -/
  plain : Option (Int × Int)
  keepsFraction : Bool
  tie : Tie

def positional (style : Style) (digits : String) (point : Int) : String :=
  let length : Int := digits.length
  if point ≤ 0 then
    "0." ++ "".pushn '0' (-point).toNat ++ digits
  else if length ≤ point then
    digits ++ "".pushn '0' (point - length).toNat
      ++ (if style.keepsFraction then ".0" else "")
  else
    (digits.take point.toNat).toString ++ "." ++
      (digits.drop point.toNat).toString

/-- Digits with one digit before the point and an exponent, which always has a
sign. -/
def scientific (digits : String) (point : Int) : String :=
  let head := (digits.take 1).toString
  let tail := (digits.drop 1).toString
  let exponent := point - 1
  head ++ (if tail.isEmpty then "" else "." ++ tail)
    ++ (if exponent < 0 then "e-" else "e+") ++ exponent.natAbs.repr

def finiteText (style : Style) (x : Float) : String :=
  let sign := if x.toBits.toNat < 0x8000000000000000 then "" else "-"
  if x == 0 then
    sign ++ (if style.keepsFraction then "0.0" else "0")
  else
    let d := shortest style.tie x
    let digits := d.significand.repr
    let point := digits.length + d.exponent
    let written := match style.plain with
      | none => true
      | some (first, last) => first ≤ point ∧ point ≤ last
    sign ++ (if written then positional style digits point
      else scientific digits point)

def text (style : Style) (x : Float) : String :=
  if x.isNaN then "NaN"
  else if x.isInf then (if x < 0 then "-inf" else "inf")
  else finiteText style x

/-- Numbers in listings and messages never carry an exponent. -/
def listingStyle : Style := ⟨none, false, .up⟩

def listingText (x : Float) : String := text listingStyle x

end Decimal
end TileProgram
