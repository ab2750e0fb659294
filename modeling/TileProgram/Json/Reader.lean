import TileProgram.Fault
import TileProgram.Json.Basic

/-!
# Reading JSON

The reader walks the characters of a text once.  Numerals keep as many leading
digits as fit an unsigned word of 64 bits; the other digits only move the
exponent, and the scaling by powers of ten is done in double precision.
-/

namespace TileProgram
namespace Json
namespace Reader

def isBlank (c : Char) : Bool :=
  c == ' ' || c == '\n' || c == '\t' || c == '\r'

def skipBlanks : List Char → List Char
  | [] => []
  | c :: rest => if isBlank c then skipBlanks rest else c :: rest

def hexValue? (c : Char) : Option Nat :=
  if '0' ≤ c ∧ c ≤ '9' then some (c.toNat - 48)
  else if 'a' ≤ c ∧ c ≤ 'f' then some (c.toNat - 87)
  else if 'A' ≤ c ∧ c ≤ 'F' then some (c.toNat - 55)
  else none

def hexUnit : List Char → Option (Nat × List Char)
  | a :: b :: c :: d :: rest => do
      let a ← hexValue? a
      let b ← hexValue? b
      let c ← hexValue? c
      let d ← hexValue? d
      return (((a * 16 + b) * 16 + c) * 16 + d, rest)
  | _ => none

def lowSurrogate? : List Char → Option (Nat × List Char)
  | '\\' :: 'u' :: text => do
      let (unit, rest) ← hexUnit text
      if 0xdc00 ≤ unit ∧ unit < 0xe000 then some (unit, rest) else none
  | _ => none

/-- The character named after `\u`.  A surrogate without its partner names
none. -/
def unicodeEscape (text : List Char) : Option (Option Char × List Char) := do
  let (unit, rest) ← hexUnit text
  if 0xd800 ≤ unit ∧ unit < 0xdc00 then
    match lowSurrogate? rest with
    | some (low, rest) =>
        return (some (Char.ofNat (0x10000 + (unit - 0xd800) * 1024 +
          (low - 0xdc00))), rest)
    | none => return (none, rest)
  else if 0xdc00 ≤ unit ∧ unit < 0xe000 then return (none, rest)
  else return (some (Char.ofNat unit), rest)

/-- The character named after a backslash, if the escape names one. -/
def escaped : List Char → Option (Option Char × List Char)
  | '"' :: rest => some (some '"', rest)
  | '\\' :: rest => some (some '\\', rest)
  | '/' :: rest => some (some '/', rest)
  | 'b' :: rest => some (some (Char.ofNat 8), rest)
  | 'f' :: rest => some (some (Char.ofNat 12), rest)
  | 'n' :: rest => some (some '\n', rest)
  | 'r' :: rest => some (some '\r', rest)
  | 't' :: rest => some (some '\t', rest)
  | 'u' :: rest => unicodeEscape rest
  | _ => none

/-- The text up to the closing quote, unless an escape in it names no character;
`fuel` bounds the characters. -/
def stringBody :
    Nat → List Char → Option String → Option (Option String × List Char)
  | 0, _, _ => none
  | _, [], _ => none
  | _, '"' :: rest, acc => some (acc, rest)
  | fuel + 1, '\\' :: rest, acc => do
      let (c, rest) ← escaped rest
      stringBody fuel rest (do return (← acc).push (← c))
  | fuel + 1, c :: rest, acc =>
      if c.toNat < 32 then none else stringBody fuel rest (acc.map (·.push c))

def digits : List Char → List Nat × List Char
  | [] => ([], [])
  | c :: rest =>
      if '0' ≤ c ∧ c ≤ '9' then
        let (more, after) := digits rest
        ((c.toNat - 48) :: more, after)
      else ([], c :: rest)

/-- Append digits while the significand fits a word: the significand, how many
digits it took and how many were left. -/
def absorb (significand : Nat) : List Nat → Nat × Nat × Nat
  | [] => (significand, 0, 0)
  | d :: rest =>
      if significand * 10 + d < limit64 then
        let (s, taken, left) := absorb (significand * 10 + d) rest
        (s, taken + 1, left)
      else (significand, 0, rest.length + 1)

def powerOfTen (n : Nat) : Float := Float.ofScientific 1 false n

/-- Divide by a power of ten, in steps a double can express. -/
def shrink (x : Float) (n : Nat) : Float :=
  if n ≤ 308 then x / powerOfTen n
  else if x == 0 then x
  else shrink (x / powerOfTen 308) (n - 308)
termination_by n

/-- Multiply by a power of ten; past the doubles lies infinity. -/
def stretch (x : Float) (n : Nat) : Float :=
  if n ≤ 308 then x * powerOfTen n
  else if x == 0 then x
  else 1 / 0

def scale (significand : Nat) (exponent : Int) : Float :=
  if 0 ≤ exponent then stretch (Float.ofNat significand) exponent.toNat
  else shrink (Float.ofNat significand) (-exponent).toNat

structure Numeral where
  negative : Bool
  whole : List Nat
  fraction : Option (List Nat)
  exponent : Option (Bool × List Nat)

namespace Numeral

def ofDigits (ds : List Nat) : Nat := ds.foldl (fun acc d => acc * 10 + d) 0

def toFloat (n : Numeral) : Float :=
  let (head, _, excess) := absorb 0 n.whole
  let (significand, after, _) := absorb head (n.fraction.getD [])
  let written : Int := match n.exponent with
    | none => 0
    | some (negative, ds) =>
        if negative then -(ofDigits ds : Int) else ofDigits ds
  let x := scale significand ((excess : Int) - after + written)
  if n.negative then -x else x

/-- The value of a numeral that is not an integer, unless it is past the
doubles. -/
def doubleJson (n : Numeral) : Json :=
  let x := n.toFloat
  if x.isFinite then .float x else .unreadable

/-- The value of a numeral.  A negative zero is a double. -/
def toJson (n : Numeral) : Json :=
  let magnitude := ofDigits n.whole
  match n.fraction, n.exponent with
  | none, none =>
      if n.negative then
        if magnitude = 0 ∨ 0x8000000000000000 < magnitude then n.doubleJson
        else .int (-magnitude)
      else if magnitude < limit64 then .int magnitude
      else n.doubleJson
  | _, _ => n.doubleJson

end Numeral

def fractionPart : List Char → Option (Option (List Nat) × List Char)
  | '.' :: rest =>
      match digits rest with
      | ([], _) => none
      | (ds, after) => some (some ds, after)
  | rest => some (none, rest)

def exponentSign : List Char → Bool × List Char
  | '+' :: rest => (false, rest)
  | '-' :: rest => (true, rest)
  | rest => (false, rest)

def exponentPart : List Char → Option (Option (Bool × List Nat) × List Char)
  | c :: rest =>
      if c == 'e' || c == 'E' then
        let (negative, rest) := exponentSign rest
        match digits rest with
        | ([], _) => none
        | (ds, after) => some (some (negative, ds), after)
      else some (none, c :: rest)
  | [] => some (none, [])

/-- A numeral without its sign; a leading zero stands alone. -/
def numeral (negative : Bool) (text : List Char) :
    Option (Json × List Char) := do
  let (whole, rest) := digits text
  let wellFormed := match whole with
    | [] => false
    | 0 :: _ :: _ => false
    | _ => true
  if wellFormed then
    let (fraction, rest) ← fractionPart rest
    let (exponent, rest) ← exponentPart rest
    return (Numeral.toJson ⟨negative, whole, fraction, exponent⟩, rest)
  else none

def afterWord : List Char → List Char → Option (List Char)
  | [], text => some text
  | _ :: _, [] => none
  | w :: word, c :: text => if w == c then afterWord word text else none

mutual
/-- One value, blanks before it allowed; `fuel` bounds the steps. -/
def value : Nat → List Char → Option (Json × List Char)
  | 0, _ => none
  | fuel + 1, text =>
      match skipBlanks text with
      | 'n' :: rest => do return (.null, ← afterWord "ull".toList rest)
      | 't' :: rest => do return (.bool true, ← afterWord "rue".toList rest)
      | 'f' :: rest => do return (.bool false, ← afterWord "alse".toList rest)
      | '"' :: rest => do
          let (s, rest) ← stringBody (fuel + 1) rest (some "")
          return ((s.map Json.string).getD .unreadable, rest)
      | '[' :: rest =>
          match skipBlanks rest with
          | ']' :: rest => some (.array [], rest)
          | rest => do
              let (items, rest) ← items fuel rest
              return (.array items, rest)
      | '{' :: rest =>
          match skipBlanks rest with
          | '}' :: rest => some (.object [], rest)
          | rest => do
              let (fields, rest) ← fields fuel rest
              return ((fields.map Json.object).getD .unreadable, rest)
      | '-' :: rest => numeral true rest
      | rest => numeral false rest

def items : Nat → List Char → Option (List Json × List Char)
  | 0, _ => none
  | fuel + 1, text => do
      let (item, rest) ← value fuel text
      match skipBlanks rest with
      | ']' :: rest => return ([item], rest)
      | ',' :: rest =>
          let (more, rest) ← items fuel rest
          return (item :: more, rest)
      | _ => none

/-- The fields of an object up to its closing bracket, unless one of the keys
cannot be read. -/
def fields :
    Nat → List Char → Option (Option (List (String × Json)) × List Char)
  | 0, _ => none
  | fuel + 1, text => do
      match skipBlanks text with
      | '"' :: rest =>
          let (key, rest) ← stringBody (fuel + 1) rest (some "")
          match skipBlanks rest with
          | ':' :: rest =>
              let (item, rest) ← value fuel rest
              match skipBlanks rest with
              | '}' :: rest => return (key.map fun key => [(key, item)], rest)
              | ',' :: rest =>
                  let (more, rest) ← fields fuel rest
                  return (do return (← key, item) :: (← more), rest)
              | _ => none
          | _ => none
      | _ => none
end

end Reader

def read? (text : String) : Option Json := do
  let chars := text.toList
  let (value, rest) ← Reader.value (2 * chars.length + 2) chars
  if (Reader.skipBlanks rest).isEmpty then some value else none

end Json
end TileProgram
