import TileProgram.Json.Basic
import TileProgram.Decimal.Numeral

/-!
# JSON text

Two forms of the same text: one line without blanks, and the indented form of
saved kernels with one item or field a line and empty collections closed up.
-/

namespace TileProgram
namespace Json

/-- Saved numbers keep a fraction or an exponent, so that they read back as
doubles. -/
def numeralStyle : Decimal.Style := ⟨some (-4, 16), true, .even⟩

/-- Text of a double; a value that is not finite has none. -/
def floatText (x : Float) : String :=
  if x.isFinite then Decimal.finiteText numeralStyle x else "null"

def hexDigit (n : Nat) : Char :=
  if n < 10 then Char.ofNat (48 + n) else Char.ofNat (87 + n)

def escape (c : Char) : String :=
  match c with
  | '"' => "\\\""
  | '\\' => "\\\\"
  | '\n' => "\\n"
  | '\r' => "\\r"
  | '\t' => "\\t"
  | _ =>
      let n := c.toNat
      if n = 8 then "\\b"
      else if n = 12 then "\\f"
      else if n < 32 then
        ("\\u00".push (hexDigit (n / 16))).push (hexDigit (n % 16))
      else c.toString

def quoted (s : String) : String :=
  s.foldl (fun acc c => acc ++ escape c) "\"" ++ "\""

mutual
def compact : Json → String
  | .null => "null"
  | .bool value => if value then "true" else "false"
  | .int value => value.repr
  | .float value => floatText value
  | .string value => quoted value
  | .array items => "[" ++ ",".intercalate (compactItems items) ++ "]"
  | .object fields => "\x7b" ++ ",".intercalate (compactFields fields) ++ "\x7d"
  | .unreadable => "null"

def compactItems : List Json → List String
  | [] => []
  | item :: rest => item.compact :: compactItems rest

def compactFields : List (String × Json) → List String
  | [] => []
  | (key, value) :: rest =>
      (quoted key ++ ":" ++ value.compact) :: compactFields rest
end

def bracketed (opening closing : String) (depth : Nat) (lines : List String) :
    String :=
  if lines.isEmpty then opening ++ closing
  else
    let indent := "\n".pushn ' ' (2 * depth)
    opening ++ indent ++ "  " ++ ("," ++ indent ++ "  ").intercalate lines
      ++ indent ++ closing

mutual
/-- Indented text; `depth` counts the enclosing brackets. -/
def pretty (depth : Nat) : Json → String
  | .null => "null"
  | .bool value => if value then "true" else "false"
  | .int value => value.repr
  | .float value => floatText value
  | .string value => quoted value
  | .array items => bracketed "[" "]" depth (prettyItems (depth + 1) items)
  | .object fields =>
      bracketed "\x7b" "\x7d" depth (prettyFields (depth + 1) fields)
  | .unreadable => "null"

def prettyItems (depth : Nat) : List Json → List String
  | [] => []
  | item :: rest => item.pretty depth :: prettyItems depth rest

def prettyFields (depth : Nat) : List (String × Json) → List String
  | [] => []
  | (key, value) :: rest =>
      (quoted key ++ ": " ++ value.pretty depth) :: prettyFields depth rest
end

end Json
end TileProgram
