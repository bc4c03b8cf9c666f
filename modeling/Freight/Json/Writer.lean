import Freight.Json.Value
import Freight.Decimal.Layout

/-!
# Writing JSON

Values are written on one line. In strings only the quote, the backslash and the control characters
below the blank are escaped. A number that came from a double is written with the fewest digits that
read back to it.
-/

namespace Freight.Json

/-- The number that stands for a double; infinities and undefined values are null. -/
def ofFloat (x : Float) : Json :=
  if x.isFinite then
    let d := Decimal.ofFloat x
    number ⟨Decimal.isNegative x, d.digits, d.exponent, false⟩
  else null

def escape (c : Char) : String :=
  if c = '"' then "\\\""
  else if c = '\\' then "\\\\"
  else if c = '\n' then "\\n"
  else if c = '\r' then "\\r"
  else if c = '\t' then "\\t"
  else if c.toNat < 32 then
    let hex := Nat.toDigits 16 c.toNat
    "\\u" ++ String.ofList (List.replicate (4 - hex.length) '0' ++ hex)
  else c.toString

def quote (s : String) : String := s.foldl (fun out c => out ++ escape c) "\"" ++ "\""

def numeral (n : Numeral) : String :=
  (if n.negative then "-" else "") ++
    (if n.integral then toString n.digits else (Decimal.render .data ⟨n.digits, n.exponent⟩))

mutual

/-- The text of a value. A string without a value is written as an empty one. -/
def render : Json → String
  | null => "null"
  | bool b => if b then "true" else "false"
  | number n => numeral n
  | string s => quote (s.getD "")
  | array elements => "[" ++ renderElements "" elements ++ "]"
  | object members => "\x7b" ++ renderMembers "" members ++ "\x7d"

/-- The texts of a list of values, each after the mark that separates it from the one before. -/
def renderElements (mark : String) : List Json → String
  | [] => ""
  | v :: vs => mark ++ render v ++ renderElements "," vs

/-- The texts of named values, each after the mark that separates it from the one before. -/
def renderMembers (mark : String) : List (Option String × Json) → String
  | [] => ""
  | (k, v) :: vs => mark ++ quote (k.getD "") ++ ":" ++ render v ++ renderMembers "," vs

end

end Freight.Json
