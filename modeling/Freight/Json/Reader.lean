import Freight.Json.Value

/-!
# Reading JSON

A reader for exactly the documents of the JSON grammar: one value with blanks around it. There are
no comments, no trailing commas, no numbers with a leading plus, leading zeros or a bare point, and
no unescaped control characters in strings. What a number's size or a string's escapes amount to is
not the grammar's concern; see `Numeral.toFloat?` and `Json.string`.

Each reading function takes the text that is left and returns what it read with the text after it.
The mutual recursion over values counts down the number of values it may still open; the length of
the text bounds them.
-/

namespace Freight.Json

def skipBlanks : List Char → List Char
  | c :: rest => if c = ' ' ∨ c = '\n' ∨ c = '\r' ∨ c = '\t' then skipBlanks rest else c :: rest
  | [] => []

def after? : List Char → List Char → Option (List Char)
  | [], rest => some rest
  | c :: word, d :: rest => if c = d then after? word rest else none
  | _ :: _, [] => none

def hexDigit? (c : Char) : Option Nat :=
  if '0' ≤ c ∧ c ≤ '9' then some (c.toNat - '0'.toNat)
  else if 'a' ≤ c ∧ c ≤ 'f' then some (c.toNat - 'a'.toNat + 10)
  else if 'A' ≤ c ∧ c ≤ 'F' then some (c.toNat - 'A'.toNat + 10)
  else none

def hexDigits? (a b c d : Char) : Option Nat := do
  let a ← hexDigit? a
  let b ← hexDigit? b
  let c ← hexDigit? c
  let d ← hexDigit? d
  pure (((a * 16 + b) * 16 + c) * 16 + d)

/-- What a letter after a backslash stands for. -/
def escaped? (c : Char) : Option Nat :=
  if c = '"' ∨ c = '\\' ∨ c = '/' then some c.toNat
  else if c = 'b' then some 8
  else if c = 'f' then some 12
  else if c = 'n' then some 10
  else if c = 'r' then some 13
  else if c = 't' then some 9
  else none

/-- The codes in a string after its opening quote, and the text after the closing one. A code is
that of a character, or half of a surrogate pair that an escape names. -/
def codes? : List Char → Option (List Nat × List Char)
  | [] => none
  | '"' :: rest => some ([], rest)
  | '\\' :: 'u' :: a :: b :: c :: d :: rest => do
    let code ← hexDigits? a b c d
    let (codes, rest) ← codes? rest
    pure (code :: codes, rest)
  | '\\' :: c :: rest => do
    let code ← escaped? c
    let (codes, rest) ← codes? rest
    pure (code :: codes, rest)
  | c :: rest =>
    if c = '\\' ∨ c.toNat < 32 then none
    else do
      let (codes, rest) ← codes? rest
      pure (c.toNat :: codes, rest)

/-- The characters of a list of codes, with surrogate pairs joined; none if half of a pair stands
alone. -/
def joined? : List Nat → Option (List Char)
  | [] => some []
  | high :: rest =>
    if 0xD800 ≤ high ∧ high < 0xDC00 then
      match rest with
      | low :: rest =>
        if 0xDC00 ≤ low ∧ low < 0xE000 then
          (joined? rest).map
            (Char.ofNat (0x10000 + (high - 0xD800) * 0x400 + (low - 0xDC00)) :: ·)
        else none
      | [] => none
    else if 0xDC00 ≤ high ∧ high < 0xE000 then none
    else (joined? rest).map (Char.ofNat high :: ·)

/-- A string after its opening quote. -/
def string? (text : List Char) : Option (Option String × List Char) :=
  (codes? text).map fun (codes, rest) => ((joined? codes).map String.ofList, rest)

/-- The digits at the front of a text, and the text after them. -/
def digits (text : List Char) : List Char × List Char :=
  (text.takeWhile Char.isDigit, text.dropWhile Char.isDigit)

def natOfDigits (ds : List Char) : Nat := ds.foldl (fun n c => n * 10 + (c.toNat - '0'.toNat)) 0

/-- The exponent after its letter: an optional sign and at least one digit. -/
def exponent? (text : List Char) : Option (Int × List Char) :=
  let (negative, text) := match text with
    | '-' :: rest => (true, rest)
    | '+' :: rest => (false, rest)
    | _ => (false, text)
  match digits text with
  | ([], _) => none
  | (ds, rest) =>
    let power := (natOfDigits ds : Int)
    some (if negative then -power else power, rest)

/-- A number: sign, integer part without leading zeros, fraction, exponent. -/
def number? (text : List Char) : Option (Numeral × List Char) := do
  let (negative, text) := match text with
    | '-' :: rest => (true, rest)
    | _ => (false, text)
  let (whole, rest) := digits text
  if whole.isEmpty ∨ (1 < whole.length ∧ whole.head? = some '0') then none
  else
    let (fraction, rest) ← match rest with
      | '.' :: rest =>
        match digits rest with
        | ([], _) => none
        | (ds, rest) => some (some ds, rest)
      | _ => some (none, rest)
    let (power, rest) ← match rest with
      | 'e' :: rest => (exponent? rest).map fun (e, r) => (some e, r)
      | 'E' :: rest => (exponent? rest).map fun (e, r) => (some e, r)
      | _ => some (none, rest)
    let places := (fraction.getD []).length
    pure (⟨negative, natOfDigits (whole ++ fraction.getD []), power.getD 0 - places,
      fraction.isNone && power.isNone⟩, rest)

mutual

/-- A value at the front of a text. -/
def value? : Nat → List Char → Option (Json × List Char)
  | 0, _ => none
  | n + 1, text =>
    match skipBlanks text with
    | '"' :: rest => (string? rest).map fun (s, rest) => (string s, rest)
    | '[' :: rest =>
      match skipBlanks rest with
      | ']' :: rest => some (array [], rest)
      | _ => (elements? n rest).map fun (vs, rest) => (array vs, rest)
    | '\x7b' :: rest =>
      match skipBlanks rest with
      | '\x7d' :: rest => some (object [], rest)
      | _ => (members? n rest).map fun (vs, rest) => (object vs, rest)
    | 'n' :: rest => (after? ['u', 'l', 'l'] rest).map (null, ·)
    | 't' :: rest => (after? ['r', 'u', 'e'] rest).map (bool true, ·)
    | 'f' :: rest => (after? ['a', 'l', 's', 'e'] rest).map (bool false, ·)
    | text => (number? text).map fun (n, rest) => (number n, rest)

/-- The values of a list from the first one to the closing bracket. -/
def elements? : Nat → List Char → Option (List Json × List Char)
  | 0, _ => none
  | n + 1, text => do
    let (v, rest) ← value? n text
    match skipBlanks rest with
    | ',' :: rest =>
      let (vs, rest) ← elements? n rest
      pure (v :: vs, rest)
    | ']' :: rest => pure ([v], rest)
    | _ => none

/-- The members of an object from the first name to the closing brace. -/
def members? : Nat → List Char → Option (List (Option String × Json) × List Char)
  | 0, _ => none
  | n + 1, text => do
    let rest ← after? ['"'] (skipBlanks text)
    let (k, rest) ← string? rest
    let rest ← after? [':'] (skipBlanks rest)
    let (v, rest) ← value? n rest
    match skipBlanks rest with
    | ',' :: rest =>
      let (vs, rest) ← members? n rest
      pure ((k, v) :: vs, rest)
    | '\x7d' :: rest => pure ([(k, v)], rest)
    | _ => none

end

def parse? (text : String) : Option Json := do
  let chars := text.toList
  let (v, rest) ← value? (2 * chars.length + 2) chars
  if (skipBlanks rest).isEmpty then some v else none

end Freight.Json
