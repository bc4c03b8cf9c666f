/-!
# UTF-8

Decoding of bytes, with the position and the extent of the first sequence that is not well formed. A
lead byte says how many bytes follow and where the first of them must lie, so that each character
has one encoding and no surrogate has any. A sequence is *invalid* if a byte cannot stand where it
stands; its extent is the number of bytes that could. It is *incomplete* if the bytes end first.
-/

namespace Freight.Utf8

/-- Why bytes are not UTF-8. -/
inductive Malformed where
  /-- So many bytes from an index on could stand together, and the next one cannot. -/
  | invalid (extent index : Nat)
  /-- The bytes end inside the sequence that starts at an index. -/
  | incomplete (index : Nat)
deriving DecidableEq

def Malformed.message : Malformed → String
  | invalid extent index => s!"invalid utf-8 sequence of {extent} bytes from index {index}"
  | incomplete index => s!"incomplete utf-8 byte sequence from index {index}"

/-- A sequence that has begun: how many bytes it still needs, between which values the next one must
lie, how many it has, and the bits read so far. -/
structure Pending where
  /-- The number of bytes still to come. -/
  owed : Nat
  low : Nat
  high : Nat
  taken : Nat
  bits : Nat

/-- What a byte of `0x80` or more begins. -/
def lead? (b : Nat) : Option Pending :=
  if 0xC2 ≤ b ∧ b ≤ 0xDF then some ⟨1, 0x80, 0xBF, 1, b - 0xC0⟩
  else if b = 0xE0 then some ⟨2, 0xA0, 0xBF, 1, b - 0xE0⟩
  else if b = 0xED then some ⟨2, 0x80, 0x9F, 1, b - 0xE0⟩
  else if 0xE1 ≤ b ∧ b ≤ 0xEF then some ⟨2, 0x80, 0xBF, 1, b - 0xE0⟩
  else if b = 0xF0 then some ⟨3, 0x90, 0xBF, 1, b - 0xF0⟩
  else if 0xF1 ≤ b ∧ b ≤ 0xF3 then some ⟨3, 0x80, 0xBF, 1, b - 0xF0⟩
  else if b = 0xF4 then some ⟨3, 0x80, 0x8F, 1, b - 0xF0⟩
  else none

/-- The characters of the bytes from an index on, where a sequence that starts at the index may have
begun. -/
def decodeFrom (index : Nat) : Option Pending → List Nat → Except Malformed (List Char)
  | none, [] => .ok []
  | some _, [] => .error (.incomplete index)
  | none, b :: rest =>
    if b < 0x80 then (decodeFrom (index + 1) none rest).map (Char.ofNat b :: ·)
    else match lead? b with
      | some p => decodeFrom index (some p) rest
      | none => .error (.invalid 1 index)
  | some p, b :: rest =>
    if p.low ≤ b ∧ b ≤ p.high then
      let bits := p.bits * 64 + (b - 0x80)
      if p.owed ≤ 1 then
        (decodeFrom (index + p.taken + 1) none rest).map (Char.ofNat bits :: ·)
      else decodeFrom index (some ⟨p.owed - 1, 0x80, 0xBF, p.taken + 1, bits⟩) rest
    else .error (.invalid p.taken index)

def decode (bytes : List Nat) : Except Malformed String :=
  (decodeFrom 0 none bytes).map String.ofList

end Freight.Utf8
