import NwscriptBindings.Text.Bytes

namespace NwscriptBindings

inductive Glyph where
  | char (c : Char)
  | stray (b : UInt8)
deriving DecidableEq

namespace Utf8

def isContinuation (b : UInt8) : Bool := 0x80 ≤ b && b ≤ 0xBF

def payload (b : UInt8) : Nat := b.toNat % 64

-- The character of a code point that needs at least `least`, the first one of its length.
def scalar? (least code : Nat) : Option Char :=
  if least ≤ code ∧ code.isValidChar then some (Char.ofNat code) else none

def charAt? (b : UInt8) (rest : List UInt8) : Option (Char × Nat) :=
  if b < 0x80 then (scalar? 0 b.toNat).map (·, 0)
  else if b < 0xC0 then none
  else if b < 0xE0 then
    match rest with
    | b1 :: _ =>
        if isContinuation b1 then
          (scalar? 0x80 (b.toNat % 32 * 64 + payload b1)).map (·, 1)
        else none
    | _ => none
  else if b < 0xF0 then
    match rest with
    | b1 :: b2 :: _ =>
        if isContinuation b1 && isContinuation b2 then
          (scalar? 0x800 ((b.toNat % 16 * 64 + payload b1) * 64 + payload b2)).map (·, 2)
        else none
    | _ => none
  else if b < 0xF8 then
    match rest with
    | b1 :: b2 :: b3 :: _ =>
        if isContinuation b1 && isContinuation b2 && isContinuation b3 then
          (scalar? 0x10000
            (((b.toNat % 8 * 64 + payload b1) * 64 + payload b2) * 64 + payload b3)).map (·, 3)
        else none
    | _ => none
  else none

def decode : List UInt8 → List Glyph
  | [] => []
  | b :: rest =>
      match charAt? b rest with
      | some (c, n) => .char c :: decode (rest.drop n)
      | none => .stray b :: decode rest
termination_by text => text.length
decreasing_by all_goals simp only [List.length_cons, List.length_drop]; omega

def isValid (text : List UInt8) : Bool :=
  (decode text).all fun
    | .char _ => true
    | .stray _ => false

def encodeChar (c : Char) : List UInt8 := String.utf8EncodeChar c

-- Shown in place of a byte that belongs to no character.
def replacement : Char := Char.ofNat 0xFFFD

end Utf8
end NwscriptBindings
