import NwscriptBindings.Text.Bytes

namespace NwscriptBindings.Digits

def value (c : UInt8) : Nat :=
  if Bytes.isDigit c then c.toNat - (byte '0').toNat
  else if byte 'a' ≤ c && c ≤ byte 'f' then c.toNat - (byte 'a').toNat + 10
  else if byte 'A' ≤ c && c ≤ byte 'F' then c.toNat - (byte 'A').toNat + 10
  else 0

def isHex (c : UInt8) : Bool :=
  Bytes.isDigit c || (byte 'a' ≤ c && c ≤ byte 'f') || (byte 'A' ≤ c && c ≤ byte 'F')

def toNat (base : Nat) (digits : List UInt8) : Nat :=
  digits.foldl (fun n c => n * base + value c) 0

def decimal? (text : List UInt8) : Option Nat :=
  if text.isEmpty || !text.all Bytes.isDigit then none else some (toNat 10 text)

def hex? (text : List UInt8) : Option Nat :=
  if text.isEmpty || !text.all isHex then none else some (toNat 16 text)

def read? (base : Nat) (digits : List UInt8) : Option Nat :=
  if base = 16 then hex? digits else decimal? digits

-- The base of a numeral and its digits. A hexadecimal mark counts only if something follows it.
def based (text : List UInt8) : Nat × List UInt8 :=
  match text with
  | c :: x :: d :: rest =>
      if c = byte '0' ∧ (x = byte 'x' ∨ x = byte 'X') then (16, d :: rest) else (10, text)
  | _ => (10, text)

def minus : List UInt8 := utf8 "-"

def dropMinus (text : List UInt8) : List UInt8 := (Bytes.stripStart? minus text).getD text

-- Digits behind an optional minus, between the least and the greatest signed word.
def signed32? (base : Nat) (text : List UInt8) : Option Int32 :=
  match Bytes.stripStart? minus text with
  | some digits => (read? base digits).bind fun n =>
      if n ≤ Nat.pow 2 31 then some (Int32.ofInt (-(n : Int))) else none
  | none => (read? base text).bind fun n =>
      if n < Nat.pow 2 31 then some (Int32.ofNat n) else none

def unsigned32? (base : Nat) (digits : List UInt8) : Option UInt32 :=
  (read? base digits).bind fun n => if n < Nat.pow 2 32 then some (UInt32.ofNat n) else none

-- What no signed word holds is read as an unsigned one without its sign, whose bits are taken for
-- those of a signed word.
def word32? (text : List UInt8) : Option Int32 :=
  let negative := minus.isPrefixOf text
  let (base, plain) := based (dropMinus text)
  let digits := if negative then minus ++ plain else plain
  (signed32? base digits).or ((unsigned32? base (dropMinus digits)).map fun u =>
    if negative then -u.toInt32 else u.toInt32)

-- The whole number nearest to a quotient; a tie goes to the even neighbour.
def roundDiv (num den : Nat) : Nat :=
  let floor := num / den
  let left := num % den
  if 2 * left < den then floor
  else if den < 2 * left then floor + 1
  else if floor % 2 = 0 then floor else floor + 1

def padded (width n : Nat) : List UInt8 :=
  let digits := Bytes.ofNat n
  List.replicate (width - digits.length) (byte '0') ++ digits

end NwscriptBindings.Digits
