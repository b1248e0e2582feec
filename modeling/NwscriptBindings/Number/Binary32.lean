import NwscriptBindings.Number.Digits

namespace NwscriptBindings

-- The one form of each magnitude: a full significand, or the least exponent.
def Binary32.Canonical (significand exponent : Nat) : Prop :=
  significand < Nat.pow 2 24 ∧ exponent ≤ 253 ∧ (Nat.pow 2 23 ≤ significand ∨ exponent = 0)

instance (significand exponent : Nat) : Decidable (Binary32.Canonical significand exponent) :=
  inferInstanceAs (Decidable (_ ∧ _ ∧ (_ ∨ _)))

structure Binary32 where
  negative : Bool
  significand : Nat
  exponent : Nat
  canonical : Binary32.Canonical significand exponent
deriving DecidableEq

namespace Binary32

def one : Nat := Nat.pow 2 149

def zero : Binary32 := ⟨false, 0, 0, by decide⟩

def units (v : Binary32) : Nat := v.significand * Nat.pow 2 v.exponent

def ofParts? (negative : Bool) (significand exponent : Nat) : Option Binary32 :=
  if h : Canonical significand exponent then some ⟨negative, significand, exponent, h⟩ else none

-- Ties go to the even significand; none if the number is too large.
def nearest? (negative : Bool) (num den : Nat) : Option Binary32 :=
  let exponent := (num * one / den).log2 - 23
  let significand := Digits.roundDiv (num * one) (den * Nat.pow 2 exponent)
  if significand = Nat.pow 2 24 then ofParts? negative (Nat.pow 2 23) (exponent + 1)
  else ofParts? negative significand exponent

def ofInt32 (n : Int32) : Binary32 :=
  (nearest? (decide (n < 0)) n.toInt.natAbs 1).getD zero

def toBits (v : Binary32) : UInt32 :=
  let sign := if v.negative then Nat.pow 2 31 else 0
  let magnitude :=
    if v.significand < Nat.pow 2 23 then v.significand
    else v.exponent * Nat.pow 2 23 + v.significand
  UInt32.ofNat (sign + magnitude)

-- At most one point, among the digits or behind them. Float marks at the end are skipped.
def ofText? (negative : Bool) (text : List UInt8) : Option Binary32 :=
  let spelled := Bytes.trimEnd (fun c => c == byte 'f' || c == byte 'F') text
  let whole := spelled.takeWhile Bytes.isDigit
  match spelled.dropWhile Bytes.isDigit with
  | [] => (Digits.decimal? whole).bind fun n => nearest? negative n 1
  | c :: fraction =>
      if c = byte '.' then
        (Digits.decimal? (whole ++ fraction)).bind fun n =>
          nearest? negative n (Nat.pow 10 fraction.length)
      else none

def fixed (places : Nat) (v : Binary32) : List UInt8 :=
  let scaled := Digits.roundDiv (v.units * Nat.pow 10 places) one
  Bytes.ofNat (scaled / Nat.pow 10 places) ++ utf8 "." ++
    Digits.padded places (scaled % Nat.pow 10 places)

end Binary32
end NwscriptBindings
