import NwscriptBindings.Number.Binary32

namespace NwscriptBindings

structure Decimal where
  coefficient : Nat
  exponent : Int
deriving DecidableEq

namespace Decimal

def digits (d : Decimal) : List UInt8 := Bytes.ofNat d.coefficient

def power (d : Decimal) : Int := d.exponent + d.digits.length - 1

def positional (d : Decimal) : List UInt8 :=
  let point := d.exponent + d.digits.length
  if 0 ≤ d.exponent then d.digits ++ List.replicate d.exponent.toNat (byte '0')
  else if 0 < point then d.digits.take point.toNat ++ utf8 "." ++ d.digits.drop point.toNat
  else utf8 "0." ++ List.replicate (-point).toNat (byte '0') ++ d.digits

def scientific (exponentDigits : Nat) (d : Decimal) : List UInt8 :=
  let fraction := d.digits.drop 1
  d.digits.take 1 ++ (if fraction.isEmpty then [] else utf8 "." ++ fraction) ++ utf8 "e" ++
    utf8 (if d.power < 0 then "-" else "+") ++ Digits.padded exponentDigits d.power.natAbs

-- How numbers are written: positionally if the power of the leading digit is at least `least` and
-- below `limit`, else with an exponent of at least `exponentDigits` digits.
structure Style where
  least : Int
  limit : Int
  exponentDigits : Nat

def render (style : Style) (d : Decimal) : List UInt8 :=
  if style.least ≤ d.power && d.power < style.limit then d.positional
  else d.scientific style.exponentDigits

def reduce : Nat → Decimal → Decimal
  | 0, d => d
  | times + 1, d =>
      if d.coefficient ≠ 0 ∧ d.coefficient % 10 = 0 then
        reduce times ⟨d.coefficient / 10, d.exponent + 1⟩
      else d

end Decimal

namespace Binary32

-- All lengths below are whole numbers of quarter units times this scale, under which every
-- decimal with nine significant digits near a single-precision number is whole too.
def gridScale : Nat := 54

-- The nearer one of the two neighbours on the grid, the even one if both are as near; none if
-- neither reads back.
def atPrecision? (v : Binary32) (count : Nat) : Option Decimal :=
  let unit := Nat.pow 2 v.exponent
  let scale := Nat.pow 10 gridScale
  let value := 4 * v.units * scale
  let above := value + 2 * unit * scale
  let gap := if v.significand = Nat.pow 2 23 ∧ v.exponent ≠ 0 then unit else 2 * unit
  let below := value - gap * scale
  let places := (Bytes.ofNat (value / (4 * one))).length - count
  let grid := Nat.pow 10 places * (4 * one)
  let low := value / grid
  let readsBack (n : Nat) : Bool :=
    if v.significand % 2 = 0 then below ≤ n * grid && n * grid ≤ above
    else below < n * grid && n * grid < above
  let exponent := (places : Int) - gridScale
  match readsBack low, readsBack (low + 1) with
  | false, false => none
  | true, false => some ⟨low, exponent⟩
  | false, true => some ⟨low + 1, exponent⟩
  | true, true => some ⟨Digits.roundDiv value grid, exponent⟩

def shortest (v : Binary32) : Decimal :=
  if v.significand = 0 then ⟨0, 0⟩
  else
    let found := ((List.range 9).findSome? fun i => v.atPrecision? (i + 1)).getD ⟨0, 0⟩
    found.reduce found.digits.length

def text (style : Decimal.Style) (v : Binary32) : List UInt8 :=
  (if v.negative then utf8 "-" else []) ++ v.shortest.render style

end Binary32
end NwscriptBindings
