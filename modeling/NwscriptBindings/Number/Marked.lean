import NwscriptBindings.Text.Bytes

namespace NwscriptBindings.Marked

inductive Fault where
  | malformed
  | outOfRange
deriving DecidableEq

def digit? (c : UInt8) : Option Nat :=
  if Bytes.isDigit c then some (c.toNat - (byte '0').toNat)
  else if byte 'a' ≤ c && c ≤ byte 'z' then some (c.toNat - (byte 'a').toNat + 10)
  else if byte 'A' ≤ c && c ≤ byte 'Z' then some (c.toNat - (byte 'A').toNat + 10)
  else none

def baseOf? (c : UInt8) : Option Nat :=
  if c = byte 'b' ∨ c = byte 'B' then some 2
  else if c = byte 'o' ∨ c = byte 'O' then some 8
  else if c = byte 'x' ∨ c = byte 'X' then some 16
  else none

def base (text : List UInt8) : Nat × List UInt8 :=
  match text with
  | c :: rest =>
      if c = byte '0' then
        match rest with
        | d :: e :: more => ((baseOf? d).map (·, e :: more)).getD (8, rest)
        | _ => (8, rest)
      else (10, text)
  | [] => (10, [])

def limit : Nat := Nat.pow 2 64

-- A number that grows too large is noticed before what follows.
def magnitude (base : Nat) : Nat → List UInt8 → Except Fault Nat
  | n, [] => .ok n
  | n, c :: rest =>
      if c = byte '_' then magnitude base n rest
      else
        match digit? c with
        | none => .error .malformed
        | some d =>
            if base ≤ d then .error .malformed
            else if limit ≤ n * base + d then .error .outOfRange
            else magnitude base (n * base + d) rest

def separated : Bool → List UInt8 → Bool
  | _, [] => true
  | after, c :: rest =>
      if c = byte '_' then
        after && rest.head?.any (· != byte '_') && separated false rest
      else separated true rest

-- A mark of two bytes counts as a digit in front of an underscore, a leading zero is one.
def wellSeparated (text : List UInt8) : Bool :=
  match text with
  | c :: d :: rest =>
      if c = byte '0' ∧ (baseOf? d).isSome then separated true rest else separated false text
  | _ => separated false text

def unsigned (text : List UInt8) : Except Fault Nat :=
  if text.isEmpty then .error .malformed
  else
    match magnitude (base text).1 0 (base text).2 with
    | .error fault => .error fault
    | .ok n => if wellSeparated text then .ok n else .error .malformed

def integer (text : List UInt8) : Except Fault Int :=
  let negative := text.head? == some (byte '-')
  let signed := negative || text.head? == some (byte '+')
  match unsigned (if signed then text.tail else text) with
  | .error fault => .error fault
  | .ok n =>
      if negative then if n ≤ Nat.pow 2 63 then .ok (-n) else .error .outOfRange
      else if n < Nat.pow 2 63 then .ok n else .error .outOfRange

end NwscriptBindings.Marked
