namespace NwscriptBindings

def utf8 (text : String) : List UInt8 := text.toByteArray.data.toList

abbrev byte (c : Char) : UInt8 := c.toUInt8

namespace Bytes

-- The line end. A carriage return in front of it is dropped when a source is loaded.
abbrev newline : UInt8 := byte '\n'

-- One more piece than there are occurrences.
def splitOn (sep : UInt8) : List UInt8 → List (List UInt8)
  | [] => [[]]
  | c :: rest =>
      if c = sep then [] :: splitOn sep rest
      else match splitOn sep rest with
        | [] => [[c]]
        | piece :: pieces => (c :: piece) :: pieces

-- A text that ends in a line end has an empty last line.
def lines (text : List UInt8) : List (List UInt8) := splitOn newline text

def unlines (ls : List (List UInt8)) : List UInt8 := List.intercalate [newline] ls

def endLines (ls : List (List UInt8)) : List UInt8 := ls.flatMap (· ++ [newline])

def trimEnd (drop : UInt8 → Bool) (text : List UInt8) : List UInt8 :=
  (text.reverse.dropWhile drop).reverse

def isBlank (c : UInt8) : Bool := c == byte ' ' || c == byte '\t'

def isDigit (c : UInt8) : Bool := byte '0' ≤ c && c ≤ byte '9'

def stripStart? (start text : List UInt8) : Option (List UInt8) :=
  if start.isPrefixOf text then some (text.drop start.length) else none

def stripStop? (stop text : List UInt8) : Option (List UInt8) :=
  if stop.isSuffixOf text then some (text.take (text.length - stop.length)) else none

def ofNat (n : Nat) : List UInt8 := (Nat.toDigits 10 n).map byte

def ofInt (n : Int) : List UInt8 :=
  if n < 0 then byte '-' :: ofNat n.natAbs else ofNat n.natAbs

def padEnd (width : Nat) (text : List UInt8) : List UInt8 :=
  text ++ List.replicate (width - text.length) (byte ' ')

-- Byte order, where a proper beginning comes first.
def le : List UInt8 → List UInt8 → Bool
  | [], _ => true
  | _ :: _, [] => false
  | a :: as, b :: bs => a < b || (a == b && le as bs)

end Bytes
end NwscriptBindings
