import NwscriptBindings.Text.Printable
import NwscriptBindings.Text.Utf8

namespace NwscriptBindings.Quoted

def hexDigit (n : Nat) : UInt8 := byte (Nat.digitChar (n % 16))

def hex : Nat → Nat → List UInt8
  | 0, _ => []
  | width + 1, n => hex width (n / 16) ++ [hexDigit n]

def escapeLetter? (c : Char) : Option UInt8 :=
  if c = '\x07' then some (byte 'a')
  else if c = '\x08' then some (byte 'b')
  else if c = '\x0c' then some (byte 'f')
  else if c = '\n' then some (byte 'n')
  else if c = '\r' then some (byte 'r')
  else if c = '\t' then some (byte 't')
  else if c = '\x0b' then some (byte 'v')
  else if c = '\\' then some (byte '\\')
  else if c = '"' then some (byte '"')
  else none

def glyph : Glyph → List UInt8
  | .stray b => utf8 "\\x" ++ hex 2 b.toNat
  | .char c =>
      match escapeLetter? c with
      | some letter => [byte '\\', letter]
      | none =>
          if Printable.isPrintable c then Utf8.encodeChar c
          else if c.toNat < 0x80 then utf8 "\\x" ++ hex 2 c.toNat
          else if c.toNat < 0x10000 then utf8 "\\u" ++ hex 4 c.toNat
          else utf8 "\\U" ++ hex 8 c.toNat

def quote (text : List UInt8) : List UInt8 :=
  utf8 "\"" ++ (Utf8.decode text).flatMap glyph ++ utf8 "\""

def cellGlyph : Glyph → List UInt8
  | .stray _ => Utf8.encodeChar Utf8.replacement
  | .char c =>
      if c = '\n' then utf8 "\\n"
      else if c = '\t' then utf8 "\\t"
      else if c = '\r' then utf8 "\\r"
      else if c = '\\' then utf8 "\\\\"
      else if c = '"' then utf8 "\\\""
      else Utf8.encodeChar c

def quoteCell (text : List UInt8) : List UInt8 :=
  utf8 "\"" ++ (Utf8.decode text).flatMap cellGlyph ++ utf8 "\""

end NwscriptBindings.Quoted
