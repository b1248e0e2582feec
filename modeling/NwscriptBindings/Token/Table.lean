import NwscriptBindings.Source
import NwscriptBindings.Token.Basic

namespace NwscriptBindings.Token

structure Mismatch where
  number : Nat
  rebuilt : List UInt8
  expected : List UInt8
deriving DecidableEq

namespace Mismatch

def text (m : Mismatch) : List UInt8 :=
  utf8 "round-trip mismatch at line " ++ Bytes.ofNat m.number ++ utf8 ": " ++
    Quoted.quote m.rebuilt ++ utf8 " != " ++ Quoted.quote m.expected

end Mismatch

-- A line that one side lacks counts as empty.
def mismatches (source : Source) (tokens : List Token) : List Mismatch :=
  let rebuilt := Bytes.lines (rawText tokens)
  (List.range (max rebuilt.length source.lines.length)).filterMap fun i =>
    let found := rebuilt.getD i []
    let expected := source.lines.getD i []
    if found = expected then none else some ⟨i + 1, found, expected⟩

def tableRow (span kind text : List UInt8) : List UInt8 :=
  Bytes.padEnd 28 span ++ utf8 " " ++ Bytes.padEnd 12 kind ++ utf8 " " ++ text

def tableHead : List (List UInt8) :=
  [tableRow (utf8 "SPAN") (utf8 "KIND") (utf8 "TEXT"),
    tableRow (List.replicate 28 (byte '-')) (List.replicate 12 (byte '-'))
      (List.replicate 20 (byte '-'))]

def tokenRow (t : Token) : List UInt8 :=
  tableRow t.span.text (utf8 t.kind.name) (Quoted.quoteCell t.raw)

def table (tokens : List Token) : List UInt8 :=
  Bytes.endLines (tableHead ++ tokens.map tokenRow)

end NwscriptBindings.Token
