import NwscriptBindings.Text.Bytes

namespace NwscriptBindings

structure Source where
  name : List UInt8
  lines : List (List UInt8)
deriving DecidableEq

namespace Source

-- Drops each carriage return that a line end follows directly, in one pass.
def unifyLineEnds : List UInt8 → List UInt8
  | [] => []
  | [c] => [c]
  | c :: d :: rest =>
      if c = byte '\r' ∧ d = Bytes.newline then d :: unifyLineEnds rest
      else c :: unifyLineEnds (d :: rest)

def ofText (name text : List UInt8) : Source := ⟨name, Bytes.lines (unifyLineEnds text)⟩

def text (s : Source) : List UInt8 := Bytes.unlines s.lines

def isEmpty (s : Source) : Bool := s.text.isEmpty

def lineAt (lines : List (List UInt8)) (n : UInt32) : List UInt8 :=
  if n = 0 then [] else lines.getD (n.toNat - 1) []

end Source
end NwscriptBindings
