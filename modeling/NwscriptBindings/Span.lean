import NwscriptBindings.Text.Bytes

namespace NwscriptBindings

structure Pos where
  line : UInt32
  col : UInt32
deriving DecidableEq

namespace Pos

-- Line zero marks a position that belongs to no text.
def zero : Pos := ⟨0, 0⟩

def start : Pos := ⟨1, 1⟩

def isValid (p : Pos) : Bool := p.line != 0

def before (p q : Pos) : Bool := p.line < q.line || (p.line == q.line && p.col < q.col)

-- A line end belongs to the line that it ends.
def advance (p : Pos) (c : UInt8) : Pos :=
  if c = Bytes.newline then ⟨p.line + 1, 1⟩ else ⟨p.line, p.col + 1⟩

def advanceBy (p : Pos) (text : List UInt8) : Pos := text.foldl advance p

def text (p : Pos) : List UInt8 :=
  Bytes.ofNat p.line.toNat ++ utf8 ":" ++ Bytes.ofNat p.col.toNat

end Pos

structure Span where
  first : Pos
  last : Pos
deriving DecidableEq

namespace Span

def zero : Span := ⟨.zero, .zero⟩

def isValid (s : Span) : Bool := s.first.isValid && s.last.isValid

def ofText (p : Pos) (text : List UInt8) : Span := ⟨p, p.advanceBy text.dropLast⟩

-- A span that is not valid adds nothing.
def join (s t : Span) : Span :=
  if !s.isValid then t
  else if !t.isValid then s
  else
    ⟨if t.first.before s.first then t.first else s.first,
      if s.last.before t.last then t.last else s.last⟩

def joinAll (spans : List Span) : Span := spans.foldl join zero

def text (s : Span) : List UInt8 := utf8 "line " ++ s.first.text ++ utf8 " to line " ++ s.last.text

end Span
end NwscriptBindings
