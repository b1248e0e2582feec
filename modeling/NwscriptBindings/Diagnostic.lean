import NwscriptBindings.Token.Basic

namespace NwscriptBindings

structure Warning where
  span : Span
  message : List UInt8
deriving DecidableEq

namespace Warning

def text (w : Warning) : List UInt8 := w.span.first.text ++ utf8 ": warning: " ++ w.message

end Warning

namespace Token

def warning? (t : Token) : Option Warning :=
  t.lexeme.defect?.map fun defect => ⟨t.span, utf8 defect⟩

end Token

structure Diagnostic where
  span : Span
  token : Token
  message : List UInt8
  line : List UInt8
deriving DecidableEq

namespace Diagnostic

def fillers (shown : List UInt8) (count : Nat) : List UInt8 :=
  (List.range count).map fun i => if shown[i]? = some (byte '\t') then byte '\t' else byte ' '

-- Carets under the span, up to the end of the line if the span goes on behind it, and at least one.
def caretLine (line : List UInt8) (span : Span) : List UInt8 :=
  let start := max span.first.col.toNat 1
  let stop := if span.last.line = span.first.line then span.last.col.toNat else line.length
  fillers line (start - 1) ++ List.replicate (max (stop + 1 - start) 1) (byte '^')

def headline (d : Diagnostic) : List UInt8 := d.span.first.text ++ utf8 ": " ++ d.message

def report (d : Diagnostic) : List (List UInt8) :=
  [d.message, utf8 "on token " ++ d.token.describe, utf8 "at " ++ d.span.text, d.line,
    caretLine d.line d.span]

end Diagnostic
end NwscriptBindings
