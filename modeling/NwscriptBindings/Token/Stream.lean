import NwscriptBindings.Diagnostic
import NwscriptBindings.Token.Scan

namespace NwscriptBindings

structure Scanner where
  rest : List UInt8
  context : ScanContext := {}
  pos : Pos := .start

namespace Scanner

def next? (s : Scanner) : Option (Token × Scanner) :=
  match s.rest with
  | [] => none
  | c :: rest =>
      let found := Scan.lexeme s.context c rest
      some (⟨found.1, .ofText s.pos found.1.raw⟩,
        ⟨found.2, s.context.after found.1, s.pos.advanceBy found.1.raw⟩)

theorem next?_parts (s after : Scanner) (t : Token) (accepted : s.next? = some (t, after)) :
    t.raw ≠ [] ∧ t.raw ++ after.rest = s.rest := by
  unfold next? at accepted
  split at accepted
  · cases accepted
  · rename_i c rest left
    cases accepted
    exact ⟨Scan.raw_lexeme_ne_nil _ _ _, by rw [left]; exact Scan.raw_lexeme_append _ _ _⟩

theorem next?_shorter (s after : Scanner) (t : Token) (accepted : s.next? = some (t, after)) :
    after.rest.length < s.rest.length := by
  obtain ⟨nonempty, parts⟩ := next?_parts s after t accepted
  have positive := List.length_pos_iff.mpr nonempty
  rw [← parts, List.length_append]
  omega

def tokens (s : Scanner) : List Token :=
  match _found : s.next? with
  | none => []
  | some (t, after) => t :: after.tokens
termination_by s.rest.length
decreasing_by exact next?_shorter _ _ _ _found

end Scanner

def tokenize (text : List UInt8) : List Token := Scanner.tokens { rest := text }

def warnings (tokens : List Token) : List Warning := tokens.filterMap Token.warning?

-- A scanner that remembers the last token it read and the warnings so far.
structure Reading where
  scanner : Scanner
  current : Token := .blank
  warnings : List Warning := []

namespace Reading

def ofText (text : List UInt8) : Reading := { scanner := { rest := text } }

def advance? (r : Reading) : Option Reading :=
  r.scanner.next?.map fun (t, after) => ⟨after, t, r.warnings ++ t.warning?.toList⟩

end Reading
end NwscriptBindings
