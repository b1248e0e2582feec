import NwscriptBindings.Proofs.Token.Lossless
import NwscriptBindings.Proofs.Token.Relex

namespace NwscriptBindings

theorem Scanner.lexemes_same {s other : Scanner} (rest : s.rest = other.rest)
    (context : s.context = other.context) :
    s.tokens.map Token.lexeme = other.tokens.map Token.lexeme := by
  fun_induction tokens s generalizing other with
  | case1 s ended =>
      rw [next?_none_iff, rest] at ended
      rw [tokens_of_empty ended]
  | case2 s t after found ih =>
      obtain ⟨c, behind, start, read⟩ := next?_lexeme found
      rw [rest] at start
      rw [context] at read
      obtain ⟨u, last, read, same, left, later⟩ := tokens_of_lexeme start read
      have going : after.context = last.context := by
        rw [next?_context found, later, context]
      rw [read, List.map_cons, List.map_cons, same, ih left.symm going]

namespace Scan

def lexemes (context : ScanContext) (text : List UInt8) : List Lexeme :=
  (Scanner.tokens { rest := text, context }).map Token.lexeme

theorem tokenize_lexemes (text : List UInt8) :
    (tokenize text).map Token.lexeme = lexemes {} text := rfl

theorem lexemes_nil (context : ScanContext) : lexemes context [] = [] := by
  rw [lexemes, Scanner.tokens_of_empty rfl]
  rfl

theorem lexemes_cons {context : ScanContext} {c : UInt8} {rest left : List UInt8} {l : Lexeme}
    (found : lexeme context c rest = (l, left)) :
    lexemes context (c :: rest) = l :: lexemes (context.after l) left := by
  let start : Scanner := { rest := c :: rest, context }
  obtain ⟨t, after, read, same, behind, later⟩ := Scanner.tokens_of_lexeme (s := start) rfl found
  have others : after.tokens.map Token.lexeme = lexemes (context.after l) left :=
    Scanner.lexemes_same behind later
  rw [lexemes, read, List.map_cons, same, others]

theorem lexemes_separator (context : ScanContext) (s : Separator) (rest : List UInt8) :
    lexemes context (byte s.char :: rest) =
      .separator s :: lexemes (context.after (.separator s)) rest :=
  lexemes_cons (lexeme_separator context rest s)

-- Blanks in front of a line leave it at its start.
theorem lexemes_spaces (n : Nat) (rest : List UInt8) :
    lexemes {} (List.replicate n (byte ' ') ++ rest) =
      List.replicate n (.separator .space) ++ lexemes {} rest := by
  induction n with
  | zero => rfl
  | succ n ih =>
      have first := lexemes_separator {} .space (List.replicate n (byte ' ') ++ rest)
      exact first.trans (congrArg (Lexeme.separator .space :: ·) ih)

end Scan
end NwscriptBindings
