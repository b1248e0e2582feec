import NwscriptBindings.Grammar.Outcome

namespace NwscriptBindings

-- A brace, a parenthesis that closes nothing and the end of the input leave no range; blanks and
-- line ends never stop one.
def rangeUpTo (stop : Separator) : Nat → List Token → Option (List Token)
  | _, [] => none
  | depth, t :: rest =>
      let keep (depth : Nat) := (rangeUpTo stop depth rest).map (t :: ·)
      match t.lexeme with
      | .separator s =>
          if s.isSpace then keep depth
          else if s = stop ∧ depth = 0 then some []
          else match s, depth with
            | .openParen, depth => keep (depth + 1)
            | .closeParen, 0 => none
            | .closeParen, depth + 1 => keep depth
            | .openBrace, _ | .closeBrace, _ => none
            | _, depth => keep depth
      | _ => keep depth

def rangeEnclosed : Nat → List Token → Option (List Token)
  | _, [] => none
  | depth, t :: rest =>
      let keep (depth : Nat) := (rangeEnclosed depth rest).map (t :: ·)
      match t.lexeme with
      | .separator s =>
          match s, depth with
          | .openParen, depth => keep (depth + 1)
          | .closeParen, 0 => some []
          | .closeParen, depth + 1 => keep depth
          | .semicolon, _ | .openBrace, _ | .closeBrace, _ => none
          | _, depth => keep depth
      | _ => keep depth

namespace Expr

def isOperator (t : Token) : Bool := t.kind == .operator

-- Keywords and words take a space behind them.
def isWordLike (t : Token) : Bool := t.kind == .keyword || t.kind == .word

def write (afterOperator gap : Bool) : List Token → List UInt8
  | [] => []
  | t :: rest =>
      if t.isTrivia then write afterOperator true rest
      else
        (if gap && afterOperator && isOperator t then utf8 " " else []) ++ t.raw ++
          (if isWordLike t then utf8 " " else []) ++ write (isOperator t) false rest

def textOf (range : List Token) : List UInt8 :=
  Bytes.trimEnd (· == byte ' ') (write false false range)

end Expr

def trimTrivia (range : List Token) : List Token :=
  ((range.dropWhile Token.isTrivia).reverse.dropWhile Token.isTrivia).reverse

namespace Parser

def arithmetic (stop : Separator) : Parser (Traced Expr) := fun tokens =>
  match rangeUpTo stop 0 tokens with
  | some range =>
      .accepted ⟨⟨.arithmetic, Expr.textOf range⟩, trimTrivia range⟩ (range.length + 1)
  | none => .declined

def enclosed : Parser (Traced Expr) := fun tokens =>
  match rangeEnclosed 0 tokens with
  | some range =>
      .accepted ⟨⟨.logical, Expr.textOf range⟩, range.dropWhile Token.isSpace⟩ (range.length + 1)
  | none => .declined

def logical : Parser (Traced Expr) := do
  separator .openParen
  enclosed

def assigned : Parser (Traced Expr) := do
  let e ← arithmetic .semicolon
  ensure (!e.content.text.isEmpty)
  pure e

end Parser
end NwscriptBindings
