import NwscriptBindings.Diagnostic
import NwscriptBindings.Source
import NwscriptBindings.Tree.Basic

namespace NwscriptBindings

inductive Problem where
  | strayAtTopLevel
  | strayInBlock
  | missingStatement
  | missingWhile
  | endOfInput
  | directiveInBlock
  | structInBlock
deriving DecidableEq

namespace Problem

def message : Problem → String
  | strayAtTopLevel => "unexpected token at top level"
  | strayInBlock => "unexpected token in block"
  | missingStatement => "expected statement"
  | missingWhile => "expected while after do body"
  | endOfInput => "unexpected end of input"
  | directiveInBlock => "preprocessor directive in block: unsupported construct"
  | structInBlock => "struct declaration in block: unsupported construct"

def isUnsupported : Problem → Bool
  | directiveInBlock | structInBlock => true
  | _ => false

end Problem

structure SyntaxError where
  problem : Problem
  token : Token
  line : List UInt8
deriving DecidableEq

namespace SyntaxError

def diagnostic (e : SyntaxError) : Diagnostic :=
  ⟨e.token.span, e.token, utf8 e.problem.message, e.line⟩

end SyntaxError

structure Failure where
  problem : Problem
  place : List Token
deriving DecidableEq

-- At the end of the input the last token stands for what is missing.
def Failure.report (lines : List (List UInt8)) (tokens : List Token) (f : Failure) : SyntaxError :=
  match f.place, tokens.getLast? with
  | t :: _, _ => ⟨f.problem, t, Source.lineAt lines t.span.first.line⟩
  | [], some t => ⟨.endOfInput, t, Source.lineAt lines t.span.first.line⟩
  | [], none => ⟨f.problem, .blank, []⟩

inductive Outcome (α : Type) where
  | accepted (value : α) (count : Nat)
  | declined
  | failed (f : Failure)
deriving DecidableEq

namespace Outcome

variable {α β : Type}

def after (count : Nat) (change : α → β) : Outcome α → Outcome β
  | accepted a n => accepted (change a) (count + n)
  | declined => declined
  | failed f => failed f

end Outcome

def Parser (α : Type) := List Token → Outcome α

namespace Parser

variable {α β : Type}

def bind (p : Parser α) (f : α → Parser β) : Parser β := fun tokens =>
  match p tokens with
  | .accepted a n => (f a (tokens.drop n)).after n id
  | .declined => .declined
  | .failed e => .failed e

instance : Monad Parser where
  pure a := fun _ => .accepted a 0
  bind := Parser.bind

def orElse (p q : Parser α) : Parser α := fun tokens =>
  match p tokens with
  | .declined => q tokens
  | outcome => outcome

instance : OrElse (Parser α) := ⟨fun p q => p.orElse (q ())⟩

def decline : Parser α := fun _ => .declined

def firstOf : List (Parser α) → Parser α
  | [] => decline
  | p :: ps => p.orElse (firstOf ps)

def ofOption : Option α → Parser α
  | some a => pure a
  | none => decline

def ensure (condition : Bool) : Parser Unit := if condition then pure () else decline

def optional (p : Parser α) : Parser (Option α) := fun tokens =>
  match p tokens with
  | .accepted a n => .accepted (some a) n
  | .declined => .accepted none 0
  | .failed e => .failed e

def orFail (problem : Problem) (place : List Token → List Token) (p : Parser α) : Parser α :=
  fun tokens =>
    match p tokens with
    | .declined => .failed ⟨problem, place tokens⟩
    | outcome => outcome

def withTokens (p : Parser (List Token → α)) : Parser α := fun tokens =>
  match p tokens with
  | .accepted f n => .accepted (f ((tokens.take n).dropWhile Token.isSpace)) n
  | .declined => .declined
  | .failed e => .failed e

def traced (p : Parser α) : Parser (Traced α) := withTokens do
  let content ← p
  pure fun tokens => ⟨content, tokens⟩

-- An item that accepts no token declines the list, so that it is finite.
def manyTill (stop : Parser Unit) (item : Parser α) (tokens : List Token) : Outcome (List α) :=
  match stop tokens with
  | .accepted _ n => .accepted [] n
  | .failed e => .failed e
  | .declined =>
      match item tokens with
      | .declined => .declined
      | .failed e => .failed e
      | .accepted a n =>
          if 0 < n ∧ tokens ≠ [] then
            (manyTill stop item (tokens.drop n)).after n (a :: ·)
          else .declined
termination_by tokens.length
decreasing_by
  rename_i progress
  have := List.length_pos_iff.mpr progress.2
  rw [List.length_drop]
  omega

def nextAfter (skip : Token → Bool) : Parser Token := fun tokens =>
  match tokens.dropWhile skip with
  | [] => .declined
  | t :: _ => .accepted t ((tokens.takeWhile skip).length + 1)

def significant : Parser Token := nextAfter Token.isTrivia

-- Comments count here.
def visible : Parser Token := nextAfter Token.isSpace

def adjacent : Parser Token := nextAfter fun _ => false

def lexeme (l : Lexeme) : Parser Unit := do
  let t ← significant
  ensure (t.lexeme == l)

def separator (s : Separator) : Parser Unit := lexeme (.separator s)

def operator (o : Operator) : Parser Unit := lexeme (.operator o)

def keyword (k : Keyword) : Parser Unit := lexeme (.keyword k)

def word : Parser (List UInt8) := do
  match (← significant).lexeme with
  | .word text => pure text
  | _ => decline

def touching (o : Operator) : Parser Unit := do
  let t ← adjacent
  ensure (t.lexeme == .operator o)

-- Accepts nothing, and only where no such operator stands directly behind.
def notTouching (o : Operator) : Parser Unit := fun tokens =>
  match touching o tokens with
  | .accepted _ _ => .declined
  | _ => .accepted () 0

end Parser
end NwscriptBindings
