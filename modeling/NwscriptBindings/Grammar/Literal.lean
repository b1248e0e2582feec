import NwscriptBindings.Grammar.Outcome

namespace NwscriptBindings

def signText (negative : Bool) : List UInt8 := if negative then utf8 "-" else []

def intValue? (negative : Bool) (text : List UInt8) : Option Int32 :=
  Digits.word32? (signText negative ++ text)

namespace Parser

def numberLiteral (negative : Bool) : RawLiteral → Option Literal
  | .int text => (intValue? negative text).map fun v => .int v (signText negative ++ text)
  | .float text =>
      (Binary32.ofText? negative text).map fun v => .float v (signText negative ++ text)
  | .string _ _ => none

def unsigned (negative : Bool) : Parser Literal := do
  match (← significant).lexeme with
  | .literal l => ofOption (numberLiteral negative l)
  | _ => decline

def number : Parser Literal :=
  (do operator .minus; unsigned true) <|> unsigned false

def coordinate : Parser Binary32 := do
  match ← number with
  | .int v _ => pure (.ofInt32 v)
  | .float v _ => pure v
  | _ => decline

def vectorBody : Parser Literal := do
  let x ← coordinate
  separator .comma
  let y ← coordinate
  separator .comma
  let z ← coordinate
  separator .closeBracket
  pure (.vector x y z)

def vector : Parser Literal := do
  separator .openBracket
  (do separator .closeBracket; pure (.vector .zero .zero .zero)) <|> vectorBody

def stringLiteral : Parser Literal := do
  match (← significant).lexeme with
  | .literal (.string body _) => pure (.string body)
  | _ => decline

def literal : Parser Literal :=
  firstOf
    [do keyword .objectSelf; pure .objectSelf,
      do keyword .objectInvalid; pure .objectInvalid,
      vector, stringLiteral, number]

def value : Parser Value :=
  (do pure (.literal (← literal))) <|> (do pure (.reference (← word)))

end Parser

def literalOf? (tokens : List Token) : Option (Traced Literal) :=
  match Parser.traced Parser.literal tokens with
  | .accepted l n => if (tokens.drop n).all Token.isSpace then some l else none
  | _ => none

end NwscriptBindings
