import NwscriptBindings.Grammar.Capture
import NwscriptBindings.Grammar.Literal

namespace NwscriptBindings.Parser

def scriptType : Parser ScriptType := do
  match (← significant).lexeme with
  | .keyword .structWord => do pure (.struct (← word))
  | .keyword (.basic type) => pure (.basic type)
  | _ => decline

-- An equals sign that does not begin a comparison.
def plainEquals : Parser Unit := do
  operator .equals
  notTouching .equals

-- What ends a variable: a semicolon unless it is constant, or an initial value.
def initializer (isConst : Bool) : Parser (Option (Traced Expr)) :=
  (do ensure (!isConst); separator .semicolon; pure none) <|>
    (do plainEquals; pure (some (← assigned)))

def varDecl : Parser VarDecl := do
  let isConst := (← optional (keyword .constWord)).isSome
  let type ← traced scriptType
  let name ← word
  let init ← initializer isConst
  pure ⟨type, name, init, isConst⟩

def structField : Parser VarDecl := do
  let d ← varDecl
  ensure (d.init.isNone && !d.isConst)
  pure d

def structDecl : Parser StructDecl := do
  keyword .structWord
  let name ← word
  separator .openBrace
  let fields ← manyTill (separator .closeBrace) (traced structField)
  separator .semicolon
  pure ⟨name, fields⟩

def default : Parser (Option (Traced Value)) := do
  match ← optional (operator .equals) with
  | some () => do pure (some (← traced value))
  | none => pure none

def param : Parser Param := do
  let type ← traced scriptType
  let name ← word
  let default ← default
  pure ⟨type, name, default⟩

def followingParam : Parser (Traced Param) := do
  separator .comma
  traced param

def someParams : Parser (List (Traced Param)) := do
  let first ← traced param
  let others ← manyTill (separator .closeParen) followingParam
  pure (first :: others)

def signature : Parser Signature := do
  let result ← traced scriptType
  let name ← word
  separator .openParen
  let params ← (do separator .closeParen; pure []) <|> someParams
  pure ⟨result, name, params⟩

end NwscriptBindings.Parser
