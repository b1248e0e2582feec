import NwscriptBindings.Grammar.Statement

namespace NwscriptBindings

namespace Parser

def directiveDecl : Parser Decl := do
  match (← visible).lexeme with
  | .directive text => pure (.directive text)
  | _ => decline

def commentDecl : Parser Decl := do pure (.comment (← comment))

def functionDecl (forms : List StmtForm) : Parser Decl := do
  let sig ← signature
  (do separator .semicolon; pure (.prototype sig)) <|>
    (do pure (.function sig (← block (statement forms))))

def decl (forms : List StmtForm) : Parser Decl :=
  firstOf
    [directiveDecl, commentDecl, functionDecl forms, do pure (.var (← varDecl)),
      do pure (.struct (← structDecl))]

def endOfTokens : Parser Unit := fun tokens =>
  if tokens.all Token.isSpace then .accepted () tokens.length else .declined

def decls (forms : List StmtForm) : Parser (List (Traced Decl)) :=
  manyTill endOfTokens
    ((traced (decl forms)).orFail .strayAtTopLevel (·.dropWhile Token.isSpace))

end Parser

namespace ScriptUnit

def parseWith (forms : List StmtForm) (name : List UInt8) (lines : List (List UInt8))
    (tokens : List Token) : Except SyntaxError ScriptUnit :=
  match Parser.decls forms tokens with
  | .accepted decls _ => .ok ⟨name, decls, tokens⟩
  | .declined => .error (Failure.report lines tokens ⟨.strayAtTopLevel, tokens⟩)
  | .failed f => .error (f.report lines tokens)

def parse (name : List UInt8) (lines : List (List UInt8)) (tokens : List Token) :
    Except SyntaxError ScriptUnit :=
  parseWith StmtForm.order name lines tokens

end ScriptUnit
end NwscriptBindings
