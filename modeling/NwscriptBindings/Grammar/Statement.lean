import NwscriptBindings.Grammar.Declaration

namespace NwscriptBindings

inductive StmtForm where
  | block | var | assign | step | call | whileLoop | forLoop | doLoop | ifThen
  | leave | switch | label | branch | unsupported
deriving DecidableEq

namespace StmtForm

-- The order in which forms are tried.
def order : List StmtForm :=
  [block, var, assign, step, call, whileLoop, forLoop, doLoop, ifThen, leave, switch, label,
    branch, unsupported]

end StmtForm

namespace Parser

def comment : Parser Comment := do
  match (← visible).lexeme with
  | .comment c => pure c
  | _ => decline

def variableName : Parser (Traced (List UInt8)) := traced word

def compoundOp? : Operator → Option AssignOp
  | .plus => some .add
  | .minus => some .sub
  | .star => some .mul
  | .slash => some .div
  | .percent => some .mod
  | .ampersand => some .and
  | .pipe => some .or
  | _ => none

def compoundOp : Parser AssignOp := do
  match (← significant).lexeme with
  | .operator o =>
      match compoundOp? o with
      | some op => do touching .equals; pure op
      | none => decline
  | _ => decline

def assignOp : Parser AssignOp := (do plainEquals; pure .set) <|> compoundOp

def doubled : Parser Bool :=
  (do operator .plus; touching .plus; pure true) <|>
    (do operator .minus; touching .minus; pure false)

section forms

-- `nested` reads what nests in a statement: any statement that is not a comment.
variable (nested : Parser Stmt)

def body : Parser Stmt := nested.orFail .missingStatement (·.dropWhile Token.isTrivia)

def item : Parser Stmt :=
  (withTokens do let c ← comment; pure fun tokens => .comment c tokens).orElse nested
    |>.orFail .strayInBlock (·.dropWhile Token.isSpace)

-- Comments in front of the brace are statements of the block.
def blockEnd : Parser Unit := do
  let t ← visible
  ensure (t.lexeme == .separator .closeBrace)

def block : Parser (Traced (List Stmt)) := traced do
  separator .openBrace
  manyTill blockEnd (item nested)

def blockStmt : Parser Stmt := do
  let b ← block nested
  pure (.block b.content b.tokens)

def varStmt : Parser Stmt := withTokens do
  let d ← varDecl
  pure fun tokens => .var d tokens

def assignStmt : Parser Stmt := withTokens do
  let target ← variableName
  let op ← assignOp
  let value ← assigned
  pure fun tokens => .assign target op value tokens

def preStep : Parser (Traced (List UInt8) × StepOp) := do
  let up ← doubled
  let target ← variableName
  pure (target, if up then .preUp else .preDown)

def postStep : Parser (Traced (List UInt8) × StepOp) := do
  let target ← variableName
  let up ← doubled
  pure (target, if up then .postUp else .postDown)

def stepStmt : Parser Stmt := withTokens do
  let (target, op) ← preStep <|> postStep
  separator .semicolon
  pure fun tokens => .step target op tokens

def callStmt : Parser Stmt := withTokens do
  let name ← word
  let args ← logical
  separator .semicolon
  pure fun tokens => .call name args tokens

def whileStmt : Parser Stmt := withTokens do
  keyword .whileWord
  let cond ← logical
  let body ← body nested
  pure fun tokens => .whileLoop cond body tokens

def forStmt : Parser Stmt := withTokens do
  keyword .forWord
  separator .openParen
  let init ← arithmetic .semicolon
  let cond ← arithmetic .semicolon
  let post ← arithmetic .closeParen
  let body ← body nested
  pure fun tokens => .forLoop init cond post body tokens

def doStmt : Parser Stmt := withTokens do
  keyword .doWord
  let body ← body nested
  (keyword .whileWord).orFail .missingWhile (·.dropWhile Token.isSpace)
  let cond ← logical
  separator .semicolon
  pure fun tokens => .doLoop body cond tokens

def otherwise : Parser (Traced Stmt) := traced do
  keyword .elseWord
  body nested

def ifStmt : Parser Stmt := withTokens do
  keyword .ifWord
  let cond ← logical
  let body ← body nested
  match ← optional (otherwise nested) with
  | some other => pure fun tokens => .ifElse cond body other.content other.tokens tokens
  | none => pure fun tokens => .ifThen cond body tokens

def leaveStmt : Parser Stmt := withTokens do
  keyword .returnWord
  let result ←
    (do separator .semicolon; pure none) <|> (do pure (some (← arithmetic .semicolon)))
  pure fun tokens => .leave result tokens

def switchStmt : Parser Stmt := withTokens do
  keyword .switchWord
  let tag ← logical
  let b ← block nested
  pure fun tokens => .switch tag b.content b.tokens tokens

def labelStmt : Parser Stmt := withTokens do
  let value ←
    (do keyword .defaultWord; pure none) <|>
      (do keyword .caseWord; pure (some (← traced value)))
  operator .colon
  pure fun tokens => .label value tokens

def branchStmt : Parser Stmt := withTokens do
  let form ←
    (do keyword .breakWord; pure Stmt.breakOut) <|>
      (do keyword .continueWord; pure Stmt.continueOn)
  separator .semicolon
  pure form

-- Well formed in a script, but without a place in a block here.
def unsupportedStmt : Parser Stmt := fun tokens =>
  match tokens.dropWhile Token.isTrivia with
  | [] => .declined
  | t :: rest =>
      match t.lexeme, structDecl tokens with
      | .directive _, _ => .failed ⟨.directiveInBlock, t :: rest⟩
      | _, .accepted _ _ => .failed ⟨.structInBlock, t :: rest⟩
      | _, _ => .declined

def ofForm : StmtForm → Parser Stmt
  | .block => blockStmt nested
  | .var => varStmt
  | .assign => assignStmt
  | .step => stepStmt
  | .call => callStmt
  | .whileLoop => whileStmt nested
  | .forLoop => forStmt nested
  | .doLoop => doStmt nested
  | .ifThen => ifStmt nested
  | .leave => leaveStmt
  | .switch => switchStmt nested
  | .label => labelStmt
  | .branch => branchStmt
  | .unsupported => unsupportedStmt

end forms

def statement (forms : List StmtForm) (tokens : List Token) : Outcome Stmt :=
  let nested : Parser Stmt := fun rest =>
    if rest.length < tokens.length then statement forms rest else .declined
  firstOf (forms.map (ofForm nested)) tokens
termination_by tokens.length

end Parser
end NwscriptBindings
