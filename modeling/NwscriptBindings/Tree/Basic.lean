import NwscriptBindings.Number.Binary32
import NwscriptBindings.Token.Basic

namespace NwscriptBindings

structure Traced (α : Type) where
  content : α
  tokens : List Token
deriving DecidableEq

-- The span of the tokens that are not trivia; if there are none, of the comments.
def tokensSpan (tokens : List Token) : Span :=
  let hull := Span.joinAll ((tokens.filter (!·.isTrivia)).map (·.span))
  if hull.isValid then hull
  else ((tokens.filter (·.isComment)).map (·.span)).foldl Span.join hull

inductive ScriptType where
  | basic (type : BasicType)
  | struct (name : List UInt8)
deriving DecidableEq

namespace ScriptType

def name : ScriptType → List UInt8
  | basic type => utf8 type.name
  | struct name => utf8 "struct " ++ name

def isVoid (t : ScriptType) : Bool := t == basic .void

end ScriptType

inductive Literal where
  | int (value : Int32) (raw : List UInt8)
  | float (value : Binary32) (raw : List UInt8)
  | string (body : List UInt8)
  | vector (x y z : Binary32)
  | objectInvalid
  | objectSelf
deriving DecidableEq

inductive Value where
  | reference (name : List UInt8)
  | literal (l : Literal)
deriving DecidableEq

-- How an expression is bounded: by a separator behind it, or by parentheses around it.
inductive Capture where
  | arithmetic
  | logical
deriving DecidableEq

namespace Capture

def name : Capture → String
  | arithmetic => "Arithmetic"
  | logical => "Logical"

end Capture

structure Expr where
  capture : Capture
  text : List UInt8
deriving DecidableEq

structure VarDecl where
  type : Traced ScriptType
  name : List UInt8
  init : Option (Traced Expr)
  isConst : Bool
deriving DecidableEq

inductive AssignOp where
  | set | add | sub | mul | div | mod | and | or
deriving DecidableEq

namespace AssignOp

def text : AssignOp → String
  | set => "="
  | add => "+="
  | sub => "-="
  | mul => "*="
  | div => "/="
  | mod => "%="
  | and => "&="
  | or => "|="

end AssignOp

inductive StepOp where
  | preUp | postUp | preDown | postDown
deriving DecidableEq

namespace StepOp

def text : StepOp → String
  | preUp => "pre++"
  | postUp => "post++"
  | preDown => "pre--"
  | postDown => "post--"

end StepOp

-- The last argument of each form holds the tokens of the whole statement. An else branch and the
-- block of a switch are nodes too, so their tokens are kept apart.
inductive Stmt where
  | comment (c : Comment) (tokens : List Token)
  | var (d : VarDecl) (tokens : List Token)
  | block (stmts : List Stmt) (tokens : List Token)
  | assign (target : Traced (List UInt8)) (op : AssignOp) (value : Traced Expr)
      (tokens : List Token)
  | step (target : Traced (List UInt8)) (op : StepOp) (tokens : List Token)
  | call (name : List UInt8) (args : Traced Expr) (tokens : List Token)
  | whileLoop (cond : Traced Expr) (body : Stmt) (tokens : List Token)
  | forLoop (init cond post : Traced Expr) (body : Stmt) (tokens : List Token)
  | doLoop (body : Stmt) (cond : Traced Expr) (tokens : List Token)
  | ifThen (cond : Traced Expr) (body : Stmt) (tokens : List Token)
  | ifElse (cond : Traced Expr) (body otherwise : Stmt) (elseTokens tokens : List Token)
  | leave (result : Option (Traced Expr)) (tokens : List Token)
  | switch (tag : Traced Expr) (stmts : List Stmt) (blockTokens tokens : List Token)
  | label (value : Option (Traced Value)) (tokens : List Token)
  | breakOut (tokens : List Token)
  | continueOn (tokens : List Token)

namespace Stmt

def tokens : Stmt → List Token
  | comment _ ts | var _ ts | block _ ts | assign _ _ _ ts | step _ _ ts | call _ _ ts
  | whileLoop _ _ ts | forLoop _ _ _ _ ts | doLoop _ _ ts | ifThen _ _ ts | ifElse _ _ _ _ ts
  | leave _ ts | switch _ _ _ ts | label _ ts | breakOut ts | continueOn ts => ts

end Stmt

structure Param where
  type : Traced ScriptType
  name : List UInt8
  default : Option (Traced Value)
deriving DecidableEq

structure Signature where
  result : Traced ScriptType
  name : List UInt8
  params : List (Traced Param)
deriving DecidableEq

structure StructDecl where
  name : List UInt8
  fields : List (Traced VarDecl)
deriving DecidableEq

inductive Decl where
  | directive (text : List UInt8)
  | comment (c : Comment)
  | struct (d : StructDecl)
  | prototype (sig : Signature)
  | function (sig : Signature) (body : Traced (List Stmt))
  | var (d : VarDecl)

structure ScriptUnit where
  name : List UInt8
  decls : List (Traced Decl)
  tokens : List Token

end NwscriptBindings
