import NwscriptBindings.Number.Decimal
import NwscriptBindings.Text.Json
import NwscriptBindings.Tree.Node

namespace NwscriptBindings

namespace Document

-- Numbers have an exponent below a millionth and from 10 to the 21 on.
def numberStyle : Decimal.Style := ⟨-6, 21, 1⟩

def float (v : Binary32) : Json := .number (v.text numberStyle)

def text (s : String) : Json := .string (utf8 s)

def node (typeName : String) (tokens : List Token) (members : List (String × Json)) : Json :=
  .ofMembers
    ([("span", .string (tokensSpan tokens).text), ("type", text typeName)] ++ members)

def comment (c : Comment) (tokens : List Token) : Json :=
  match c with
  | .line body => node c.typeName tokens [("text", .string body)]
  | .block body closed =>
      node c.typeName tokens
        [("lines", .array ((Bytes.lines body).map .string)), ("terminated", .bool closed)]

def expr (e : Traced Expr) : Json :=
  node e.content.capture.name e.tokens [("text", .string e.content.text)]

def type (t : Traced ScriptType) : Json :=
  node "Type" t.tokens [("name", .string t.content.name)]

def literal (l : Literal) (tokens : List Token) : Json :=
  match l with
  | .int v _ => node l.typeName tokens [("value", .number (Bytes.ofInt v.toInt))]
  | .float v raw => node l.typeName tokens [("value", float v), ("raw", .string raw)]
  | .string body => node l.typeName tokens [("value", .string body)]
  | .vector x y z => node l.typeName tokens [("value", .array [float x, float y, float z])]
  | .objectInvalid => node "ObjectInvalid" tokens []
  | .objectSelf => node "ObjectSelf" tokens []

def value (v : Traced Value) : Json :=
  match v.content with
  | .reference name => node v.content.typeName v.tokens [("name", .string name)]
  | .literal l => literal l v.tokens

def varDecl (d : VarDecl) (tokens : List Token) : Json :=
  node "VarDecl" tokens
    ([("name", .string d.name), ("vartype", .string d.type.content.name),
      ("const", .bool d.isConst)] ++ (d.init.map fun e => ("init", expr e)).toList)

def stmtNode (s : Stmt) (members : List (String × Json)) : Json :=
  node s.typeName s.tokens members

mutual

def stmt : Stmt → Json
  | .comment c tokens => comment c tokens
  | .var d tokens => varDecl d tokens
  | s@(.block stmts _) => stmtNode s [("stmts", .array (stmtList stmts))]
  | s@(.assign target op value _) =>
      stmtNode s [("target", .string target.content), ("op", text op.text), ("value", expr value)]
  | s@(.step target op _) => stmtNode s [("target", .string target.content), ("op", text op.text)]
  | s@(.call name args _) => stmtNode s [("name", .string name), ("args", expr args)]
  | s@(.whileLoop cond body _) => stmtNode s [("cond", expr cond), ("body", stmt body)]
  | s@(.forLoop init cond post body _) =>
      stmtNode s
        [("init", expr init), ("cond", expr cond), ("post", expr post), ("body", stmt body)]
  | s@(.doLoop body cond _) => stmtNode s [("body", stmt body), ("cond", expr cond)]
  | s@(.ifThen cond body _) => stmtNode s [("cond", expr cond), ("then", stmt body)]
  | s@(.ifElse cond body other elseTokens _) =>
      stmtNode s
        [("cond", expr cond), ("then", stmt body),
          ("else", node "ElseStmt" elseTokens [("body", stmt other)])]
  | s@(.leave result _) => stmtNode s (result.map fun e => ("result", expr e)).toList
  | s@(.switch tag stmts blockTokens _) =>
      stmtNode s
        [("tag", expr tag), ("body", node "Block" blockTokens [("stmts", .array (stmtList stmts))])]
  | .label none tokens => node "Default" tokens []
  | .label (some v) tokens => node "Case" tokens [("value", value v)]
  | s@(.breakOut _) => stmtNode s []
  | s@(.continueOn _) => stmtNode s []

def stmtList : List Stmt → List Json
  | [] => []
  | s :: stmts => stmt s :: stmtList stmts

end

def block (b : Traced (List Stmt)) : Json := stmt (.block b.content b.tokens)

def param (p : Traced Param) : Json :=
  node "Param" p.tokens
    ([("name", .string p.content.name), ("paramtype", .string p.content.type.content.name)] ++
      (p.content.default.map fun v => ("default", value v)).toList)

def signature (sig : Signature) : List (String × Json) :=
  [("name", .string sig.name), ("result", .string sig.result.content.name),
    ("params", .array (sig.params.map param))]

def field (d : Traced VarDecl) : Json := varDecl d.content d.tokens

def decl (d : Traced Decl) : Json :=
  match d.content with
  | .directive body => node d.content.typeName d.tokens [("text", .string body)]
  | .comment c => comment c d.tokens
  | .struct s =>
      node d.content.typeName d.tokens
        [("name", .string s.name), ("fields", .array (s.fields.map field))]
  | .prototype sig => node d.content.typeName d.tokens (signature sig)
  | .function sig body =>
      node d.content.typeName d.tokens (signature sig ++ [("body", block body)])
  | .var v => varDecl v d.tokens

def unit (u : ScriptUnit) : Json :=
  node "CompilationUnit" u.tokens
    [("name", .string u.name), ("decls", .array (u.decls.map decl))]

end Document

namespace Node

def document : Node → Json
  | unit u => Document.unit u
  | decl d => Document.decl d
  | param p => Document.param p
  | type t => Document.type t
  | value v => Document.value v
  | expr e => Document.expr e
  | stmt s => Document.stmt s
  | otherwise body tokens => Document.node "ElseStmt" tokens [("body", Document.stmt body)]

def dumpJson (n : Node) : List UInt8 := n.document.text

end Node
end NwscriptBindings
