import NwscriptBindings.Number.Decimal
import NwscriptBindings.Tree.Node

namespace NwscriptBindings

namespace Rose

mutual

def indented (depth : Nat) : Rose (List UInt8) → List (List UInt8)
  | .node line below =>
      (List.replicate (2 * depth) (byte ' ') ++ line) :: indentedAll (depth + 1) below

def indentedAll (depth : Nat) : List (Rose (List UInt8)) → List (List UInt8)
  | [] => []
  | tree :: trees => indented depth tree ++ indentedAll depth trees

end

end Rose

namespace Outline

def coordinateStyle : Decimal.Style := ⟨-4, 6, 2⟩

def head (typeName : String) (tokens : List Token) : List UInt8 :=
  utf8 typeName ++ utf8 " " ++ (tokensSpan tokens).first.text

def labelled (label : String) (below : Rose (List UInt8)) : Rose (List UInt8) :=
  .node (utf8 label ++ utf8 ":") [below]

def nameLine (label : String) (name : List UInt8) : Rose (List UInt8) :=
  .leaf (utf8 label ++ utf8 ": " ++ name)

def comment (c : Comment) (tokens : List Token) : Rose (List UInt8) :=
  match c with
  | .line text => .leaf (head c.typeName tokens ++ utf8 " " ++ Quoted.quote text)
  | .block text closed =>
      .leaf (head c.typeName tokens ++ utf8 " lines=" ++ Bytes.ofNat (Bytes.lines text).length ++
        if closed then [] else utf8 " unterminated")

def expr (e : Traced Expr) : Rose (List UInt8) :=
  .leaf (head e.content.capture.name e.tokens ++ utf8 " " ++ Quoted.quote e.content.text)

def type (t : Traced ScriptType) : Rose (List UInt8) := .leaf (utf8 "Type " ++ t.content.name)

def literal (l : Literal) (tokens : List Token) : List UInt8 :=
  match l with
  | .int v _ => head l.typeName tokens ++ utf8 " " ++ Bytes.ofInt v.toInt
  | .float _ raw => head l.typeName tokens ++ utf8 " " ++ raw
  | .string body => head l.typeName tokens ++ utf8 " " ++ Quoted.quote body
  | .vector x y z =>
      head l.typeName tokens ++ utf8 " [" ++ x.text coordinateStyle ++ utf8 ", " ++
        y.text coordinateStyle ++ utf8 ", " ++ z.text coordinateStyle ++ utf8 "]"
  | .objectInvalid => head "ObjectInvalid" tokens
  | .objectSelf => head "ObjectSelf" tokens

def value (v : Traced Value) : Rose (List UInt8) :=
  match v.content with
  | .reference name => .leaf (head v.content.typeName v.tokens ++ utf8 " " ++ name)
  | .literal l => .leaf (literal l v.tokens)

def varDecl (d : VarDecl) (tokens : List Token) : Rose (List UInt8) :=
  .node (head (if d.isConst then "ConstDecl" else "VarDecl") tokens)
    ([nameLine "Name" d.name, nameLine "Type" d.type.content.name] ++
      (d.init.map fun e => labelled "Init" (expr e)).toList)

def stmtHead (s : Stmt) : List UInt8 := head s.typeName s.tokens

mutual

def stmt : Stmt → Rose (List UInt8)
  | .comment c tokens => comment c tokens
  | .var d tokens => varDecl d tokens
  | s@(.block stmts _) => .node (stmtHead s) (stmtList stmts)
  | s@(.assign target op value _) =>
      .node (stmtHead s ++ utf8 " " ++ target.content ++ utf8 " " ++ utf8 op.text) [expr value]
  | s@(.step target op _) =>
      .leaf (stmtHead s ++ utf8 " " ++ target.content ++ utf8 " " ++ utf8 op.text)
  | s@(.call name args _) => .node (stmtHead s ++ utf8 " " ++ name) [expr args]
  | s@(.whileLoop cond body _) =>
      .node (stmtHead s) [labelled "Cond" (expr cond), labelled "Body" (stmt body)]
  | s@(.forLoop init cond post body _) =>
      .node (stmtHead s)
        [labelled "Init" (expr init), labelled "Cond" (expr cond), labelled "Post" (expr post),
          labelled "Body" (stmt body)]
  | s@(.doLoop body cond _) =>
      .node (stmtHead s) [labelled "Body" (stmt body), labelled "Cond" (expr cond)]
  | s@(.ifThen cond body _) =>
      .node (stmtHead s) [labelled "Cond" (expr cond), labelled "Then" (stmt body)]
  | s@(.ifElse cond body other elseTokens _) =>
      .node (stmtHead s)
        [labelled "Cond" (expr cond), labelled "Then" (stmt body),
          .node (head "ElseStmt" elseTokens) [stmt other]]
  | s@(.leave result _) => .node (stmtHead s) (result.map expr).toList
  | s@(.switch tag stmts blockTokens _) =>
      .node (stmtHead s)
        [labelled "Tag" (expr tag),
          labelled "Body" (.node (head "Block" blockTokens) (stmtList stmts))]
  | .label none tokens => .leaf (head "Default" tokens)
  | .label (some v) tokens => .node (head "Case" tokens) [value v]
  | s@(.breakOut _) => .leaf (stmtHead s)
  | s@(.continueOn _) => .leaf (stmtHead s)

def stmtList : List Stmt → List (Rose (List UInt8))
  | [] => []
  | s :: stmts => stmt s :: stmtList stmts

end

def block (b : Traced (List Stmt)) : Rose (List UInt8) := stmt (.block b.content b.tokens)

def param (p : Traced Param) : Rose (List UInt8) :=
  .node (utf8 "Param " ++ p.content.name ++ utf8 " " ++ p.content.type.content.name)
    (p.content.default.map fun v => labelled "Default" (value v)).toList

def signature (sig : Signature) : List (Rose (List UInt8)) :=
  [nameLine "Name" sig.name, nameLine "Result" sig.result.content.name] ++
    if sig.params.isEmpty then [] else [.node (utf8 "Params:") (sig.params.map param)]

def field (d : Traced VarDecl) : Rose (List UInt8) :=
  nameLine "Field" (d.content.name ++ utf8 " " ++ d.content.type.content.name)

def decl (d : Traced Decl) : Rose (List UInt8) :=
  let line := head d.content.typeName d.tokens
  match d.content with
  | .directive text => .leaf (line ++ utf8 " " ++ Quoted.quote text)
  | .comment c => comment c d.tokens
  | .struct s => .node line (nameLine "Name" s.name :: s.fields.map field)
  | .prototype sig => .node line (signature sig)
  | .function sig body => .node line (signature sig ++ [labelled "Body" (block body)])
  | .var v => varDecl v d.tokens

def unit (u : ScriptUnit) : Rose (List UInt8) :=
  .node (utf8 "CompilationUnit " ++ Quoted.quote u.name) (u.decls.map decl)

end Outline

namespace Node

def outline : Node → Rose (List UInt8)
  | unit u => Outline.unit u
  | decl d => Outline.decl d
  | param p => Outline.param p
  | type t => Outline.type t
  | value v => Outline.value v
  | expr e => Outline.expr e
  | stmt s => Outline.stmt s
  | otherwise body tokens => .node (Outline.head "ElseStmt" tokens) [Outline.stmt body]

def dumpText (n : Node) : List UInt8 := Bytes.endLines (n.outline.indented 0)

end Node
end NwscriptBindings
