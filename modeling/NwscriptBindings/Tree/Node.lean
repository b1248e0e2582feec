import NwscriptBindings.Tree.Basic
import NwscriptBindings.Tree.Rose

namespace NwscriptBindings

inductive Node where
  | unit (u : ScriptUnit)
  | decl (d : Traced Decl)
  | param (p : Traced Param)
  | type (t : Traced ScriptType)
  | value (v : Traced Value)
  | expr (e : Traced Expr)
  | stmt (s : Stmt)
  | otherwise (body : Stmt) (tokens : List Token)

namespace Node

def tokens : Node → List Token
  | unit u => u.tokens
  | decl d => d.tokens
  | param p => p.tokens
  | type t => t.tokens
  | value v => v.tokens
  | expr e => e.tokens
  | stmt s => s.tokens
  | otherwise _ tokens => tokens

def span (n : Node) : Span := tokensSpan n.tokens

end Node

namespace Comment

def typeName : Comment → String
  | line _ => "LineComment"
  | block _ _ => "BlockComment"

end Comment

namespace Literal

def typeName : Literal → String
  | int _ _ => "IntLiteral"
  | float _ _ => "FloatLiteral"
  | string _ => "StringLiteral"
  | vector _ _ _ => "VectorLiteral"
  | objectInvalid => "ObjectInvalidLiteral"
  | objectSelf => "ObjectSelfLiteral"

end Literal

namespace Value

def typeName : Value → String
  | reference _ => "Lvalue"
  | literal l => l.typeName

end Value

namespace Decl

def typeName : Decl → String
  | directive _ => "Preprocessor"
  | comment c => c.typeName
  | struct _ => "StructDecl"
  | prototype _ => "FuncDecl"
  | function _ _ => "FuncImpl"
  | var _ => "VarDecl"

end Decl

namespace Stmt

def typeName : Stmt → String
  | comment c _ => c.typeName
  | var _ _ => "VarDecl"
  | block _ _ => "Block"
  | assign .. => "AssignStmt"
  | step .. => "IncDecStmt"
  | call .. => "CallStmt"
  | whileLoop .. => "WhileStmt"
  | forLoop .. => "ForStmt"
  | doLoop .. => "DoWhileStmt"
  | ifThen .. | ifElse .. => "IfStmt"
  | leave .. => "ReturnStmt"
  | switch .. => "SwitchStmt"
  | label .. => "CaseLabel"
  | breakOut .. => "BreakStmt"
  | continueOn .. => "ContinueStmt"

end Stmt

namespace Node

def typeName : Node → String
  | unit _ => "CompilationUnit"
  | decl d => d.content.typeName
  | param _ => "Param"
  | type ⟨.basic _, _⟩ => "BasicType"
  | type ⟨.struct _, _⟩ => "StructType"
  | value v => v.content.typeName
  | expr _ => "Expr"
  | stmt s => s.typeName
  | otherwise _ _ => "ElseStmt"

end Node

def Traced.asValue (name : Traced (List UInt8)) : Traced Value :=
  ⟨.reference name.content, name.tokens⟩

def Traced.exprTree (e : Traced Expr) : Rose Node := .leaf (.expr e)

def Traced.valueTree (v : Traced Value) : Rose Node := .leaf (.value v)

def Traced.typeTree (t : Traced ScriptType) : Rose Node := .leaf (.type t)

def VarDecl.parts (d : VarDecl) : List (Rose Node) :=
  d.type.typeTree :: (d.init.map Traced.exprTree).toList

mutual

def Stmt.parts : Stmt → List (Rose Node)
  | .comment _ _ | .breakOut _ | .continueOn _ => []
  | .var d _ => d.parts
  | .block stmts _ => Stmt.trees stmts
  | .assign target _ value _ => [target.asValue.valueTree, value.exprTree]
  | .step target _ _ => [target.asValue.valueTree]
  | .call _ args _ => [args.exprTree]
  | .whileLoop cond body _ => [cond.exprTree, .node (.stmt body) body.parts]
  | .forLoop init cond post body _ =>
      [init.exprTree, cond.exprTree, post.exprTree, .node (.stmt body) body.parts]
  | .doLoop body cond _ => [.node (.stmt body) body.parts, cond.exprTree]
  | .ifThen cond body _ => [cond.exprTree, .node (.stmt body) body.parts]
  | .ifElse cond body other elseTokens _ =>
      [cond.exprTree, .node (.stmt body) body.parts,
        .node (.otherwise other elseTokens) [.node (.stmt other) other.parts]]
  | .leave result _ => (result.map Traced.exprTree).toList
  | .switch tag stmts blockTokens _ =>
      [tag.exprTree, .node (.stmt (.block stmts blockTokens)) (Stmt.trees stmts)]
  | .label value _ => (value.map Traced.valueTree).toList

def Stmt.trees : List Stmt → List (Rose Node)
  | [] => []
  | s :: stmts => .node (.stmt s) s.parts :: Stmt.trees stmts

end

def Stmt.tree (s : Stmt) : Rose Node := .node (.stmt s) s.parts

def Traced.paramTree (p : Traced Param) : Rose Node :=
  .node (.param p) (p.content.type.typeTree :: (p.content.default.map Traced.valueTree).toList)

def Signature.parts (sig : Signature) : List (Rose Node) :=
  sig.result.typeTree :: sig.params.map Traced.paramTree

def Traced.fieldTree (d : Traced VarDecl) : Rose Node :=
  .node (.decl ⟨.var d.content, d.tokens⟩) d.content.parts

def Decl.parts : Decl → List (Rose Node)
  | .directive _ | .comment _ => []
  | .struct d => d.fields.map Traced.fieldTree
  | .prototype sig => sig.parts
  | .function sig body =>
      sig.parts ++ [.node (.stmt (.block body.content body.tokens)) (Stmt.trees body.content)]
  | .var d => d.parts

def Traced.declTree (d : Traced Decl) : Rose Node := .node (.decl d) d.content.parts

def ScriptUnit.tree (u : ScriptUnit) : Rose Node := .node (.unit u) (u.decls.map Traced.declTree)

-- The nodes that a traversal visits if it enters only nodes on which `enter` holds.
def ScriptUnit.walk (enter : Node → Bool) (u : ScriptUnit) : List Node := u.tree.visits enter

end NwscriptBindings
