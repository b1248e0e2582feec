import NwscriptBindings.Binding.Abi
import NwscriptBindings.Binding.Code
import NwscriptBindings.Binding.Obstacle
import NwscriptBindings.Grammar.Literal

namespace NwscriptBindings

namespace Binary32

def literalText (v : Binary32) : List UInt8 :=
  let places := Bytes.trimEnd (· == byte '0') (v.fixed 7)
  (if v.negative then utf8 "-" else []) ++ places ++
    (if places.getLast? = some (byte '.') then utf8 "0" else []) ++ utf8 "f"

end Binary32

def vectorText (x y z : Binary32) : List UInt8 :=
  utf8 "new NWN.Vector(" ++ x.literalText ++ utf8 ", " ++ y.literalText ++ utf8 ", " ++
    z.literalText ++ utf8 ")"

-- The value of a constant: numbers of a float type and vectors are normalized, all else stands as
-- it was captured.
def constantText (type : BasicType) (init : Traced Expr) : List UInt8 :=
  match (literalOf? init.tokens).map Traced.content with
  | some (.float v _) => v.literalText
  | some (.int v _) => if type = .float then (Binary32.ofInt32 v).literalText else init.content.text
  | some (.vector x y z) => vectorText x y z
  | _ => init.content.text

def defaultText? : Value → Option (List UInt8)
  | .literal (.int _ raw) => some raw
  | .literal (.float v _) => some v.literalText
  | .literal (.string body) => some (utf8 "\"" ++ body ++ utf8 "\"")
  | .reference name => some name
  | .literal _ => none

def defaultText (v : Value) : Except TransferObstacle (List UInt8) :=
  match defaultText? v with
  | some text => .ok text
  | none => .error (.defaultValue v)

def Comment.member : Comment → Member
  | .line text => .lineComment text
  | .block text _ => .blockComment (Bytes.lines text)

namespace Profile

def variableMember (profile : Profile) (d : VarDecl) : Except Obstacle Member :=
  let type := profile.typeName d.type.content
  match d.init, d.type.content with
  | none, _ => .ok (.field type d.name)
  | some init, .basic basic =>
      let value := constantText basic init
      .ok (if basic.abi.isConst then .constant type d.name value else .readOnly type d.name value)
  | some _, .struct name => .error (.structConstant d.name (.struct name))

def structMember (profile : Profile) (d : StructDecl) : Member :=
  .struct (profile.structName d.name)
    (d.fields.map fun f => (profile.typeName f.content.type.content, f.content.name))

end Profile

-- Tells which function or parameter an obstacle concerns.
def inFunction (name : List UInt8) (r : Except FunctionObstacle Method) :
    Except Obstacle (Option Member) :=
  match r with
  | .ok m => .ok (some (.method m))
  | .error cause => .error (.function name cause)

def inParameter {α : Type} (name : List UInt8) (r : Except TransferObstacle α) :
    Except FunctionObstacle α :=
  r.mapError (.parameter name)

end NwscriptBindings
