import NwscriptBindings.Binding.Value

namespace NwscriptBindings.Plugin

-- Of two structs with one name the later one counts.
def insertStruct (table : List StructDecl) (d : StructDecl) : List StructDecl :=
  table.filter (·.name != d.name) ++ [d]

def structTable (decls : List Decl) : List StructDecl :=
  decls.foldl
    (fun table d =>
      match d with
      | .struct s => insertStruct table s
      | _ => table)
    []

def lookup (table : List StructDecl) (name : List UInt8) : Option StructDecl :=
  table.find? (·.name == name)

structure Scalar where
  path : List UInt8
  primitives : Primitives
deriving DecidableEq

def flatten (table : List StructDecl) :
    Nat → List UInt8 → ScriptType → Except TransferObstacle (List Scalar)
  | _, path, .basic type =>
      match type.abi.bridge with
      | some primitives => .ok [⟨path, primitives⟩]
      | none => .error (.noBridgePrimitive type)
  | 0, _, .struct name =>
      match lookup table name with
      | none => .error (.undeclaredStruct name)
      | some _ => .error (.recursiveStruct name)
  | room + 1, path, .struct name =>
      match lookup table name with
      | none => .error (.undeclaredStruct name)
      | some d => do
          let parts ← d.fields.mapM fun f =>
            flatten table room (path ++ utf8 "." ++ f.content.name) f.content.type.content
          pure parts.flatten

-- Structs that do not contain themselves nest no deeper than there are structs.
def scalars (table : List StructDecl) (path : List UInt8) (type : ScriptType) :
    Except TransferObstacle (List Scalar) :=
  flatten table (table.length + 1) path type

structure Argument where
  declaration : List UInt8
  scalars : List Scalar
deriving DecidableEq

def declaration (profile : Profile) (p : Param) : Except TransferObstacle (List UInt8) :=
  let declared := profile.typeName p.type.content ++ utf8 " " ++ p.name
  match p.default.map Traced.content with
  | none => .ok declared
  | some (.literal .objectSelf) | some (.literal .objectInvalid) => .ok (declared ++ utf8 " = null")
  | some value => do pure (declared ++ utf8 " = " ++ (← defaultText value))

-- Null stands for the caller if the caller is the default.
def argumentPath (p : Param) : List UInt8 :=
  match p.default.map Traced.content with
  | some (.literal .objectSelf) => p.name ++ utf8 " ?? Internal.OBJECT_SELF"
  | _ => p.name

def argument (profile : Profile) (table : List StructDecl) (p : Param) :
    Except TransferObstacle Argument := do
  let declared ← declaration profile p
  let parts ← scalars table (argumentPath p) p.type.content
  pure ⟨declared, parts⟩

def pushStep (s : Scalar) : Action := .bridgePush s.primitives.push s.path

def popStep (s : Scalar) : Action := .bridgePop s.path s.primitives.pop

-- Nothing for void, the fields of a struct last first, or one scalar.
def resultSteps (profile : Profile) (table : List StructDecl) (type : ScriptType) :
    Except TransferObstacle (List Action) :=
  if type.isVoid then .ok []
  else do
    let parts ← scalars table Action.resultName type
    match type with
    | .struct _ =>
        pure ([.newResult (profile.typeName type)] ++ parts.reverse.map popStep ++ [.returnResult])
    | .basic _ => pure (parts.map fun s => .returnBridgePop s.primitives.pop)

def method (plugin : List UInt8) (table : List StructDecl) (sig : Signature) :
    Except FunctionObstacle Method := do
  let profile : Profile := .plugin plugin
  let arguments ← sig.params.mapM fun p =>
    inParameter p.content.name (argument profile table p.content)
  let returned ← (resultSteps profile table sig.result.content).mapError .result
  let short := Profile.shortName plugin sig.name
  pure ⟨profile.typeName sig.result.content, short, arguments.map (·.declaration),
    [.selectFunction short] ++ (arguments.flatMap (·.scalars)).reverse.map pushStep ++
      [.callFunction] ++ returned⟩

def signature? : Decl → Option Signature
  | .prototype sig => some sig
  | .function sig _ => some sig
  | _ => none

-- A prototype and its implementation give one method.
def member (plugin : List UInt8) (table : List StructDecl) (seen : List (List UInt8)) :
    Decl → Except Obstacle (Option Member)
  | .directive _ => .ok none
  | .comment c => .ok (some c.member)
  | .var d => ((Profile.plugin plugin).variableMember d).map some
  | .struct d => .ok (some ((Profile.plugin plugin).structMember d))
  | .prototype sig | .function sig _ =>
      if seen.contains sig.name then .ok none
      else inFunction sig.name (method plugin table sig)

def members (plugin : List UInt8) (table : List StructDecl) (seen : List (List UInt8)) :
    List Decl → Except Obstacle (List (Option Member))
  | [] => .ok []
  | d :: rest => do
      let first ← member plugin table seen d
      let others ← members plugin table (seen ++ ((signature? d).map (·.name)).toList) rest
      pure (first :: others)

def opening (plugin : List UInt8) : List CodeLine :=
  [⟨0, utf8 "using NWN;"⟩, .blank, ⟨0, utf8 "namespace NWNX"⟩, ⟨0, utf8 "\x7b"⟩,
    ⟨1, utf8 "public static class " ++ plugin⟩, ⟨1, utf8 "\x7b"⟩,
    .statement 2
      (utf8 "const string PLUGIN_NAME = " ++ Quoted.quote (Profile.pluginMark ++ plugin)),
    .blank]

end NwscriptBindings.Plugin
