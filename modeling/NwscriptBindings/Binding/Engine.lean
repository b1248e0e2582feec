import NwscriptBindings.Binding.Value

namespace NwscriptBindings.Engine

def stackPrimitives (type : ScriptType) : Except TransferObstacle (BasicType × Primitives) :=
  match type with
  | .basic basic =>
      match basic.abi.stack with
      | some primitives => .ok (basic, primitives)
      | none => .error (.noStackPrimitive type)
  | .struct _ => .error (.noStackPrimitive type)

structure Argument where
  declaration : List UInt8
  push : Action
deriving DecidableEq

-- Null stands for an object that the runtime resolves: the caller itself, or no object.
inductive ObjectDefault where
  | required
  | self
  | invalid

def objectDefault (default : Option Value) : Except TransferObstacle ObjectDefault :=
  match default with
  | none => .ok .required
  | some (.literal .objectSelf) => .ok .self
  | some (.literal .objectInvalid) => .ok .invalid
  | some (.reference name) =>
      if name = utf8 "OBJECT_TYPE_INVALID" ∨ name = utf8 "OBJECT_INVALID" then .ok .invalid
      else .error (.objectDefault (.reference name))
  | some value => .error (.objectDefault value)

def objectArgument (declared name : List UInt8) (primitive : String) :
    ObjectDefault → Argument
  | .required => ⟨declared, .push primitive (name ++ utf8 ", false")⟩
  | .self => ⟨declared ++ utf8 " = null", .push primitive (name ++ utf8 ", true")⟩
  | .invalid => ⟨declared ++ utf8 " = null", .push primitive (name ++ utf8 ", false")⟩

def plainArgument (declared name : List UInt8) (primitive : String) :
    Option Value → Except TransferObstacle Argument
  | none => .ok ⟨declared, .push primitive name⟩
  | some value => do
      let text ← defaultText value
      pure ⟨declared ++ utf8 " = " ++ text, .push primitive name⟩

def argument (p : Param) : Except TransferObstacle Argument := do
  let (type, primitives) ← stackPrimitives p.type.content
  let target := utf8 type.abi.target
  let declared := target ++ utf8 " " ++ p.name
  match type, p.default.map Traced.content with
  | .object, default => do
      pure (objectArgument declared p.name primitives.push (← objectDefault default))
  | .vector, some (.literal (.vector x y z)) =>
      pure ⟨target ++ utf8 "? " ++ p.name ++ utf8 " = null",
        .push primitives.push (p.name ++ utf8 " ?? " ++ vectorText x y z)⟩
  | _, default => plainArgument declared p.name primitives.push default

def resultSteps (type : ScriptType) : Except FunctionObstacle (List Action) :=
  if type.isVoid then .ok []
  else match stackPrimitives type with
    | .ok (_, primitives) => .ok [.returnPop primitives.pop]
    | .error cause => .error (.result cause)

def method (index : Nat) (sig : Signature) : Except FunctionObstacle Method := do
  let returned ← resultSteps sig.result.content
  let arguments ← sig.params.mapM fun p => inParameter p.content.name (argument p.content)
  pure ⟨Profile.engine.typeName sig.result.content, sig.name, arguments.map (·.declaration),
    arguments.map (·.push) ++ [.callBuiltIn index] ++ returned⟩

-- Engine functions are numbered, and those with a binding of their own take no number.
def takesNumber : Decl → Bool
  | .prototype sig => !isHandWritten sig.name
  | _ => false

def member (index : Nat) : Decl → Except Obstacle (Option Member)
  | .directive _ => .ok none
  | .comment c => .ok (some c.member)
  | .var d => (Profile.engine.variableMember d).map some
  | .struct d => .ok (some (Profile.engine.structMember d))
  | .prototype sig =>
      if isHandWritten sig.name then .ok none else inFunction sig.name (method index sig)
  | .function sig _ => .error (.function sig.name .implementation)

def members (index : Nat) : List Decl → Except Obstacle (List (Option Member))
  | [] => .ok []
  | d :: rest => do
      let first ← member index d
      let others ← members (if takesNumber d then index + 1 else index) rest
      pure (first :: others)

def opening : List CodeLine :=
  [⟨0, utf8 "namespace NWN"⟩, ⟨0, utf8 "\x7b"⟩, ⟨1, utf8 "public static partial class NWScript"⟩,
    ⟨1, utf8 "\x7b"⟩]

end NwscriptBindings.Engine
