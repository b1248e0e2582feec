import NwscriptBindings.Tree.Node

namespace NwscriptBindings

inductive TransferObstacle where
  | noStackPrimitive (type : ScriptType)
  | noBridgePrimitive (type : BasicType)
  | undeclaredStruct (name : List UInt8)
  | recursiveStruct (name : List UInt8)
  | objectDefault (value : Value)
  | defaultValue (value : Value)
deriving DecidableEq

namespace TransferObstacle

def valueKind (v : Value) : List UInt8 := utf8 "*syntax." ++ utf8 v.typeName

def text : TransferObstacle → List UInt8
  | noStackPrimitive type => utf8 "no stack primitive for " ++ type.name
  | noBridgePrimitive type => utf8 "no NWNX primitive for " ++ utf8 type.name
  | undeclaredStruct name => utf8 "undeclared struct " ++ name
  | recursiveStruct name => utf8 "recursive struct " ++ name
  | objectDefault (.reference name) => utf8 "object default " ++ name
  | objectDefault value => utf8 "object default " ++ valueKind value
  | defaultValue value => utf8 "default value " ++ valueKind value

end TransferObstacle

inductive FunctionObstacle where
  | implementation
  | result (cause : TransferObstacle)
  | parameter (name : List UInt8) (cause : TransferObstacle)
deriving DecidableEq

namespace FunctionObstacle

def text : FunctionObstacle → List UInt8
  | implementation => utf8 "implementation in master declarations"
  | result cause => utf8 "result: " ++ cause.text
  | parameter name cause => utf8 "parameter " ++ name ++ utf8 ": " ++ cause.text

end FunctionObstacle

inductive Obstacle where
  | structConstant (name : List UInt8) (type : ScriptType)
  | function (name : List UInt8) (cause : FunctionObstacle)
deriving DecidableEq

namespace Obstacle

def text : Obstacle → List UInt8
  | structConstant name type => name ++ utf8 ": " ++ type.name
  | function name cause => utf8 "function " ++ name ++ utf8 ": " ++ cause.text

end Obstacle

inductive BindingFault where
  | unknownUnit
  | unsupported (obstacle : Obstacle)
deriving DecidableEq

namespace BindingFault

def text : BindingFault → List UInt8
  | unknownUnit => utf8 "unrecognized compilation unit name"
  | unsupported obstacle => obstacle.text ++ utf8 ": unsupported construct"

end BindingFault

structure BindingError where
  unit : List UInt8
  fault : BindingFault
deriving DecidableEq

namespace BindingError

def message (e : BindingError) : List UInt8 := e.unit ++ utf8 ": " ++ e.fault.text

end BindingError
end NwscriptBindings
