import NwscriptBindings.Tree.Basic

namespace NwscriptBindings

structure Primitives where
  push : String
  pop : String
deriving DecidableEq

structure Abi where
  target : String
  stack : Option Primitives := none
  bridge : Option Primitives := none
  isConst : Bool := false
deriving DecidableEq

namespace BasicType

-- Actions are closures: no primitive carries them.
def abi : BasicType → Abi
  | void => { target := "void" }
  | int =>
      { target := "int", stack := some ⟨"StackPushInteger", "StackPopInteger"⟩,
        bridge := some ⟨"nwnxPushInt", "nwnxPopInt"⟩, isConst := true }
  | float =>
      { target := "float", stack := some ⟨"StackPushFloat", "StackPopFloat"⟩,
        bridge := some ⟨"nwnxPushFloat", "nwnxPopFloat"⟩, isConst := true }
  | string =>
      { target := "string", stack := some ⟨"StackPushString", "StackPopString"⟩,
        bridge := some ⟨"nwnxPushString", "nwnxPopString"⟩, isConst := true }
  | object =>
      { target := "NWN.Object", stack := some ⟨"StackPushObject", "StackPopObject"⟩,
        bridge := some ⟨"nwnxPushObject", "nwnxPopObject"⟩ }
  | location =>
      { target := "NWN.Location", stack := some ⟨"StackPushLocation", "StackPopLocation"⟩ }
  | vector => { target := "NWN.Vector", stack := some ⟨"StackPushVector", "StackPopVector"⟩ }
  | itemProperty =>
      { target := "NWN.ItemProperty",
        stack := some ⟨"StackPushItemProperty", "StackPopItemProperty"⟩,
        bridge := some ⟨"nwnxPushItemProperty", "nwnxPopItemProperty"⟩ }
  | effect =>
      { target := "NWN.Effect", stack := some ⟨"StackPushEffect", "StackPopEffect"⟩,
        bridge := some ⟨"nwnxPushEffect", "nwnxPopEffect"⟩ }
  | talent => { target := "NWN.Talent", stack := some ⟨"StackPushTalent", "StackPopTalent"⟩ }
  | event => { target := "NWN.Event", stack := some ⟨"StackPushEvent", "StackPopEvent"⟩ }
  | action => { target := "NWN.ActionDelegate" }

def ofName? (name : List UInt8) : Option BasicType := all.find? (utf8 ·.name == name)

end BasicType

-- Engine functions with a binding of their own, which none is generated for.
def isHandWritten (name : List UInt8) : Bool :=
  name == utf8 "AssignCommand" || name == utf8 "DelayCommand" || name == utf8 "ActionDoCommand"

inductive Profile where
  | engine
  | plugin (name : List UInt8)
deriving DecidableEq

namespace Profile

def engineUnit : List UInt8 := utf8 "nwscript.nss"

def pluginMark : List UInt8 := utf8 "NWNX_"

def pluginName? (unitName : List UInt8) : Option (List UInt8) :=
  match (Bytes.stripStart? pluginMark unitName).bind (Bytes.stripStop? (utf8 ".nss")) with
  | some [] => none
  | found => found

def ofUnitName? (unitName : List UInt8) : Option Profile :=
  if unitName = engineUnit then some engine else (pluginName? unitName).map plugin

def shortName (plugin name : List UInt8) : List UInt8 :=
  (Bytes.stripStart? (pluginMark ++ plugin ++ utf8 "_") name).getD name

def structName : Profile → List UInt8 → List UInt8
  | engine, name => name
  | plugin p, name => shortName p name

def typeName (profile : Profile) : ScriptType → List UInt8
  | .basic type => utf8 type.abi.target
  | .struct name => profile.structName name

end Profile
end NwscriptBindings
