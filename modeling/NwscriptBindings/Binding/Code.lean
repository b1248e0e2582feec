import NwscriptBindings.Tree.Basic

namespace NwscriptBindings

inductive Action where
  | push (primitive : String) (argument : List UInt8)
  | callBuiltIn (index : Nat)
  | returnPop (primitive : String)
  | selectFunction (name : List UInt8)
  | bridgePush (primitive : String) (argument : List UInt8)
  | callFunction
  | newResult (type : List UInt8)
  | bridgePop (target : List UInt8) (primitive : String)
  | returnResult
  | returnBridgePop (primitive : String)
deriving DecidableEq

namespace Action

def engineCall (name : String) (argument : List UInt8) : List UInt8 :=
  utf8 "Internal." ++ utf8 name ++ utf8 "(" ++ argument ++ utf8 ")"

def bridgeCall (name : String) (argument : List UInt8) : List UInt8 :=
  utf8 "Internal.NativeFunctions." ++ utf8 name ++ utf8 "(" ++ argument ++ utf8 ")"

def resultName : List UInt8 := utf8 "retVal"

def text : Action → List UInt8
  | push primitive argument => engineCall primitive argument
  | callBuiltIn index => engineCall "CallBuiltIn" (Bytes.ofNat index)
  | returnPop primitive => utf8 "return " ++ engineCall primitive []
  | selectFunction name =>
      bridgeCall "nwnxSetFunction" (utf8 "PLUGIN_NAME, " ++ Quoted.quote name)
  | bridgePush primitive argument => bridgeCall primitive argument
  | callFunction => bridgeCall "nwnxCallFunction" []
  | newResult type => utf8 "var " ++ resultName ++ utf8 " = new " ++ type ++ utf8 "()"
  | bridgePop target primitive => target ++ utf8 " = " ++ bridgeCall primitive []
  | returnResult => utf8 "return " ++ resultName
  | returnBridgePop primitive => utf8 "return " ++ bridgeCall primitive []

end Action

structure Method where
  result : List UInt8
  name : List UInt8
  params : List (List UInt8)
  body : List Action
deriving DecidableEq

inductive Member where
  | lineComment (text : List UInt8)
  | blockComment (lines : List (List UInt8))
  | field (type name : List UInt8)
  | constant (type name value : List UInt8)
  | readOnly (type name value : List UInt8)
  | struct (name : List UInt8) (fields : List (List UInt8 × List UInt8))
  | method (m : Method)
deriving DecidableEq

structure CodeLine where
  depth : Nat
  text : List UInt8
deriving DecidableEq

namespace CodeLine

def render (line : CodeLine) : List UInt8 :=
  if line.text.isEmpty then [Bytes.newline]
  else List.replicate (4 * line.depth) (byte ' ') ++ line.text ++ [Bytes.newline]

def blank : CodeLine := ⟨0, []⟩

def statement (depth : Nat) (text : List UInt8) : CodeLine := ⟨depth, text ++ utf8 ";"⟩

def group (depth : Nat) (head : List UInt8) (inside : List CodeLine) : List CodeLine :=
  [⟨depth, head⟩, ⟨depth, utf8 "\x7b"⟩] ++ inside ++ [⟨depth, utf8 "\x7d"⟩, blank]

end CodeLine

namespace Member

open CodeLine

def lines (depth : Nat) : Member → List CodeLine
  | lineComment text => [⟨depth, utf8 "//" ++ Bytes.trimEnd Bytes.isBlank text⟩]
  | blockComment lines =>
      [⟨depth, utf8 "/*"⟩] ++ lines.map (fun l => ⟨depth, Bytes.trimEnd Bytes.isBlank l⟩) ++
        [⟨depth, utf8 "*/"⟩]
  | field type name => [statement depth (utf8 "public static " ++ type ++ utf8 " " ++ name)]
  | constant type name value =>
      [statement depth
        (utf8 "public const " ++ type ++ utf8 " " ++ name ++ utf8 " = " ++ value)]
  | readOnly type name value =>
      [statement depth
        (utf8 "public static readonly " ++ type ++ utf8 " " ++ name ++ utf8 " = " ++ value)]
  | struct name fields =>
      group depth (utf8 "public struct " ++ name)
        (fields.map fun f => statement (depth + 1) (utf8 "public " ++ f.1 ++ utf8 " " ++ f.2))
  | method m =>
      group depth
        (utf8 "public static " ++ m.result ++ utf8 " " ++ m.name ++ utf8 "(" ++
          List.intercalate (utf8 ", ") m.params ++ utf8 ")")
        (m.body.map fun a => statement (depth + 1) a.text)

end Member

def renderCode (lines : List CodeLine) : List UInt8 := lines.flatMap CodeLine.render

end NwscriptBindings
