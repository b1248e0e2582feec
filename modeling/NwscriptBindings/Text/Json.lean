import NwscriptBindings.Text.Quoted

namespace NwscriptBindings

inductive Json where
  | null
  | bool (b : Bool)
  | number (text : List UInt8)
  | string (text : List UInt8)
  | array (items : List Json)
  | object (members : List (List UInt8 × Json))

namespace Json

def escapeLetter? (c : Char) : Option UInt8 :=
  if c = '\x08' then some (byte 'b')
  else if c = '\x0c' then some (byte 'f')
  else if c = '\n' then some (byte 'n')
  else if c = '\r' then some (byte 'r')
  else if c = '\t' then some (byte 't')
  else if c = '\\' then some (byte '\\')
  else if c = '"' then some (byte '"')
  else none

-- Other controls, the characters of markup and the two line separators beyond ASCII.
def isEscaped (c : Char) : Bool :=
  c.toNat < 0x20 || c == '<' || c == '>' || c == '&' || c.toNat == 0x2028 || c.toNat == 0x2029

def glyph : Glyph → List UInt8
  | .stray _ => utf8 "\\ufffd"
  | .char c =>
      match escapeLetter? c with
      | some letter => [byte '\\', letter]
      | none => if isEscaped c then utf8 "\\u" ++ Quoted.hex 4 c.toNat else Utf8.encodeChar c

def quote (text : List UInt8) : List UInt8 :=
  utf8 "\"" ++ (Utf8.decode text).flatMap glyph ++ utf8 "\""

def ofMembers (members : List (String × Json)) : Json :=
  .object ((members.map fun (key, value) => (utf8 key, value)).mergeSort
    fun a b => Bytes.le a.1 b.1)

def lineEnd (depth : Nat) : List UInt8 := Bytes.newline :: List.replicate (2 * depth) (byte ' ')

mutual

def render (depth : Nat) : Json → List UInt8
  | .null => utf8 "null"
  | .bool true => utf8 "true"
  | .bool false => utf8 "false"
  | .number text => text
  | .string text => quote text
  | .array [] => utf8 "[]"
  | .array (item :: items) =>
      utf8 "[" ++ lineEnd (depth + 1) ++ render (depth + 1) item ++ renderItems (depth + 1) items ++
        lineEnd depth ++ utf8 "]"
  | .object [] => utf8 "\x7b\x7d"
  | .object ((key, value) :: members) =>
      utf8 "\x7b" ++ lineEnd (depth + 1) ++ quote key ++ utf8 ": " ++ render (depth + 1) value ++
        renderMembers (depth + 1) members ++ lineEnd depth ++ utf8 "\x7d"

def renderItems (depth : Nat) : List Json → List UInt8
  | [] => []
  | item :: items => utf8 "," ++ lineEnd depth ++ render depth item ++ renderItems depth items

def renderMembers (depth : Nat) : List (List UInt8 × Json) → List UInt8
  | [] => []
  | (key, value) :: members =>
      utf8 "," ++ lineEnd depth ++ quote key ++ utf8 ": " ++ render depth value ++
        renderMembers depth members

end

def text (j : Json) : List UInt8 := j.render 0 ++ [Bytes.newline]

end Json
end NwscriptBindings
