import NwscriptBindings.Text.Bytes

namespace NwscriptBindings.Path

abbrev slash : UInt8 := byte '/'

def dot : List UInt8 := utf8 "."

def dotDot : List UInt8 := utf8 ".."

def isRooted (path : List UInt8) : Bool := path.head? == some slash

def cleanStep (rooted : Bool) (kept : List (List UInt8)) (element : List UInt8) :
    List (List UInt8) :=
  if element.isEmpty || element == dot then kept
  else if element == dotDot then
    match kept with
    | [] => if rooted then [] else [dotDot]
    | last :: rest => if last == dotDot then dotDot :: last :: rest else rest
  else element :: kept

def clean (path : List UInt8) : List UInt8 :=
  let rooted := isRooted path
  let kept := ((Bytes.splitOn slash path).foldl (cleanStep rooted) []).reverse
  let text := List.intercalate [slash] kept
  if rooted then slash :: text else if text.isEmpty then dot else text

-- An empty part does not count.
def join (dir name : List UInt8) : List UInt8 :=
  if dir.isEmpty then (if name.isEmpty then [] else clean name)
  else clean (dir ++ [slash] ++ name)

def trimSlashes (path : List UInt8) : List UInt8 := Bytes.trimEnd (· == slash) path

def lastElement (path : List UInt8) : List UInt8 :=
  (path.reverse.takeWhile (· != slash)).reverse

def upToLastSlash (path : List UInt8) : List UInt8 :=
  (path.reverse.dropWhile (· != slash)).reverse

def base (path : List UInt8) : List UInt8 :=
  if path.isEmpty then dot
  else
    let trimmed := trimSlashes path
    if trimmed.isEmpty then [slash] else lastElement trimmed

def dir (path : List UInt8) : List UInt8 := clean (upToLastSlash path)

def extension (path : List UInt8) : List UInt8 :=
  let element := lastElement path
  let after := element.reverse.takeWhile (· != byte '.')
  if after.length < element.length then byte '.' :: after.reverse else []

def stem (name : List UInt8) : List UInt8 := name.take (name.length - (extension name).length)

-- The path up to its last element, without the slash between them; nothing if the element stands
-- alone or below the root.
def parent? (path : List UInt8) : Option (List UInt8) :=
  match (path.reverse.dropWhile (· == slash)).dropWhile (· != slash) with
  | [] => none
  | _ :: rest => if rest.isEmpty then none else some rest.reverse

theorem parent?_shorter (path parent : List UInt8) (found : parent? path = some parent) :
    parent.length < path.length := by
  unfold parent? at found
  split at found
  · cases found
  · rename_i c rest shape
    split at found
    · cases found
    · cases found
      have inner := ((path.reverse.dropWhile (· == slash)).dropWhile_sublist
        (· != slash)).length_le
      have outer := (path.reverse.dropWhile_sublist (· == slash)).length_le
      rw [shape] at inner
      simp only [List.length_cons, List.length_reverse] at inner outer ⊢
      omega

end NwscriptBindings.Path
