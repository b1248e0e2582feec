import NwscriptBindings.Command.Run

namespace NwscriptBindings.System

def pathText (path : List UInt8) : String := (String.fromUTF8? path.toByteArray).getD ""

def errorNumber (code : UInt32) : UInt32 := if code < 0x80000000 then code else 0 - code

def numberedCause (code : UInt32) (text : String) : FileCause :=
  match errorNumber code with
  | 20 => .notDirectory
  | 21 => .isDirectory
  | 22 => .invalid
  | 36 => .nameTooLong
  | _ => .other (utf8 text)

def fileCause (e : IO.Error) : FileCause :=
  match e with
  | .noFileOrDirectory .. => .missing
  | .alreadyExists .. => .present
  | .inappropriateType _ code text
  | .invalidArgument _ code text => numberedCause code text
  | e => .other (utf8 (toString e))

def orFault {α : Type} (action : FileAction) (path : List UInt8) (act : IO α) :
    IO (Except FileFault α) := do
  try
    pure (.ok (← act))
  catch e => pure (.error ⟨action, path, fileCause e⟩)

def entryOf (path : List UInt8) : IO.FS.DirEntry := ⟨⟨pathText path⟩, ""⟩

def kindOf (path : List UInt8) : IO (Option EntryKind) := do
  try
    let data ← (entryOf path).root.metadata
    pure (some (if data.type == .dir then .directory else .file))
  catch _ => pure none

def readBytes (path : List UInt8) : IO (Except FileFault (List UInt8)) := do
  match ← kindOf path with
  | some .directory => pure (.error ⟨.read, path, .isDirectory⟩)
  | _ => orFault .access path do pure (← IO.FS.readBinFile (entryOf path).root).data.toList

def namesIn (path : List UInt8) : IO (Option (List (List UInt8))) := do
  try
    let entries ← (entryOf path).root.readDir
    pure (some (entries.toList.map fun e => utf8 e.fileName))
  catch _ => pure none

def host : Host IO where
  read := readBytes
  write path content :=
    orFault .access path (IO.FS.writeBinFile (entryOf path).root content.toByteArray)
  kind := kindOf
  names := namesIn
  makeDir path := orFault .makeDir path (IO.FS.createDir (entryOf path).root)
  clock := IO.monoMsNow
  runtimeVersion := utf8 "unknown"

end NwscriptBindings.System

def main (args : List String) : IO UInt32 := do
  let exit ← NwscriptBindings.Command.run NwscriptBindings.System.host
    (args.map NwscriptBindings.utf8)
  (← IO.getStdout).write exit.stdout.toByteArray
  (← IO.getStderr).write exit.stderr.toByteArray
  pure (UInt32.ofNat exit.status)
