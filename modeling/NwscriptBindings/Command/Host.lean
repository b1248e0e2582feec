import NwscriptBindings.Command.Glob

namespace NwscriptBindings

inductive FileCause where
  | missing
  | notDirectory
  | isDirectory
  | present
  | nameTooLong
  | invalid
  | other (text : List UInt8)
deriving DecidableEq

namespace FileCause

def text : FileCause → List UInt8
  | missing => utf8 "no such file or directory"
  | notDirectory => utf8 "not a directory"
  | isDirectory => utf8 "is a directory"
  | present => utf8 "file exists"
  | nameTooLong => utf8 "file name too long"
  | invalid => utf8 "invalid argument"
  | other text => text

end FileCause

inductive FileAction where
  | access | read | makeDir
deriving DecidableEq

namespace FileAction

def name : FileAction → String
  | access => "open"
  | read => "read"
  | makeDir => "mkdir"

end FileAction

structure FileFault where
  action : FileAction
  path : List UInt8
  cause : FileCause
deriving DecidableEq

namespace FileFault

def text (f : FileFault) : List UInt8 :=
  utf8 f.action.name ++ utf8 " " ++ f.path ++ utf8 ": " ++ f.cause.text

end FileFault

inductive EntryKind where
  | file | directory
deriving DecidableEq

structure Host (m : Type → Type) where
  read : List UInt8 → m (Except FileFault (List UInt8))
  write : List UInt8 → List UInt8 → m (Except FileFault Unit)
  kind : List UInt8 → m (Option EntryKind)
  names : List UInt8 → m (Option (List (List UInt8)))
  makeDir : List UInt8 → m (Except FileFault Unit)
  clock : m Nat
  runtimeVersion : List UInt8

namespace Host

variable {m : Type → Type} [Monad m]

-- A directory that is there already will do.
def makeLast (host : Host m) (path : List UInt8) : m (Except FileFault Unit) := do
  match ← host.makeDir path with
  | .ok () => pure (.ok ())
  | .error fault =>
      match ← host.kind path with
      | some .directory => pure (.ok ())
      | _ => pure (.error fault)

def makeDirs (host : Host m) (path : List UInt8) : m (Except FileFault Unit) := do
  match ← host.kind path with
  | some .directory => pure (.ok ())
  | some .file => pure (.error ⟨.makeDir, path, .notDirectory⟩)
  | none =>
      match _above : Path.parent? path with
      | none => host.makeLast path
      | some parent =>
          match ← host.makeDirs parent with
          | .error fault => pure (.error fault)
          | .ok () => host.makeLast path
termination_by path.length
decreasing_by exact Path.parent?_shorter _ _ _above

end Host
end NwscriptBindings
