import NwscriptBindings.Command.Report

namespace NwscriptBindings

structure Exit where
  status : Nat
  stdout : List UInt8 := []
  stderr : List UInt8 := []
deriving DecidableEq

namespace Command

variable {m : Type → Type} [Monad m]

def runFile (host : Host m) (o : Options) (path : List UInt8) : m Report := do
  let start ← host.clock
  let draft := Draft.ofContent o path (← host.read path)
  let report := Report.onlyIf o.verbose (.say [utf8 "Loading " ++ path]) ++ draft.report
  match draft.code with
  | none => pure report
  | some code =>
      match ← host.write (codePath o.outputDir path) code with
      | .error fault => pure (report ++ .fail [errorLine fault.text])
      | .ok () =>
          let stop ← host.clock
          pure (report ++ Report.onlyIf o.verbose
            (.say [utf8 "Processed in " ++ Bytes.ofNat (stop - start) ++ utf8 "ms"]))

def runFiles (host : Host m) (o : Options) : List (List UInt8) → m (List Report)
  | [] => pure []
  | path :: paths => do
      let report ← runFile host o path
      let reports ← runFiles host o paths
      pure (report :: reports)

def exitOf (reports : List Report) : Exit :=
  let all := Report.concat reports
  ⟨if all.failed then 1 else 0, all.stdout, all.stderr⟩

def refuse (text : List UInt8) : Exit := ⟨1, [], Bytes.endLines [errorLine text]⟩

def runBatch (host : Host m) (o : Options) (paths : List (List UInt8)) : m Exit := do
  if o.outputDir.isEmpty then pure (exitOf (← runFiles host o paths))
  else
    match ← host.makeDirs o.outputDir with
    | .error fault => pure (refuse fault.text)
    | .ok () => pure (exitOf (← runFiles host o paths))

inductive ExpandFault where
  | malformed (pattern : List UInt8)
  | noMatch (pattern : List UInt8)
deriving DecidableEq

def ExpandFault.text : ExpandFault → List UInt8
  | malformed pattern =>
      utf8 "pattern " ++ Quoted.quote pattern ++ utf8 ": syntax error in pattern"
  | noMatch pattern => utf8 "no files match " ++ Quoted.quote pattern

-- An argument without wildcards is kept as it is.
def expandOne (host : Host m) (arg : List UInt8) : m (Except ExpandFault (List (List UInt8))) := do
  if arg.any Glob.isWild then
    match ← Glob.expand host.names Glob.maxLevels arg with
    | none => pure (.error (.malformed arg))
    | some [] => pure (.error (.noMatch arg))
    | some paths => pure (.ok paths)
  else pure (.ok [arg])

def expandAll (host : Host m) :
    List (List UInt8) → m (Except ExpandFault (List (List UInt8)))
  | [] => pure (.ok [])
  | arg :: args => do
      match ← expandOne host arg with
      | .error fault => pure (.error fault)
      | .ok paths =>
          match ← expandAll host args with
          | .error fault => pure (.error fault)
          | .ok more => pure (.ok (paths ++ more))

def optionExit (fault : OptionFault) : Exit :=
  match fault.text? with
  | none => ⟨0, [], Options.usage⟩
  | some text => ⟨2, [], Bytes.endLines [text] ++ Options.usage⟩

def versionExit (runtimeVersion : List UInt8) : Exit :=
  ⟨0, Bytes.endLines [Options.toolName ++ utf8 " version " ++ Options.toolVersion,
    utf8 "go version " ++ runtimeVersion], []⟩

def noInputExit : Exit :=
  ⟨1, [], Bytes.endLines [utf8 "error: no input file",
    utf8 "usage: " ++ Options.toolName ++ utf8 " [options] <file.nss|glob>..."]⟩

def run (host : Host m) (args : List (List UInt8)) : m Exit := do
  match Options.read {} args with
  | .error fault => pure (optionExit fault)
  | .ok (o, operands) =>
      if o.version then pure (versionExit host.runtimeVersion)
      else if operands.isEmpty then pure noInputExit
      else
        match ← expandAll host operands with
        | .error fault => pure (refuse fault.text)
        | .ok paths => runBatch host o paths

end Command
end NwscriptBindings
