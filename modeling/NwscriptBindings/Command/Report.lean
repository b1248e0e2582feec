import NwscriptBindings.Binding.Generate
import NwscriptBindings.Command.Host
import NwscriptBindings.Command.Options
import NwscriptBindings.Grammar.ScriptUnit
import NwscriptBindings.Token.Stream
import NwscriptBindings.Token.Table
import NwscriptBindings.Tree.Document
import NwscriptBindings.Tree.Outline

namespace NwscriptBindings

structure Report where
  stdout : List UInt8 := []
  stderr : List UInt8 := []
  failed : Bool := false
deriving DecidableEq

namespace Report

def append (a b : Report) : Report :=
  ⟨a.stdout ++ b.stdout, a.stderr ++ b.stderr, a.failed || b.failed⟩

instance : Append Report := ⟨append⟩

def silent : Report := {}

def output (text : List UInt8) : Report := { stdout := text }

def say (lines : List (List UInt8)) : Report := output (Bytes.endLines lines)

def warn (lines : List (List UInt8)) : Report := { stderr := Bytes.endLines lines }

def fail (lines : List (List UInt8)) : Report :=
  { stderr := Bytes.endLines lines, failed := true }

def onlyIf (wanted : Bool) (report : Report) : Report := if wanted then report else silent

def concat (reports : List Report) : Report := reports.foldr append silent

end Report

def codeName (path : List UInt8) : List UInt8 := Path.stem (Path.base path) ++ utf8 ".cs"

def codePath (outputDir path : List UInt8) : List UInt8 :=
  Path.join (if outputDir.isEmpty then Path.dir path else outputDir) (codeName path)

def aboutFile (path text : List UInt8) : List UInt8 := path ++ utf8 ": " ++ text

def errorLine (text : List UInt8) : List UInt8 := utf8 "error: " ++ text

def countRow (name : List UInt8) (count : Nat) : List UInt8 :=
  utf8 "  " ++ Bytes.padEnd 16 name ++ utf8 " " ++ Bytes.ofNat count

def tokenCounts (tokens : List Token) : List (List UInt8 × Nat) :=
  (Kind.all.map fun k => (utf8 k.name, (tokens.filter (·.kind == k)).length)).filter (0 < ·.2)

def nodeCounts (u : ScriptUnit) : List (List UInt8 × Nat) :=
  let names := u.tree.preorder.map fun n => utf8 n.typeName
  (names.eraseDups.mergeSort Bytes.le).map fun name => (name, names.count name)

def statisticsLines (path : List UInt8) (tokens : List Token) (u : ScriptUnit) :
    List (List UInt8) :=
  aboutFile path (Bytes.ofNat tokens.length ++ utf8 " tokens") ::
    (tokenCounts tokens).map (fun (name, count) => countRow name count) ++
    aboutFile path (utf8 "nodes") ::
    (nodeCounts u).map (fun (name, count) => countRow name count)

def treeReport (format : List UInt8) (u : ScriptUnit) : Report :=
  if format = utf8 "json" then .output (Node.unit u).dumpJson
  else if format = utf8 "text" then .output (Node.unit u).dumpText
  else .fail [errorLine (utf8 "unknown AST format " ++ Quoted.quote format)]

def diagnosticLines (path : List UInt8) (d : Diagnostic) : List (List UInt8) :=
  match d.report with
  | [] => []
  | message :: details => aboutFile path message :: details.map (utf8 "  " ++ ·)

structure Draft where
  report : Report
  code : Option (List UInt8) := none
deriving DecidableEq

namespace Draft

def ofTokens (o : Options) (path : List UInt8) (source : Source) (tokens : List Token) : Draft :=
  match ScriptUnit.parse source.name source.lines tokens with
  | .error e => ⟨.fail (diagnosticLines path e.diagnostic), none⟩
  | .ok u =>
      let counted := Report.onlyIf o.statistics (.say (statisticsLines path tokens u))
      if o.emitTree then ⟨counted ++ treeReport o.treeFormat u, none⟩
      else
        match u.generate with
        | .error e => ⟨counted ++ .fail [aboutFile path e.fault.text], none⟩
        | .ok code => ⟨counted, some code⟩

def tokenReport (o : Options) (path : List UInt8) (source : Source) (tokens : List Token) :
    Report :=
  .warn ((warnings tokens).map fun w => aboutFile path w.text) ++
    Report.onlyIf o.verifyRoundTrip
      (.warn ((Token.mismatches source tokens).map fun m => aboutFile path m.text))

def ofSource (o : Options) (path : List UInt8) (source : Source) : Draft :=
  let tokens := tokenize source.text
  let early := tokenReport o path source tokens
  if o.emitTokens then ⟨early ++ .output (Token.table tokens), none⟩
  else
    let late := ofTokens o path source tokens
    ⟨early ++ late.report, late.code⟩

def ofContent (o : Options) (path : List UInt8) (content : Except FileFault (List UInt8)) :
    Draft :=
  match content with
  | .error fault => ⟨.fail [errorLine fault.text], none⟩
  | .ok text =>
      let source := Source.ofText (Path.base path) text
      if source.isEmpty then
        ⟨Report.onlyIf o.verbose (.say [utf8 "Skipping empty file " ++ path]), none⟩
      else ofSource o path source

end Draft
end NwscriptBindings
