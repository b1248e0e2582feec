import NwscriptBindings.Number.Marked
import NwscriptBindings.Text.Quoted

namespace NwscriptBindings

structure Options where
  emitTokens : Bool := false
  emitTree : Bool := false
  treeFormat : List UInt8 := utf8 "text"
  verifyRoundTrip : Bool := false
  statistics : Bool := false
  verbose : Bool := false
  jobs : Int := 1
  outputDir : List UInt8 := []
  version : Bool := false
deriving DecidableEq

inductive Setting where
  | switch (set : Bool → Options → Options)
  | text (set : List UInt8 → Options → Options)
  | number (set : Int → Options → Options)

inductive Flag where
  | treeFormat | emitTree | emitTokens | jobs | output | statistics | verbose | verifyRoundTrip
  | version
deriving DecidableEq

namespace Flag

-- In the order of the usage text.
def all : List Flag :=
  [treeFormat, emitTree, emitTokens, jobs, output, statistics, verbose, verifyRoundTrip, version]

def name : Flag → String
  | treeFormat => "ast-format"
  | emitTree => "emit-ast"
  | emitTokens => "emit-tokens"
  | jobs => "j"
  | output => "o"
  | statistics => "stats"
  | verbose => "v"
  | verifyRoundTrip => "verify-roundtrip"
  | version => "version"

def purpose : Flag → String
  | treeFormat => "AST output format (text or json) (default \"text\")"
  | emitTree => "Output AST instead of generating code"
  | emitTokens => "Output token table instead of generating code"
  | jobs => "Number of files processed in parallel (default 1)"
  | output => "Output directory (default: next to each input)"
  | statistics => "Print token and node counts"
  | verbose => "Print progress and timing"
  | verifyRoundTrip => "Check that the tokens reproduce the source"
  | version => "Print version"

def setting : Flag → Setting
  | treeFormat => .text fun v o => { o with treeFormat := v }
  | emitTree => .switch fun v o => { o with emitTree := v }
  | emitTokens => .switch fun v o => { o with emitTokens := v }
  | jobs => .number fun v o => { o with jobs := v }
  | output => .text fun v o => { o with outputDir := v }
  | statistics => .switch fun v o => { o with statistics := v }
  | verbose => .switch fun v o => { o with verbose := v }
  | verifyRoundTrip => .switch fun v o => { o with verifyRoundTrip := v }
  | version => .switch fun v o => { o with version := v }

def ofName? (name : List UInt8) : Option Flag := all.find? (utf8 ·.name == name)

def valueWord (f : Flag) : String :=
  match f.setting with
  | .switch _ => ""
  | .text _ => " string"
  | .number _ => " int"

-- A heading that is short enough shares its line.
def usage (f : Flag) : List UInt8 :=
  let heading := utf8 "  -" ++ utf8 f.name ++ utf8 f.valueWord
  heading ++ (if heading.length ≤ 4 then utf8 "\t" else utf8 "\n    \t") ++ utf8 f.purpose ++
    utf8 "\n"

end Flag

inductive OptionFault where
  | badSyntax (arg : List UInt8)
  | undefined (name : List UInt8)
  | needsArgument (name : List UInt8)
  | badSwitch (name value : List UInt8)
  | badNumber (name value : List UInt8) (fault : Marked.Fault)
  | help
deriving DecidableEq

namespace Options

def toolName : List UInt8 := utf8 "nss2cs"

def toolVersion : List UInt8 := utf8 "0.1.0-dev"

def usage : List UInt8 :=
  toolName ++ utf8 " " ++ toolVersion ++ utf8 "\n\nUsage: " ++ toolName ++
    utf8 " [options] <file.nss|glob>...\n\nOptions:\n" ++ Flag.all.flatMap Flag.usage

def switch? (value : List UInt8) : Option Bool :=
  if ["1", "t", "T", "true", "TRUE", "True"].any (utf8 · == value) then some true
  else if ["0", "f", "F", "false", "FALSE", "False"].any (utf8 · == value) then some false
  else none

end Options

namespace OptionFault

def numberFault : Marked.Fault → List UInt8
  | .malformed => utf8 "parse error"
  | .outOfRange => utf8 "value out of range"

def text? : OptionFault → Option (List UInt8)
  | badSyntax arg => some (utf8 "bad flag syntax: " ++ arg)
  | undefined name => some (utf8 "flag provided but not defined: -" ++ name)
  | needsArgument name => some (utf8 "flag needs an argument: -" ++ name)
  | badSwitch name value =>
      some (utf8 "invalid boolean value " ++ Quoted.quote value ++ utf8 " for -" ++ name ++
        utf8 ": parse error")
  | badNumber name value fault =>
      some (utf8 "invalid value " ++ Quoted.quote value ++ utf8 " for flag -" ++ name ++
        utf8 ": " ++ numberFault fault)
  | help => none

end OptionFault

inductive Argument where
  | operand
  | endOfFlags
  | malformed
  | flag (name : List UInt8) (value : Option (List UInt8))
deriving DecidableEq

namespace Argument

def divide (text : List UInt8) : Argument :=
  let name := text.takeWhile (· != byte '=')
  match text.drop name.length with
  | [] => .flag name none
  | _ :: value => .flag name (some value)

def named (text : List UInt8) : Argument :=
  match text with
  | [] => .malformed
  | c :: _ => if c = byte '-' ∨ c = byte '=' then .malformed else divide text

def ofText : List UInt8 → Argument
  | dash :: c :: rest =>
      if dash ≠ byte '-' then .operand
      else if c ≠ byte '-' then named (c :: rest)
      else if rest.isEmpty then .endOfFlags
      else named rest
  | _ => .operand

end Argument

namespace Options

def assign (f : Flag) (name value : List UInt8) (o : Options) : Except OptionFault Options :=
  match f.setting with
  | .switch set =>
      match switch? value with
      | some v => .ok (set v o)
      | none => .error (.badSwitch name value)
  | .text set => .ok (set value o)
  | .number set =>
      match Marked.integer value with
      | .ok v => .ok (set v o)
      | .error fault => .error (.badNumber name value fault)

def takesNext (f : Flag) : Bool :=
  match f.setting with
  | .switch _ => false
  | _ => true

-- A later value of a flag replaces an earlier one.
def read (o : Options) : List (List UInt8) → Except OptionFault (Options × List (List UInt8))
  | [] => .ok (o, [])
  | arg :: args =>
      match Argument.ofText arg with
      | .operand => .ok (o, arg :: args)
      | .endOfFlags => .ok (o, args)
      | .malformed => .error (.badSyntax arg)
      | .flag name value =>
          match Flag.ofName? name with
          | none =>
              if name = utf8 "help" ∨ name = utf8 "h" then .error .help
              else .error (.undefined name)
          | some f =>
              match value with
              | some text =>
                  match assign f name text o with
                  | .ok o' => read o' args
                  | .error fault => .error fault
              | none =>
                  if takesNext f then
                    match args with
                    | [] => .error (.needsArgument name)
                    | text :: rest =>
                        match assign f name text o with
                        | .ok o' => read o' rest
                        | .error fault => .error fault
                  else
                    match assign f name (utf8 "true") o with
                    | .ok o' => read o' args
                    | .error fault => .error fault

end Options
end NwscriptBindings
