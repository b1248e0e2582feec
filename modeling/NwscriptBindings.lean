import NwscriptBindings.Binding.Abi
import NwscriptBindings.Binding.Code
import NwscriptBindings.Binding.Engine
import NwscriptBindings.Binding.Generate
import NwscriptBindings.Binding.Obstacle
import NwscriptBindings.Binding.Plugin
import NwscriptBindings.Binding.Value
import NwscriptBindings.Command.FileTree
import NwscriptBindings.Command.Glob
import NwscriptBindings.Command.Host
import NwscriptBindings.Command.Options
import NwscriptBindings.Command.Path
import NwscriptBindings.Command.Report
import NwscriptBindings.Command.Run
import NwscriptBindings.Diagnostic
import NwscriptBindings.Grammar.Capture
import NwscriptBindings.Grammar.Declaration
import NwscriptBindings.Grammar.Literal
import NwscriptBindings.Grammar.Outcome
import NwscriptBindings.Grammar.ScriptUnit
import NwscriptBindings.Grammar.Statement
import NwscriptBindings.LineTable
import NwscriptBindings.Main
import NwscriptBindings.Number.Binary32
import NwscriptBindings.Number.Decimal
import NwscriptBindings.Number.Digits
import NwscriptBindings.Number.Marked
import NwscriptBindings.Proofs.Binding.Bridge
import NwscriptBindings.Proofs.Binding.Carriage
import NwscriptBindings.Proofs.Binding.Comments
import NwscriptBindings.Proofs.Binding.Emission
import NwscriptBindings.Proofs.Binding.Flattening
import NwscriptBindings.Proofs.Binding.FloatLiterals
import NwscriptBindings.Proofs.Binding.Generated
import NwscriptBindings.Proofs.Binding.Leaves
import NwscriptBindings.Proofs.Binding.LiteralTexts
import NwscriptBindings.Proofs.Binding.Numbering
import NwscriptBindings.Proofs.Binding.Places
import NwscriptBindings.Proofs.Binding.PluginMethods
import NwscriptBindings.Proofs.Binding.Reordering
import NwscriptBindings.Proofs.Binding.Sentinels
import NwscriptBindings.Proofs.Binding.SpelledLiterals
import NwscriptBindings.Proofs.Binding.StackOrder
import NwscriptBindings.Proofs.Binding.Support
import NwscriptBindings.Proofs.Command.CodeNames
import NwscriptBindings.Proofs.Command.Following
import NwscriptBindings.Proofs.Command.Isolation
import NwscriptBindings.Proofs.Grammar.Alternatives
import NwscriptBindings.Proofs.Grammar.Attempts
import NwscriptBindings.Proofs.Grammar.Completeness
import NwscriptBindings.Proofs.Grammar.Composition
import NwscriptBindings.Proofs.Grammar.Confined
import NwscriptBindings.Proofs.Grammar.Declarations
import NwscriptBindings.Proofs.Grammar.Derivation
import NwscriptBindings.Proofs.Grammar.Directives
import NwscriptBindings.Proofs.Grammar.Failures
import NwscriptBindings.Proofs.Grammar.FormOrder
import NwscriptBindings.Proofs.Grammar.Lookahead
import NwscriptBindings.Proofs.Grammar.Matching
import NwscriptBindings.Proofs.Grammar.NearestIf
import NwscriptBindings.Proofs.Grammar.Nesting
import NwscriptBindings.Proofs.Grammar.NodeRules
import NwscriptBindings.Proofs.Grammar.NodeSpans
import NwscriptBindings.Proofs.Grammar.NumberLiterals
import NwscriptBindings.Proofs.Grammar.Progress
import NwscriptBindings.Proofs.Grammar.Range
import NwscriptBindings.Proofs.Grammar.Reads
import NwscriptBindings.Proofs.Grammar.Recognition
import NwscriptBindings.Proofs.Grammar.Reemission
import NwscriptBindings.Proofs.Grammar.Reported
import NwscriptBindings.Proofs.Grammar.Respacing
import NwscriptBindings.Proofs.Grammar.Soundness
import NwscriptBindings.Proofs.Grammar.Spelling
import NwscriptBindings.Proofs.Grammar.Statements
import NwscriptBindings.Proofs.Grammar.Underlining
import NwscriptBindings.Proofs.Grammar.Values
import NwscriptBindings.Proofs.Grammar.ViablePrefix
import NwscriptBindings.Proofs.Grammar.WellFormed
import NwscriptBindings.Proofs.Grammar.Whitespace
import NwscriptBindings.Proofs.Number.Nearest
import NwscriptBindings.Proofs.Number.Numerals
import NwscriptBindings.Proofs.Number.Rounding
import NwscriptBindings.Proofs.Number.Spelled
import NwscriptBindings.Proofs.Text.Encoding
import NwscriptBindings.Proofs.Text.LineEnds
import NwscriptBindings.Proofs.Text.OneLine
import NwscriptBindings.Proofs.Text.Splitting
import NwscriptBindings.Proofs.Token.Characters
import NwscriptBindings.Proofs.Token.Closing
import NwscriptBindings.Proofs.Token.Extent
import NwscriptBindings.Proofs.Token.Hulls
import NwscriptBindings.Proofs.Token.Lexemes
import NwscriptBindings.Proofs.Token.LineBoundary
import NwscriptBindings.Proofs.Token.LineTable
import NwscriptBindings.Proofs.Token.Lossless
import NwscriptBindings.Proofs.Token.Position
import NwscriptBindings.Proofs.Token.Relex
import NwscriptBindings.Proofs.Token.RoundTrip
import NwscriptBindings.Proofs.Token.SpanOrder
import NwscriptBindings.Proofs.Token.TableRows
import NwscriptBindings.Proofs.Token.Words
import NwscriptBindings.Proofs.Tree.DumpLines
import NwscriptBindings.Proofs.Tree.Dumps
import NwscriptBindings.Proofs.Tree.Levels
import NwscriptBindings.Proofs.Tree.Slots
import NwscriptBindings.Proofs.Tree.Traversal
import NwscriptBindings.Source
import NwscriptBindings.Span
import NwscriptBindings.Text.Bytes
import NwscriptBindings.Text.Json
import NwscriptBindings.Text.Printable
import NwscriptBindings.Text.Quoted
import NwscriptBindings.Text.Utf8
import NwscriptBindings.Token.Basic
import NwscriptBindings.Token.Scan
import NwscriptBindings.Token.Stream
import NwscriptBindings.Token.Table
import NwscriptBindings.Tree.Basic
import NwscriptBindings.Tree.Document
import NwscriptBindings.Tree.Node
import NwscriptBindings.Tree.Outline
import NwscriptBindings.Tree.Rose
