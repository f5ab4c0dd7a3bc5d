import HexPatterns.Command.Arguments
import HexPatterns.Command.Run
import HexPatterns.Compilation.Basic
import HexPatterns.Compilation.Compile
import HexPatterns.Compilation.Expand
import HexPatterns.Compilation.Include
import HexPatterns.Decimal.Literal
import HexPatterns.Decimal.Shortest
import HexPatterns.Definition
import HexPatterns.Diagnostic
import HexPatterns.Event
import HexPatterns.Fault
import HexPatterns.Files.Set
import HexPatterns.Files.Snapshot
import HexPatterns.Files.Store
import HexPatterns.Files.Tree
import HexPatterns.Generator
import HexPatterns.Grid.Move
import HexPatterns.Grid.Point
import HexPatterns.Grid.Walk
import HexPatterns.Main
import HexPatterns.Path
import HexPatterns.Proofs.Alike
import HexPatterns.Proofs.Approach
import HexPatterns.Proofs.Arena
import HexPatterns.Proofs.Bodies
import HexPatterns.Proofs.BodyLines
import HexPatterns.Proofs.Budget
import HexPatterns.Proofs.Coins
import HexPatterns.Proofs.Contents
import HexPatterns.Proofs.Definitions
import HexPatterns.Proofs.Doubles
import HexPatterns.Proofs.Ending
import HexPatterns.Proofs.Estimate
import HexPatterns.Proofs.ExactFirst
import HexPatterns.Proofs.Expansion
import HexPatterns.Proofs.Extensions
import HexPatterns.Proofs.FloatLaws
import HexPatterns.Proofs.Formats
import HexPatterns.Proofs.Frontier
import HexPatterns.Proofs.Grammar
import HexPatterns.Proofs.Growth
import HexPatterns.Proofs.History
import HexPatterns.Proofs.Inclusion
import HexPatterns.Proofs.Injection
import HexPatterns.Proofs.Leftovers
import HexPatterns.Proofs.Library
import HexPatterns.Proofs.Lines
import HexPatterns.Proofs.Literals
import HexPatterns.Proofs.Located
import HexPatterns.Proofs.Memo
import HexPatterns.Proofs.Nesting
import HexPatterns.Proofs.Order
import HexPatterns.Proofs.Outline
import HexPatterns.Proofs.Outlook
import HexPatterns.Proofs.Overwriting
import HexPatterns.Proofs.Partition
import HexPatterns.Proofs.Pasting
import HexPatterns.Proofs.Paths
import HexPatterns.Proofs.Places
import HexPatterns.Proofs.ReadAlike
import HexPatterns.Proofs.Recompile
import HexPatterns.Proofs.Recursion
import HexPatterns.Proofs.Replay
import HexPatterns.Proofs.Rounding
import HexPatterns.Proofs.Rounds
import HexPatterns.Proofs.Scaling
import HexPatterns.Proofs.Scan
import HexPatterns.Proofs.SearchSound
import HexPatterns.Proofs.Spans
import HexPatterns.Proofs.Spelling
import HexPatterns.Proofs.Walk
import HexPatterns.Proofs.Work
import HexPatterns.Proofs.Wrapping
import HexPatterns.Registry
import HexPatterns.Scalar.Basic
import HexPatterns.Scalar.Binary64
import HexPatterns.Scalar.Float
import HexPatterns.Scalar.Rational
import HexPatterns.Settings.Basic
import HexPatterns.Settings.Document
import HexPatterns.Source.Catalog
import HexPatterns.Source.Position
import HexPatterns.Source.Text
import HexPatterns.Synthesis.Arena
import HexPatterns.Synthesis.Estimate
import HexPatterns.Synthesis.Frontier
import HexPatterns.Synthesis.Search
import HexPatterns.Synthesis.Significand
import HexPatterns.Synthesis.Solver
import HexPatterns.Text.Blank
import HexPatterns.Text.Line
import HexPatterns.Token.Basic
import HexPatterns.Token.Lexer
import HexPatterns.Yaml.Cursor
import HexPatterns.Yaml.Node
import HexPatterns.Yaml.Scalar
import HexPatterns.Yaml.Token
