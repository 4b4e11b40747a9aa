import SchemaGrammar.Assoc
import SchemaGrammar.Check.Checker
import SchemaGrammar.Check.Format
import SchemaGrammar.Check.Mismatch
import SchemaGrammar.Check.Path
import SchemaGrammar.Command.Arguments
import SchemaGrammar.Command.Error
import SchemaGrammar.Command.Invocation
import SchemaGrammar.Command.Run
import SchemaGrammar.Compiler
import SchemaGrammar.Decimal.Scaling
import SchemaGrammar.Decimal.Shortest
import SchemaGrammar.Definitions.Scope
import SchemaGrammar.Definitions.ScopeTable
import SchemaGrammar.Error
import SchemaGrammar.Files.Access
import SchemaGrammar.Files.Glob
import SchemaGrammar.Files.Name
import SchemaGrammar.Files.Search
import SchemaGrammar.Files.Tree
import SchemaGrammar.Grammar.Body
import SchemaGrammar.Grammar.Combinators
import SchemaGrammar.Grammar.Literal
import SchemaGrammar.Json.Cursor
import SchemaGrammar.Json.Printer
import SchemaGrammar.Json.Problem
import SchemaGrammar.Json.Reader
import SchemaGrammar.Json.Scanner
import SchemaGrammar.Json.Skipper
import SchemaGrammar.Json.Value
import SchemaGrammar.Layout
import SchemaGrammar.Main
import SchemaGrammar.Options
import SchemaGrammar.Proofs.Agreement
import SchemaGrammar.Proofs.AllowedLineBreaks
import SchemaGrammar.Proofs.CheckRun
import SchemaGrammar.Proofs.CheckingEnds
import SchemaGrammar.Proofs.ClosedForms
import SchemaGrammar.Proofs.ClosedGrammar
import SchemaGrammar.Proofs.Combinators
import SchemaGrammar.Proofs.CompactText
import SchemaGrammar.Proofs.CompiledLanguage
import SchemaGrammar.Proofs.ContainerBody
import SchemaGrammar.Proofs.DefinitionNames
import SchemaGrammar.Proofs.DefinitionsOnce
import SchemaGrammar.Proofs.Derivation
import SchemaGrammar.Proofs.Emission
import SchemaGrammar.Proofs.EmissionGraph
import SchemaGrammar.Proofs.EmissionState
import SchemaGrammar.Proofs.ErasedDefinitions
import SchemaGrammar.Proofs.FailurePlaces
import SchemaGrammar.Proofs.FormatStrings
import SchemaGrammar.Proofs.Fragments
import SchemaGrammar.Proofs.GroundedRules
import SchemaGrammar.Proofs.IndentedText
import SchemaGrammar.Proofs.InertDefinitions
import SchemaGrammar.Proofs.IntegerTexts
import SchemaGrammar.Proofs.JsonSyntax
import SchemaGrammar.Proofs.LexicalPlaces
import SchemaGrammar.Proofs.LineMargins
import SchemaGrammar.Proofs.ListLengths
import SchemaGrammar.Proofs.LiteralQuoting
import SchemaGrammar.Proofs.LocalReading
import SchemaGrammar.Proofs.Lookup
import SchemaGrammar.Proofs.LoweredShapes
import SchemaGrammar.Proofs.LoweredTable
import SchemaGrammar.Proofs.LoweringByParts
import SchemaGrammar.Proofs.LoweringOutcome
import SchemaGrammar.Proofs.LoweringRun
import SchemaGrammar.Proofs.Meaning
import SchemaGrammar.Proofs.MentionedNames
import SchemaGrammar.Proofs.ObjectMembers
import SchemaGrammar.Proofs.PropertyOrder
import SchemaGrammar.Proofs.ReadBack
import SchemaGrammar.Proofs.Reading
import SchemaGrammar.Proofs.ReadingInContext
import SchemaGrammar.Proofs.ReadingObjects
import SchemaGrammar.Proofs.ReferenceFree
import SchemaGrammar.Proofs.RepeatedMembers
import SchemaGrammar.Proofs.Represents
import SchemaGrammar.Proofs.RequestRuns
import SchemaGrammar.Proofs.RuleGraph
import SchemaGrammar.Proofs.RuleGrowth
import SchemaGrammar.Proofs.RuleNames
import SchemaGrammar.Proofs.RuleTable
import SchemaGrammar.Proofs.RunsInStep
import SchemaGrammar.Proofs.ScalarDocuments
import SchemaGrammar.Proofs.ScalarRules
import SchemaGrammar.Proofs.ScalarText
import SchemaGrammar.Proofs.ScalarTokens
import SchemaGrammar.Proofs.SchemaBeginnings
import SchemaGrammar.Proofs.SchemaFlaws
import SchemaGrammar.Proofs.SchemaMeaning
import SchemaGrammar.Proofs.SchemaText
import SchemaGrammar.Proofs.Scoping
import SchemaGrammar.Proofs.SeparatedTexts
import SchemaGrammar.Proofs.ShapeGraph
import SchemaGrammar.Proofs.ShapeLanguage
import SchemaGrammar.Proofs.ShapeMeaning
import SchemaGrammar.Proofs.SingleLine
import SchemaGrammar.Proofs.SkippedScalars
import SchemaGrammar.Proofs.SkippedValues
import SchemaGrammar.Proofs.StableAnswers
import SchemaGrammar.Proofs.StateRuns
import SchemaGrammar.Proofs.StoredSchemas
import SchemaGrammar.Proofs.StringSpelling
import SchemaGrammar.Proofs.TerminalBody
import SchemaGrammar.Proofs.TrailingLineBreaks
import SchemaGrammar.Proofs.Translation
import SchemaGrammar.Proofs.UnionBranches
import SchemaGrammar.Proofs.WatchedRuns
import SchemaGrammar.Proofs.WrittenGrammars
import SchemaGrammar.Proofs.WrittenText
import SchemaGrammar.Rules.Composite
import SchemaGrammar.Rules.Emitter
import SchemaGrammar.Rules.Table
import SchemaGrammar.Schema.Basic
import SchemaGrammar.Schema.Fold
import SchemaGrammar.Schema.Keyword
import SchemaGrammar.Schema.OfText
import SchemaGrammar.Schema.OfValue
import SchemaGrammar.Schema.ToValue
import SchemaGrammar.Shape.Basic
import SchemaGrammar.Shape.Lowering
import SchemaGrammar.Terminal.Basic
import SchemaGrammar.Terminal.Body
import SchemaGrammar.Text.CombiningMark
import SchemaGrammar.Text.DecimalDigit
import SchemaGrammar.Text.Lines
import SchemaGrammar.Text.Quoted
import SchemaGrammar.Text.Unassigned
import SchemaGrammar.Text.Unprintable
