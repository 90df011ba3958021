import SheetGrammar.Text.Blank
import SheetGrammar.Text.Lowercase
import SheetGrammar.Text.PrintTable
import SheetGrammar.SortedSet
import SheetGrammar.SymbolTable
import SheetGrammar.Diagnostic
import SheetGrammar.TapeSet
import SheetGrammar.LiteralMap
import SheetGrammar.Grammar.Basic
import SheetGrammar.Grammar.Traversal
import SheetGrammar.Canonical.Printer
import SheetGrammar.Json.Reader
import SheetGrammar.Grammar.Literals
import SheetGrammar.Grammar.Defaults
import SheetGrammar.Grammar.Flatten
import SheetGrammar.Grammar.Inference
import SheetGrammar.Grammar.Stages
import SheetGrammar.Sheet.Encode
import SheetGrammar.Sheet.Decode
import SheetGrammar.Sheet.Tables
import SheetGrammar.Sheet.TestColumns
import SheetGrammar.Sheet.Statements
import SheetGrammar.Compilation
import SheetGrammar.Settings.Toml
import SheetGrammar.Command
import SheetGrammar.Command.FileTree
import SheetGrammar.Main
import SheetGrammar.Proofs.SymbolKeys
import SheetGrammar.Proofs.GrammarNodes
import SheetGrammar.Proofs.LeafWalk
import SheetGrammar.Proofs.EmbedWalk
import SheetGrammar.Proofs.Settlement
import SheetGrammar.Proofs.Annotation
import SheetGrammar.Proofs.RecursionReports
import SheetGrammar.Proofs.NameRewriting
import SheetGrammar.Proofs.TapeExactness
import SheetGrammar.Proofs.Handoff
import SheetGrammar.Proofs.CycleReports
import SheetGrammar.Proofs.Translation
import SheetGrammar.Proofs.Totality
import SheetGrammar.Proofs.Derivations
import SheetGrammar.Proofs.ReaderStates
import SheetGrammar.Proofs.RoundTrip
import SheetGrammar.Proofs.Stability
import SheetGrammar.Proofs.DottedPaths
import SheetGrammar.Proofs.CollectionWalk
import SheetGrammar.Proofs.LexicalScope
import SheetGrammar.Proofs.NormalReading
import SheetGrammar.Proofs.LetterCase
import SheetGrammar.Proofs.DefaultMembers
import SheetGrammar.Proofs.TestSymbols
import SheetGrammar.Proofs.QuietRuns
import SheetGrammar.Proofs.RowAccounts
import SheetGrammar.Proofs.JsonText
import SheetGrammar.Proofs.SheetCodec
import SheetGrammar.Proofs.CellPlaces
import SheetGrammar.Proofs.PlacedReports
import SheetGrammar.Proofs.ColumnAlignment
import SheetGrammar.Proofs.CyclePaths
import SheetGrammar.Proofs.TapeRepairs
import SheetGrammar.Proofs.FlatteningAccounts
import SheetGrammar.Proofs.NormalForm
import SheetGrammar.Proofs.FirstDefinitions
import SheetGrammar.Proofs.LiteralLeaves
import SheetGrammar.Proofs.DefaultCompletion
import SheetGrammar.Proofs.LexedTexts
import SheetGrammar.Proofs.EarliestErrors
import SheetGrammar.Proofs.TokenSpans
import SheetGrammar.Proofs.InferenceRuns
import SheetGrammar.Proofs.DefinitionHistories
