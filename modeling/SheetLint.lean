import SheetLint.Analyzer.Files
import SheetLint.Batch.Output
import SheetLint.Command
import SheetLint.Diagnostic
import SheetLint.Main
import SheetLint.Registry
import SheetLint.Proofs.Batch.Cancellation
import SheetLint.Proofs.Command.Collected
import SheetLint.Proofs.Command.Files
import SheetLint.Proofs.Edit.Substitution
import SheetLint.Proofs.Fixing.Constructs
import SheetLint.Proofs.Fixing.ExitCode
import SheetLint.Proofs.Fixing.Fallback
import SheetLint.Proofs.Fixing.Idempotence
import SheetLint.Proofs.Fixing.Report
import SheetLint.Proofs.Fixing.Selection
import SheetLint.Proofs.Fixing.Spacing
import SheetLint.Proofs.Fixing.Trace
import SheetLint.Proofs.Fixing.Words
import SheetLint.Proofs.Registry.Applicable
import SheetLint.Proofs.Registry.Comments
import SheetLint.Proofs.Registry.Independence
import SheetLint.Proofs.Registry.Selection
import SheetLint.Proofs.Registry.Standard
import SheetLint.Proofs.Report.Places
import SheetLint.Proofs.Rule.BannedCalls
import SheetLint.Proofs.Rule.ClassNames
import SheetLint.Proofs.Rule.ColonSpacing
import SheetLint.Proofs.Rule.DroppedValues
import SheetLint.Proofs.Rule.HexColors
import SheetLint.Proofs.Rule.Indenting
import SheetLint.Proofs.Rule.Kebab
import SheetLint.Proofs.Rule.LineComments
import SheetLint.Proofs.Rule.Nesting
import SheetLint.Proofs.Rule.Quotes
import SheetLint.Proofs.Rule.SelectorCommas
import SheetLint.Proofs.Rule.Semicolons
import SheetLint.Proofs.Rule.SeparatedBlocks
import SheetLint.Proofs.Rule.SortedBlocks
import SheetLint.Proofs.Rule.SortedSlots
import SheetLint.Proofs.Rule.Units
import SheetLint.Proofs.Rule.Words
import SheetLint.Proofs.Suppression.Names
import SheetLint.Proofs.Token.Ink
import SheetLint.Proofs.Token.Isolated
import SheetLint.Proofs.Token.Positions
import SheetLint.Proofs.Tree.Composition
import SheetLint.Proofs.Tree.Defects
import SheetLint.Proofs.Tree.LineEndings
import SheetLint.Proofs.Tree.Lossless
import SheetLint.Proofs.Tree.Reading
import SheetLint.Proofs.Tree.Siblings
import SheetLint.Proofs.Tree.Skeleton
import SheetLint.Proofs.Tree.Whitespace
import SheetLint.Proofs.Value.Parts
