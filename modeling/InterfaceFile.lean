import InterfaceFile.Doc
import InterfaceFile.Lint.Check
import InterfaceFile.Merge.Forest
import InterfaceFile.Printer.File
import InterfaceFile.Proofs.Bytes.Descent
import InterfaceFile.Proofs.Bytes.FailurePoints
import InterfaceFile.Proofs.Bytes.RawBytes
import InterfaceFile.Proofs.Bytes.ScriptedFile
import InterfaceFile.Proofs.Bytes.TreeShape
import InterfaceFile.Proofs.Lint.Clashes
import InterfaceFile.Proofs.Lint.Grouped
import InterfaceFile.Proofs.Lint.Narrowed
import InterfaceFile.Proofs.Merge.Absorbed
import InterfaceFile.Proofs.Merge.Extended
import InterfaceFile.Proofs.Merge.LastWins
import InterfaceFile.Proofs.Merge.NormalTree
import InterfaceFile.Proofs.Merge.PlainCalls
import InterfaceFile.Proofs.Merge.Prefixed
import InterfaceFile.Proofs.Merge.Renumbered
import InterfaceFile.Proofs.Merge.Reordered
import InterfaceFile.Proofs.Notes.Allotted
import InterfaceFile.Proofs.Notes.Noted
import InterfaceFile.Proofs.Notes.NotedStatement
import InterfaceFile.Proofs.Notes.Owned
import InterfaceFile.Proofs.Printer.Composed
import InterfaceFile.Proofs.Printer.DocumentLines
import InterfaceFile.Proofs.Printer.LineLimit
import InterfaceFile.Proofs.Printer.PrintedComments
import InterfaceFile.Proofs.Printer.Uncoloured
import InterfaceFile.Proofs.Reader.Locations
import InterfaceFile.Proofs.Rewriter.Arranged
import InterfaceFile.Proofs.Rewriter.EmptyLines
import InterfaceFile.Proofs.Rewriter.PlacedLines
import InterfaceFile.Proofs.Rewriter.PrintableMerge
import InterfaceFile.Proofs.Rewriter.Recast
import InterfaceFile.Proofs.Rewriter.Rewritten
import InterfaceFile.Proofs.Rewriter.Sorted
import InterfaceFile.Proofs.Rewriter.Spaced
import InterfaceFile.Proofs.Rewriter.TagLaws
import InterfaceFile.Proofs.Rewriter.Tagged
import InterfaceFile.Proofs.RoundTrip.Stable
import InterfaceFile.Proofs.Spelling.Concatenated
import InterfaceFile.Proofs.Tree.Built
import InterfaceFile.Proofs.Tree.Copies
import InterfaceFile.Proofs.Tree.Refusals
import InterfaceFile.Proofs.Tree.Relinked
import InterfaceFile.Proofs.Tree.StackWalks
import InterfaceFile.Reader.File
import InterfaceFile.Style
import InterfaceFile.Tree.Link
import InterfaceFile.Tree.Sort
import InterfaceFile.Tree.Spacing
import InterfaceFile.Tree.Tag
