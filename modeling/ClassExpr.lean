import ClassExpr.Main
import ClassExpr.Proofs.Checked.Query
import ClassExpr.Proofs.Report
import ClassExpr.Proofs.Publish
import ClassExpr.Proofs.Printing.RoundTrip
import ClassExpr.Proofs.Query.Cursor
import ClassExpr.Proofs.Tree.Complete
import ClassExpr.Proofs.Tree.Window
import ClassExpr.Proofs.Levels
import ClassExpr.Proofs.Nesting
import ClassExpr.Proofs.Joining.Texts
import ClassExpr.Proofs.Variant.Prefix
import ClassExpr.Proofs.Variant.Separator
import ClassExpr.Proofs.Variant.Bound
import ClassExpr.Proofs.Spacing.Items
import ClassExpr.Proofs.Entry
import ClassExpr.Proofs.Query.Limit
import ClassExpr.Proofs.Query.Comment
import ClassExpr.Proofs.Tree.Skipped
import ClassExpr.Proofs.Typing.Lookahead
import ClassExpr.Proofs.Typing.Open
import ClassExpr.Proofs.Typing.Group
import ClassExpr.Proofs.Typing.Span
import ClassExpr.Proofs.Typing.Item
import ClassExpr.Proofs.Typing.Sequence
import ClassExpr.Proofs.Typing.Context
import ClassExpr.Proofs.Matching.Following
import ClassExpr.Proofs.Lexing.Grammar
import ClassExpr.Proofs.Lexing.Tiling
import ClassExpr.Proofs.Matching.Balance
import ClassExpr.Proofs.Override
import ClassExpr.Proofs.Query.Unclosed
import ClassExpr.Proofs.Record
import ClassExpr.Proofs.Totals
import ClassExpr.Proofs.Checked.Cutting
import ClassExpr.Proofs.Collect
