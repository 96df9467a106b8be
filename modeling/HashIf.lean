import HashIf.FileSystem
import HashIf.Main
import HashIf.Proofs.CommandLine.Runs
import HashIf.Proofs.Condition.Acceptance
import HashIf.Proofs.Condition.StringText
import HashIf.Proofs.Filter.Causality
import HashIf.Proofs.Filter.Nesting
import HashIf.Proofs.Filter.Noninterference
import HashIf.Proofs.Filter.Refiltering
import HashIf.Proofs.Filter.Selection
import HashIf.Proofs.Layout.Rereading
import HashIf.Proofs.LineBreak
import HashIf.Proofs.Source.Blanking
import HashIf.Proofs.Source.Markers
import HashIf.Proofs.Source.Reach
import HashIf.Proofs.Condition.Truth
import HashIf.Proofs.Condition.Stepwise
import HashIf.Proofs.Filter.Loops
import HashIf.Proofs.Layout.Columns
import HashIf.Proofs.Condition.NumberLiterals
import HashIf.Proofs.Condition.Ordering
import HashIf.Proofs.Version.Order
import HashIf.Proofs.CommandLine.Rearrangement
import HashIf.Proofs.Condition.Consultation
import HashIf.Proofs.Environment.Listing
import HashIf.Proofs.Source.QuotedLine
import HashIf.Proofs.Source.CommentReading
