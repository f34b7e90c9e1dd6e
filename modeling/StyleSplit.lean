import StyleSplit.Main
import StyleSplit.Sheet.Session
import StyleSplit.Proofs.Parsing.Completeness
import StyleSplit.Proofs.Script.Lookahead
import StyleSplit.Proofs.Script.Edges
import StyleSplit.Proofs.Precompile.Sharing
import StyleSplit.Proofs.Sheet.Partition
import StyleSplit.Proofs.Rewrite.Resplicing
import StyleSplit.Proofs.Script.Adjacency
import StyleSplit.Proofs.Precompile.Standard
import StyleSplit.Proofs.Scope.Agreement
import StyleSplit.Proofs.Precompile.Copying
import StyleSplit.Proofs.Precompile.Emitting
import StyleSplit.Proofs.Precompile.Reporting
import StyleSplit.Proofs.Script.Nesting
import StyleSplit.Proofs.CommandLine.Failing
import StyleSplit.Proofs.CommandLine.Checking
import StyleSplit.Proofs.Rewrite.Applying
import StyleSplit.Proofs.Scope.Reassigning
import StyleSplit.Proofs.Script.Accepting
import StyleSplit.Proofs.Precompile.ReadingBack
import StyleSplit.Proofs.Scope.Terminating
import StyleSplit.Proofs.Scope.Noticing
import StyleSplit.Proofs.Precompile.Reparsing
import StyleSplit.Proofs.Sheet.Remainder
import StyleSplit.Proofs.Sheet.Undisturbed
import StyleSplit.Proofs.Sheet.Hyphenating
import StyleSplit.Proofs.Precompile.Repeating
import StyleSplit.Proofs.Sheet.ClassNames
import StyleSplit.Proofs.Scope.OwnNames
import StyleSplit.Proofs.Sheet.Encodable
import StyleSplit.Proofs.Precompile.Encodable
import StyleSplit.Proofs.Scope.Hoisting
import StyleSplit.Proofs.Number.Limit
