import CommandLine.Completion.Json
import CommandLine.Host.Hooks
import CommandLine.Host.Parsers
import CommandLine.Json.Reader
import CommandLine.Permission.Json
import CommandLine.Proofs.Cache.Lifetime
import CommandLine.Proofs.Dispatcher.Gates
import CommandLine.Proofs.Flag.Given
import CommandLine.Proofs.Flag.Suggested
import CommandLine.Proofs.Focus.Bounds
import CommandLine.Proofs.Focus.Choosing
import CommandLine.Proofs.Focus.Filling
import CommandLine.Proofs.Focus.Literals
import CommandLine.Proofs.Focus.Rejection
import CommandLine.Proofs.Focus.Replay
import CommandLine.Proofs.Focus.Splicing
import CommandLine.Proofs.Focus.Stops
import CommandLine.Proofs.Focus.Visible
import CommandLine.Proofs.Line.Front
import CommandLine.Proofs.Line.Placed
import CommandLine.Proofs.Line.Span
import CommandLine.Proofs.Number.Starts
import CommandLine.Proofs.Parser.Choice
import CommandLine.Proofs.Parser.Footprint
import CommandLine.Proofs.Parser.Integers
import CommandLine.Proofs.Parser.Onward
import CommandLine.Proofs.Parser.Parts
import CommandLine.Proofs.Parser.UpToFlag
import CommandLine.Proofs.Parser.Waiting
import CommandLine.Proofs.Route.Denial
import CommandLine.Proofs.Route.Elsewhere
import CommandLine.Proofs.Route.End
import CommandLine.Proofs.Route.Giveable
import CommandLine.Proofs.Route.Greed
import CommandLine.Proofs.Route.Keys
import CommandLine.Proofs.Route.Respelling
import CommandLine.Proofs.Route.Runnable
import CommandLine.Proofs.Route.Spacing
import CommandLine.Proofs.Route.Spelling
import CommandLine.Proofs.Route.Values
import CommandLine.Proofs.Route.Visible
import CommandLine.Proofs.Text.TypedOn
import CommandLine.Proofs.Tree.Filings
import CommandLine.Proofs.Tree.InPlace
import CommandLine.Proofs.Tree.Layout
import CommandLine.Proofs.Tree.Names
import CommandLine.Proofs.Tree.Ordering
import CommandLine.Proofs.Tree.Registration
import CommandLine.Proofs.Tree.Restriction
import CommandLine.Proofs.Tree.Serials
import CommandLine.Proofs.Tree.Signatures
import CommandLine.Proofs.Tree.Validity
import CommandLine.Proofs.Tree.Withdrawal
