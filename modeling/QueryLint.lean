import QueryLint.Log.Logger
import QueryLint.Main
import QueryLint.Proofs.Concatenation
import QueryLint.Proofs.Coverage
import QueryLint.Proofs.Fixtures
import QueryLint.Proofs.Ordering
import QueryLint.Proofs.Payload.Acceptance
import QueryLint.Proofs.Payload.Nesting
import QueryLint.Proofs.SplicePlaces
import QueryLint.Proofs.ValidFixtures
import QueryLint.Proofs.Visibility
import QueryLint.Proofs.WellFormed
import QueryLint.Proofs.Merging
import QueryLint.Proofs.Options
import QueryLint.Proofs.StrayLines
import QueryLint.Proofs.LineEndings.Texts
import QueryLint.Proofs.LineEndings.Scanning
import QueryLint.Proofs.LineEndings.Payloads
import QueryLint.Proofs.LineEndings.Documents
import QueryLint.Proofs.LineEndings.Reports
import QueryLint.Proofs.Outcomes
import QueryLint.Proofs.CommandLine.ColourSwitches
import QueryLint.Proofs.Category.Reopening
import QueryLint.Proofs.CommandLine.Exits
import QueryLint.Proofs.Delimiter.Balance
import QueryLint.Proofs.Delimiter.Faults
import QueryLint.Proofs.Delimiter.Recovery
import QueryLint.Proofs.RowPayloads
import QueryLint.Proofs.Keywords
import QueryLint.Proofs.StrayTexts
import QueryLint.Proofs.Payload.Prefixes
import QueryLint.Proofs.Payload.Remarks
import QueryLint.Proofs.Bookkeeping
import QueryLint.Proofs.Aggregation
import QueryLint.Proofs.Performance
import QueryLint.Proofs.UnknownFields
import QueryLint.Proofs.Transcripts
import QueryLint.Proofs.SampleColumns
import QueryLint.Proofs.KeyOrder
import QueryLint.Proofs.Durations
import QueryLint.Proofs.Category.Ranking
import QueryLint.Proofs.Category.Relatedness
import QueryLint.Proofs.CommandLine.Precedence
import QueryLint.Proofs.Distances
import QueryLint.Proofs.FreeNames
import QueryLint.Proofs.Granularity
