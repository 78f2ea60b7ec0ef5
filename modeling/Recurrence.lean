import Recurrence.BitSet
import Recurrence.Calendar.Date
import Recurrence.Calendar.DayCount
import Recurrence.Calendar.WallClock
import Recurrence.CommandLine.Arguments
import Recurrence.CommandLine.Response
import Recurrence.Expression.Error
import Recurrence.Expression.Item
import Recurrence.Expression.Options
import Recurrence.Expression.Preset
import Recurrence.Expression.Reader
import Recurrence.Expression.Token
import Recurrence.Field.Basic
import Recurrence.Field.Fault
import Recurrence.Field.Value
import Recurrence.Instant
import Recurrence.Main
import Recurrence.Moment
import Recurrence.Moment.Text
import Recurrence.Occurrence.Carry
import Recurrence.Occurrence.Search
import Recurrence.Occurrence.Sequence
import Recurrence.Rule.Basic
import Recurrence.Rule.Canonical
import Recurrence.Rule.Clause
import Recurrence.Rule.Days
import Recurrence.Rule.Matching
import Recurrence.Rule.Selection
import Recurrence.Text.Decimal
import Recurrence.Text.Ordinal
import Recurrence.Zone
import Recurrence.Proofs.BitSet
import Recurrence.Proofs.Run
import Recurrence.Proofs.Calendar
import Recurrence.Proofs.Zone
import Recurrence.Proofs.Zone.Spaced
import Recurrence.Proofs.Zone.Inversion
import Recurrence.Proofs.Zone.SkippedHour
import Recurrence.Proofs.Rule.Selection
import Recurrence.Proofs.Rule.WellFormed
import Recurrence.Proofs.Rule.Clause
import Recurrence.Proofs.Rule.Constructible
import Recurrence.Proofs.Rule.Feasible
import Recurrence.Proofs.Expression.Item
import Recurrence.Proofs.Expression.Grammar
import Recurrence.Proofs.Expression.Column
import Recurrence.Proofs.Expression.RoundTrip
import Recurrence.Proofs.Expression.Reading
import Recurrence.Proofs.Expression.Normal
import Recurrence.Proofs.Expression.Position
import Recurrence.Proofs.Expression.Bytes
import Recurrence.Proofs.Expression.Lexing
import Recurrence.Proofs.Expression.Leftmost
import Recurrence.Proofs.Expression.Clauses
import Recurrence.Proofs.Occurrence.Carry
import Recurrence.Proofs.Occurrence.Next
import Recurrence.Proofs.Occurrence.Round
import Recurrence.Proofs.Occurrence.Never
import Recurrence.Proofs.Occurrence.Repeated
import Recurrence.Proofs.Occurrence.Precision
import Recurrence.Proofs.Occurrence.Monotone
import Recurrence.Proofs.Occurrence.Sequence
import Recurrence.Proofs.Occurrence.Consumption
import Recurrence.Proofs.Moment.Text
import Recurrence.Proofs.CommandLine.Arguments
import Recurrence.Proofs.CommandLine.Listing
import Recurrence.Proofs.CommandLine.Completeness
import Recurrence.Proofs.Machine.Operation
import Recurrence.Proofs.Machine.Field
import Recurrence.Proofs.Machine.Progression
import Recurrence.Proofs.Machine.Iteration
import Recurrence.Proofs.Machine.Printing
import Recurrence.Proofs.Machine.Builder
import Recurrence.Proofs.Machine.Token
import Recurrence.Proofs.Machine.Reader
