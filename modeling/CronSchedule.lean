import CronSchedule.Outcome
import CronSchedule.Fault
import CronSchedule.Text.Numeral
import CronSchedule.Text.Blank
import CronSchedule.Text.Cut
import CronSchedule.Calendar.Date
import CronSchedule.Calendar.Clock
import CronSchedule.Calendar.DayCount
import CronSchedule.Calendar.Moment
import CronSchedule.Calendar.Rank
import CronSchedule.ValueSet
import CronSchedule.Field.Basic
import CronSchedule.Field.ParseError
import CronSchedule.Field.Rule
import CronSchedule.Field.Parser
import CronSchedule.Expression.Basic
import CronSchedule.Expression.Parser
import CronSchedule.Expression.Datum
import CronSchedule.Expression.Phrase
import CronSchedule.Expression.Description
import CronSchedule.Schedule.Basic
import CronSchedule.Schedule.Search
import CronSchedule.Zone
import CronSchedule.Series.Basic
import CronSchedule.Series.Session
import CronSchedule.Proofs.ValueSet
import CronSchedule.Proofs.Text.Layout
import CronSchedule.Proofs.Field.Grammar
import CronSchedule.Proofs.Field.Refusal
import CronSchedule.Proofs.Field.Canonical
import CronSchedule.Proofs.Field.Values
import CronSchedule.Proofs.Expression.Roles
import CronSchedule.Proofs.Expression.WellFormed
import CronSchedule.Proofs.Expression.RoundTrip
import CronSchedule.Proofs.Calendar.DayNumber
import CronSchedule.Proofs.Calendar.Timeline
import CronSchedule.Proofs.Calendar.Steps
import CronSchedule.Proofs.Expression.Matching
import CronSchedule.Proofs.Expression.EitherDay
import CronSchedule.Proofs.Schedule.Search
import CronSchedule.Proofs.Zone.Resolve
import CronSchedule.Proofs.Series.Course
import CronSchedule.Proofs.Series.Reference
import CronSchedule.Proofs.Zone.Forward
import CronSchedule.Proofs.Series.Exact
import CronSchedule.Proofs.Expression.Feasible
import CronSchedule.Proofs.Series.Sound
import CronSchedule.Proofs.Series.Horizon
import CronSchedule.Proofs.Series.Walks
import CronSchedule.Proofs.Series.Stable
import CronSchedule.Proofs.Expression.Token
import CronSchedule.Proofs.Expression.Normal
import CronSchedule.Proofs.Expression.Reader
import CronSchedule.Proofs.Expression.Clauses
import CronSchedule.Proofs.Expression.ReadBack
import CronSchedule.Proofs.Calendar.Weekday
import CronSchedule.Proofs.Calendar.Successor
import CronSchedule.Proofs.Calendar.Cycle
import CronSchedule.Proofs.Schedule.Cycle
import CronSchedule.Proofs.Series.Resume
import CronSchedule.Proofs.Series.Abreast
import CronSchedule.Proofs.Series.FiveFields
import CronSchedule.Proofs.Series.Transcript
import CronSchedule.Proofs.Series.Clones
import CronSchedule.Proofs.Series.ChangingHorizon
import CronSchedule.Proofs.Series.EitherDay
import CronSchedule.Proofs.Series.Ending
