import RecordQuery.Attribute.Coercion
import RecordQuery.Calendar.Reading
import RecordQuery.Condition.Checked
import RecordQuery.Instance.Access
import RecordQuery.Instance.Record
import RecordQuery.Loading.Projected
import RecordQuery.Loading.Typed
import RecordQuery.Query.Building
import RecordQuery.Query.Statement
import RecordQuery.Proofs.Condition.Unambiguous
import RecordQuery.Proofs.Query.Joining
import RecordQuery.Proofs.Query.Operands
import RecordQuery.Proofs.Loading.RoundTrip
import RecordQuery.Proofs.Instance.Conforming
import RecordQuery.Proofs.Loading.ByTypeRoundTrip
import RecordQuery.Proofs.Loading.Agreement
import RecordQuery.Proofs.Loading.Answered
import RecordQuery.Proofs.Query.Merging
import RecordQuery.Proofs.Query.SelectList
import RecordQuery.Proofs.Instance.Recorded
import RecordQuery.Proofs.Loading.Targets
import RecordQuery.Proofs.Loading.Conforms
import RecordQuery.Proofs.Query.Selecting
import RecordQuery.Proofs.Query.Lexed
import RecordQuery.Proofs.Condition.WellTyped
import RecordQuery.Proofs.Schema.Registration
import RecordQuery.Proofs.Query.Equality
import RecordQuery.Proofs.Attribute.Kinds
import RecordQuery.Proofs.Calendar.Forms
import RecordQuery.Proofs.Attribute.Integers
import RecordQuery.Proofs.Attribute.Numbers
import RecordQuery.Proofs.Calendar.Agreement
import RecordQuery.Proofs.Value.Literals
import RecordQuery.Proofs.Query.Growing
import RecordQuery.Proofs.Query.Replacing
import RecordQuery.Proofs.Schema.Inheriting
import RecordQuery.Proofs.Schema.Redefining
import RecordQuery.Proofs.Query.Validation
import RecordQuery.Proofs.Instance.Tracked
import RecordQuery.Proofs.Instance.Changes
import RecordQuery.Proofs.Schema.Repeating
import RecordQuery.Proofs.Path.Resolution
