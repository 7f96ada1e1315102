import TableQuery.Access.Permission
import TableQuery.Access.Rule
import TableQuery.Access.Visibility
import TableQuery.Cache.Key
import TableQuery.Cache.Store
import TableQuery.Calendar.Date
import TableQuery.Calendar.Instant
import TableQuery.Calendar.Preset
import TableQuery.Cli
import TableQuery.Digest.Sha256
import TableQuery.Engine.Basic
import TableQuery.Engine.Settings
import TableQuery.Fault
import TableQuery.Field.JoinPlan
import TableQuery.Field.Resolver
import TableQuery.Json.Basic
import TableQuery.Json.Members
import TableQuery.Json.Parse
import TableQuery.Json.Print
import TableQuery.Json.Read
import TableQuery.Main
import TableQuery.Number.Binary64
import TableQuery.Number.Numeral
import TableQuery.Number.Shortest
import TableQuery.Request.Context
import TableQuery.Request.Cursor
import TableQuery.Request.Params
import TableQuery.Request.Value
import TableQuery.Response.Basic
import TableQuery.Response.Transform
import TableQuery.Sql.Dialect
import TableQuery.Sql.Fragment
import TableQuery.Sql.Operator
import TableQuery.Sql.Order
import TableQuery.Statement.Aggregate
import TableQuery.Statement.Compiled
import TableQuery.Statement.Condition
import TableQuery.Statement.Correlation
import TableQuery.Statement.Keyset
import TableQuery.Statement.Plan
import TableQuery.Statement.Scope
import TableQuery.Statement.Search
import TableQuery.Statement.Sorting
import TableQuery.Statement.Tree
import TableQuery.Statement.Window
import TableQuery.Table.Aggregation
import TableQuery.Table.Basic
import TableQuery.Table.Column
import TableQuery.Table.Document
import TableQuery.Table.Filter
import TableQuery.Table.Join
import TableQuery.Table.Section
import TableQuery.Table.Subquery
import TableQuery.Text.Ascii
import TableQuery.Text.Base64Url
import TableQuery.Text.Bytes
import TableQuery.Text.Name
import TableQuery.Text.Shape
import TableQuery.Text.Utf8
import TableQuery.Validation.Catalog
import TableQuery.Validation.Check
import TableQuery.Vocabulary
import TableQuery.Proofs.Sql.Reading
import TableQuery.Proofs.Sql.Binding
import TableQuery.Proofs.Sql.Connective
import TableQuery.Proofs.Checked
import TableQuery.Proofs.Field.Resolver
import TableQuery.Proofs.Sql.Row
import TableQuery.Proofs.Statement.Compiled
import TableQuery.Proofs.Field.Shadow
import TableQuery.Proofs.Access.Visibility
import TableQuery.Proofs.Request.Cursor
import TableQuery.Proofs.Sql.Order
import TableQuery.Proofs.Statement.ActiveOrder
import TableQuery.Proofs.Statement.Continuation
import TableQuery.Proofs.Statement.Walk
import TableQuery.Proofs.Statement.Asked
import TableQuery.Proofs.Statement.Aggregate
import TableQuery.Proofs.Statement.Selection
import TableQuery.Proofs.Engine.Disclosure
import TableQuery.Proofs.Sql.Placeholder
import TableQuery.Proofs.Sql.Step
import TableQuery.Proofs.Sql.Seat
import TableQuery.Proofs.Validation.Column
import TableQuery.Proofs.Field.Step
import TableQuery.Proofs.Statement.Seat
import TableQuery.Proofs.Statement.Step
import TableQuery.Proofs.Sql.Alike
import TableQuery.Proofs.Statement.Unknown
import TableQuery.Proofs.Statement.Alike
import TableQuery.Proofs.Field.Counterpart
import TableQuery.Proofs.Validation.Reference
import TableQuery.Proofs.Field.Expression
import TableQuery.Proofs.Statement.Tested
import TableQuery.Proofs.Statement.Expression
import TableQuery.Proofs.Statement.Startup
import TableQuery.Proofs.Json.Members
import TableQuery.Proofs.Cache.Store
import TableQuery.Proofs.Cache.Reference
import TableQuery.Proofs.Field.Collision
import TableQuery.Proofs.Field.Forest
import TableQuery.Proofs.Field.Lookup
import TableQuery.Proofs.Statement.Output
import TableQuery.Proofs.Response.OutputColumn
import TableQuery.Proofs.Text.Digits
import TableQuery.Proofs.Number.Rounding
import TableQuery.Proofs.Number.Layout
import TableQuery.Proofs.Json.Print
import TableQuery.Proofs.Request.Written
import TableQuery.Proofs.Cache.Key
import TableQuery.Proofs.Engine.Repeatable
import TableQuery.Proofs.Engine.Session
import TableQuery.Proofs.Engine.Transparency
import TableQuery.Proofs.Json.Read
import TableQuery.Proofs.Table.Part
import TableQuery.Proofs.Table.Tree
import TableQuery.Proofs.Table.Description
import TableQuery.Proofs.Request.Params
import TableQuery.Proofs.Engine.SingleFlight
import TableQuery.Proofs.Request.Refusal
import TableQuery.Proofs.Statement.Complement
import TableQuery.Proofs.Engine.Invalidation
import TableQuery.Proofs.Sql.Relation
import TableQuery.Proofs.Sql.Recursion
import TableQuery.Proofs.Statement.Recursion
import TableQuery.Proofs.Statement.WellNamed
import TableQuery.Proofs.Statement.Descent
import TableQuery.Proofs.Field.Reach
import TableQuery.Proofs.Statement.Whitelist
import TableQuery.Proofs.Number.Word
import TableQuery.Proofs.Statement.Window
import TableQuery.Proofs.Sql.Pattern
import TableQuery.Proofs.Statement.Literal
import TableQuery.Proofs.Number.Range
import TableQuery.Proofs.Request.Number
import TableQuery.Proofs.Request.Value
import TableQuery.Proofs.Statement.PageSum
import TableQuery.Proofs.Calendar.Date
import TableQuery.Proofs.Calendar.Preset
import TableQuery.Proofs.Access.Restriction
import TableQuery.Proofs.Response.Shape
import TableQuery.Proofs.Engine.TreeRow
import TableQuery.Proofs.Text.Cut
import TableQuery.Proofs.Sql.Quoted
import TableQuery.Proofs.Statement.SelectList
import TableQuery.Proofs.Statement.Grouped
import TableQuery.Proofs.Access.Entry
import TableQuery.Proofs.Access.Rule
import TableQuery.Proofs.Engine.Count
import TableQuery.Proofs.Request.Shorthand
import TableQuery.Proofs.Sql.Verbatim
import TableQuery.Proofs.Statement.Verbatim
import TableQuery.Proofs.Statement.Conjunction
import TableQuery.Proofs.Calendar.Iso
import TableQuery.Proofs.Statement.Preset
import TableQuery.Proofs.Statement.RequestTime
import TableQuery.Proofs.Statement.Unquoted
import TableQuery.Proofs.Response.SliceName
import TableQuery.Proofs.Response.Slice
