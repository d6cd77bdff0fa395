import SchemaStore.Binding
import SchemaStore.Collection
import SchemaStore.Demo
import SchemaStore.Failure
import SchemaStore.Filter
import SchemaStore.Json.Reader
import SchemaStore.Json.Token
import SchemaStore.Json.Writer
import SchemaStore.Kind
import SchemaStore.Main
import SchemaStore.Misuse
import SchemaStore.Node
import SchemaStore.Number.Binary64
import SchemaStore.Number.Decimal
import SchemaStore.Number.Power
import SchemaStore.Number.Ratio
import SchemaStore.Number.Reading
import SchemaStore.Number.Shortest
import SchemaStore.Path
import SchemaStore.Predicate
import SchemaStore.Proofs.Documents.Collections
import SchemaStore.Proofs.Documents.ExclusiveModels
import SchemaStore.Proofs.Documents.FailedInsertions
import SchemaStore.Proofs.Documents.Ids
import SchemaStore.Proofs.Documents.Journals
import SchemaStore.Proofs.Documents.Lookups
import SchemaStore.Proofs.Documents.Retained
import SchemaStore.Proofs.Documents.Returned
import SchemaStore.Proofs.Documents.Sessions
import SchemaStore.Proofs.Documents.Steps
import SchemaStore.Proofs.Documents.Turns
import SchemaStore.Proofs.Documents.Undecodable
import SchemaStore.Proofs.Filters.Conditions
import SchemaStore.Proofs.Filters.Ranges
import SchemaStore.Proofs.Json.Decimals
import SchemaStore.Proofs.Json.Endings
import SchemaStore.Proofs.Json.Objects
import SchemaStore.Proofs.Json.Plain
import SchemaStore.Proofs.Json.Strings
import SchemaStore.Proofs.Json.Values
import SchemaStore.Proofs.Number.Rounding
import SchemaStore.Proofs.Number.Shortest
import SchemaStore.Proofs.Schemas.Conformance
import SchemaStore.Proofs.Schemas.Grammar
import SchemaStore.Proofs.Schemas.Registries
import SchemaStore.Proofs.Schemas.StoredDocuments
import SchemaStore.Proofs.Schemas.Violations
import SchemaStore.Proofs.Sequencing
import SchemaStore.Proofs.Storage.Appending
import SchemaStore.Proofs.Storage.Atomicity
import SchemaStore.Proofs.Storage.Changes
import SchemaStore.Proofs.Storage.Closing
import SchemaStore.Proofs.Storage.Compacting
import SchemaStore.Proofs.Storage.Cuts
import SchemaStore.Proofs.Storage.Damage
import SchemaStore.Proofs.Storage.DamagedTables
import SchemaStore.Proofs.Storage.Files
import SchemaStore.Proofs.Storage.Fixed
import SchemaStore.Proofs.Storage.Lifetime
import SchemaStore.Proofs.Storage.Lines
import SchemaStore.Proofs.Storage.LostCompactions
import SchemaStore.Proofs.Storage.Mirrors
import SchemaStore.Proofs.Storage.Names
import SchemaStore.Proofs.Storage.Opening
import SchemaStore.Proofs.Storage.Operations
import SchemaStore.Proofs.Storage.Pairs
import SchemaStore.Proofs.Storage.Rearranging
import SchemaStore.Proofs.Storage.Recovery
import SchemaStore.Proofs.Storage.Reopening
import SchemaStore.Proofs.Storage.Rewriting
import SchemaStore.Proofs.Storage.Sheets
import SchemaStore.Proofs.Storage.Shelf
import SchemaStore.Proofs.Storage.Sorting
import SchemaStore.Proofs.Storage.StampSearch
import SchemaStore.Proofs.Storage.Tables
import SchemaStore.Proofs.Storage.TornFlushes
import SchemaStore.Proofs.Storage.Worlds
import SchemaStore.Proofs.Storage.WriteOnce
import SchemaStore.Proofs.Storage.WrittenTables
import SchemaStore.Proofs.Stored.Codec
import SchemaStore.Proofs.Stored.Form
import SchemaStore.Proofs.Stored.Named
import SchemaStore.Proofs.Stored.Outcomes
import SchemaStore.Proofs.Stored.RoundTrip
import SchemaStore.Proofs.Stored.Tags
import SchemaStore.Proofs.Text.Appended
import SchemaStore.Proofs.Text.Ascii
import SchemaStore.Proofs.Time.Iso
import SchemaStore.Proofs.Value.Orders
import SchemaStore.Proofs.Value.Parts
import SchemaStore.Proofs.Value.Showing
import SchemaStore.Recorder
import SchemaStore.Registry
import SchemaStore.Relation
import SchemaStore.Report
import SchemaStore.Session
import SchemaStore.Settings
import SchemaStore.Storage.Directory
import SchemaStore.Storage.Engine
import SchemaStore.Storage.Log
import SchemaStore.Storage.Merge
import SchemaStore.Storage.Order
import SchemaStore.Storage.Record
import SchemaStore.Storage.Search
import SchemaStore.Storage.Table
import SchemaStore.Stored
import SchemaStore.Text.Blank
import SchemaStore.Text.Bookmark
import SchemaStore.Text.Digit
import SchemaStore.Text.Lines
import SchemaStore.Text.Printable
import SchemaStore.Text.Quoted
import SchemaStore.Text.Utf8
import SchemaStore.Time.Date
import SchemaStore.Time.DateTime
import SchemaStore.Time.Iso
import SchemaStore.Validator
import SchemaStore.Value
import SchemaStore.Value.Compare
import SchemaStore.Value.Display
import SchemaStore.Value.Entries
