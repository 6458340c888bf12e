import Columnar.Archive
import Columnar.Bytes
import Columnar.Catalog
import Columnar.Chunk.Archive
import Columnar.Chunk.Bitmap
import Columnar.Chunk.Cascade
import Columnar.Chunk.Codec
import Columnar.Chunk.Corruption
import Columnar.Chunk.Payload
import Columnar.Chunk.Rows
import Columnar.Chunk.Scheme
import Columnar.Chunk.StringArray
import Columnar.Chunk.StringPool
import Columnar.Chunk.Verification
import Columnar.Column.Basic
import Columnar.Column.Kind
import Columnar.Column.Validity
import Columnar.CommandLine.Flags
import Columnar.CommandLine.Help
import Columnar.CommandLine.LogFilter
import Columnar.CommandLine.Run
import Columnar.Decimal.Integer
import Columnar.Decimal.Rounding
import Columnar.Double.Basic
import Columnar.Double.Reader
import Columnar.Double.Rounding
import Columnar.Double.Shortest
import Columnar.Error
import Columnar.Lz4.Block
import Columnar.Lz4.Search
import Columnar.Main
import Columnar.Options
import Columnar.Overflow
import Columnar.Pack
import Columnar.Part.Archive
import Columnar.Part.Builder
import Columnar.Part.Reader
import Columnar.Proofs.Archive.CatalogWords
import Columnar.Proofs.Archive.Catalogs
import Columnar.Proofs.Archive.Chunks
import Columnar.Proofs.Archive.Parts
import Columnar.Proofs.Archive.References
import Columnar.Proofs.Bytes.Placement
import Columnar.Proofs.Bytes.Reading
import Columnar.Proofs.Chunk.Bitmap
import Columnar.Proofs.Chunk.Choice
import Columnar.Proofs.Chunk.Compression
import Columnar.Proofs.Chunk.Depths
import Columnar.Proofs.Chunk.Holding
import Columnar.Proofs.Chunk.Inspection
import Columnar.Proofs.Chunk.Slices
import Columnar.Proofs.Chunk.Verifying
import Columnar.Proofs.Column.BitLists
import Columnar.Proofs.Column.Rows
import Columnar.Proofs.Column.Validity
import Columnar.Proofs.CommandLine.Flags
import Columnar.Proofs.Decimal.Numerals
import Columnar.Proofs.Errors
import Columnar.Proofs.Lz4.Blocks
import Columnar.Proofs.Lz4.Search
import Columnar.Proofs.Moves
import Columnar.Proofs.Pack.AllOrNothing
import Columnar.Proofs.Pack.Columns
import Columnar.Proofs.Pack.Commit
import Columnar.Proofs.Pack.Cutting
import Columnar.Proofs.Pack.Describing
import Columnar.Proofs.Pack.Directory
import Columnar.Proofs.Pack.Failures
import Columnar.Proofs.Pack.Files
import Columnar.Proofs.Pack.Greedy
import Columnar.Proofs.Pack.Groups
import Columnar.Proofs.Pack.InMemory
import Columnar.Proofs.Pack.Joins
import Columnar.Proofs.Pack.Lines
import Columnar.Proofs.Pack.LongTexts
import Columnar.Proofs.Pack.Partition
import Columnar.Proofs.Pack.Parts
import Columnar.Proofs.Pack.ReadBack
import Columnar.Proofs.Pack.RoundTrip
import Columnar.Proofs.Pack.Schedules
import Columnar.Proofs.Pack.Sessions
import Columnar.Proofs.Pack.Statistics
import Columnar.Proofs.Pack.Tasks
import Columnar.Proofs.Part.Acceptance
import Columnar.Proofs.Payload.Acceptance
import Columnar.Proofs.Payload.Canonical
import Columnar.Proofs.Payload.Decoding
import Columnar.Proofs.Payload.Encoding
import Columnar.Proofs.Payload.Grammar
import Columnar.Proofs.Payload.Guarded
import Columnar.Proofs.Payload.Layout
import Columnar.Proofs.Payload.Readings
import Columnar.Proofs.Payload.Restoring
import Columnar.Proofs.Payload.Shortest
import Columnar.Proofs.Payload.StringArrays
import Columnar.Proofs.Read.Agreement
import Columnar.Proofs.Read.Arrays
import Columnar.Proofs.Read.Cursor
import Columnar.Proofs.Read.Enumeration
import Columnar.Proofs.Read.Files
import Columnar.Proofs.Read.Guarded
import Columnar.Proofs.Read.Images
import Columnar.Proofs.Read.Joins
import Columnar.Proofs.Read.Opening
import Columnar.Proofs.Read.OutputPaths
import Columnar.Proofs.Read.Overwriting
import Columnar.Proofs.Read.Pushing
import Columnar.Proofs.Read.Reopening
import Columnar.Proofs.Read.Safety
import Columnar.Proofs.Read.Schedules
import Columnar.Proofs.Read.Sessions
import Columnar.Proofs.Read.Tasks
import Columnar.Proofs.Read.Texts
import Columnar.Proofs.Read.Walk
import Columnar.Proofs.Relation.Building
import Columnar.Proofs.Relation.Ranges
import Columnar.Proofs.Relation.Reaching
import Columnar.Proofs.Store.Agreement
import Columnar.Proofs.Store.BucketFiles
import Columnar.Proofs.Store.BucketObjects
import Columnar.Proofs.Store.BucketPaths
import Columnar.Proofs.Store.Buckets
import Columnar.Proofs.Store.Contents
import Columnar.Proofs.Store.Escapes
import Columnar.Proofs.Store.Files
import Columnar.Proofs.Store.Keys
import Columnar.Proofs.Store.LocalPaths
import Columnar.Proofs.Store.Names
import Columnar.Proofs.Tabular.Defects
import Columnar.Proofs.Tabular.Fields
import Columnar.Proofs.Tabular.Filling
import Columnar.Proofs.Tabular.Lines
import Columnar.Proofs.Tabular.Marks
import Columnar.Proofs.Tabular.Records
import Columnar.Proofs.Tabular.Reingestion
import Columnar.Proofs.Tabular.Rows
import Columnar.Proofs.Text.Splitting
import Columnar.Proofs.Text.Utf8
import Columnar.Read.Column
import Columnar.Read.Cursor
import Columnar.Read.Description
import Columnar.Read.Output
import Columnar.Read.Sink
import Columnar.Relation
import Columnar.Store.BucketUrl
import Columnar.Store.FileTree
import Columnar.Store.Ipv6
import Columnar.Store.Location
import Columnar.Store.Objects
import Columnar.Store.Place
import Columnar.Tabular.Field
import Columnar.Tabular.Ingest
import Columnar.Tabular.Record
import Columnar.Text.Blank
import Columnar.Text.Padding
import Columnar.Text.Utf8
import Columnar.Total
