import Vsql.Foundation.ByteFile
import Vsql.Foundation.OrderedMap
import Vsql.Error
import Vsql.Bytes
import Vsql.Mvcc
import Vsql.Header
import Vsql.Pager
import Vsql.Wal.Log
import Vsql.Wal.Reading
import Vsql.Wal.ReadBack
import Vsql.Wal.Recovery
import Vsql.Wal.Report
import Vsql.Foundation.Runs
import Vsql.PagerAgreement
import Vsql.Page
import Vsql.Btree
import Vsql.Btree.Footprint
import Vsql.Foundation.SearchForest
import Vsql.Btree.Leaves
import Vsql.Storage
import Vsql.Statement
import Vsql.Sessions
import Vsql.Transactions.Undo
import Vsql.Transactions.Acting
import Vsql.Transactions.Implicit
import Vsql.Transactions.Opening
import Vsql.Transactions.Opened
import Vsql.Transactions.Failing
import Vsql.Transactions.Effects
import Vsql.Transactions.Ledger
import Vsql.TransactionEnds
import Vsql.Uncommitted
import Vsql.Foundation.BinaryFloat
import Vsql.Foundation.OrderedCode
import Vsql.Values.Numeric
import Vsql.Values.Time
import Vsql.Values.Value
import Vsql.Values.Key
import Vsql.Values.KeyOrder
import Vsql.Values.StoreAssignment
import Vsql.Queries.KeyRange
import Vsql.Queries.ExactComparison
import Vsql.Queries.RangeCovers
import Vsql.Queries.RangePlan
import Vsql.Foundation.Loop
import Vsql.Referential.Actions
import Vsql.Referential.Store
import Vsql.Referential.Sites
import Vsql.Referential.Matching
import Vsql.Referential.Termination
import Vsql.Queries.EntryKey
import Vsql.Lexer.Tokens
import Vsql.Lexer
import Vsql.Lexer.Names
import Vsql.Lexer.NamePlaces
import Vsql.Lexer.PrintedNames
import Vsql.Lexer.Literals
import Vsql.Import
import Vsql.Import.Tokens
import Vsql.Import.Rows
import Vsql.Foundation.Reader
import Vsql.Rows.Contents
import Vsql.Rows.Row
import Vsql.Rows.Names
import Vsql.Rows.Opaque
import Vsql.Rows.Codec
import Vsql.Sequences.Generator
import Vsql.Sequences.Issued
import Vsql.Sequences.Definition
import Vsql.Sequences.Stored
import Vsql.Rows.Correlation
import Vsql.Rows.Update
import Vsql.Rows.Updated
import Vsql.Foundation.ForwardSteps
import Vsql.Foundation.PaddedReading
import Vsql.Foundation.TokenParser
import Vsql.Patterns.Regular
import Vsql.Foundation.Truncation
import Vsql.Values.Fraction
import Vsql.Foundation.FloatQuotient
import Vsql.Values.NumericArithmetic
import Vsql.Values.NumericText
import Vsql.Foundation.MergeSort
import Vsql.Queries.RowOrder
import Vsql.Queries.OrderOperation
import Vsql.Queries.SetOperation
import Vsql.Queries.GroupOperation
import Vsql.Foundation.SortedGroups
import Vsql.Walk.PageIterator
import Vsql.Walk.Positions
import Vsql.Walk.Fused
import Vsql.Sequences.Dumped
import Vsql.Cli.FetchScroll
import Vsql.Cli.GetData
import Vsql.Page.Buffer
import Vsql.Page.Operations
import Vsql.Header.Codec
import Vsql.Header.ActiveIds
import Vsql.Cli.ImportInput
import Vsql.Cli.DelimitedRecord
import Vsql.Cli.JsonReader
import Vsql.Cli.StatementRanges
import Vsql.Cli.ImportSql
import Vsql.Cli.JsonSound
import Vsql.Cli.Streaming
import Vsql.Cli.JsonComplete
import Vsql.Cli.JsonImport
import Vsql.Foundation.Cuts
import Vsql.Dump.Definition
import Vsql.Dump.NoSchema
import Vsql.Dump.Segments
import Vsql.Dump.Rewriting
import Vsql.Dump.Reading
import Vsql.Dump.Tokens
import Vsql.Values.CombinedType
import Vsql.Queries.CombinedValue
import Vsql.Foundation.CanonicalOrder
import Vsql.Unicode.Equivalence
import Vsql.Unicode.Decomposition
import Vsql.Unicode.Composition
import Vsql.Unicode.Normalization
import Vsql.Foundation.WildcardMatch
import Vsql.Patterns.Like
import Vsql.Patterns.Ends
import Vsql.Patterns.Similar
import Vsql.Values.PaddedNumber
import Vsql.Values.TimeLiteral
import Vsql.Server.Messages
import Vsql.Foundation.Arrivals
import Vsql.Server.Connection
import Vsql.Server.Session
import Vsql.Foundation.ForestSearch
import Vsql.Foundation.ForestSplits
import Vsql.Btree.Nodes
import Vsql.Btree.Splits
import Vsql.Btree.Contents
import Vsql.Btree.Linked
import Vsql.Btree.LowerBounds
import Vsql.Btree.Runs
import Vsql.Btree.Blobs
import Vsql.Btree.Ranges
