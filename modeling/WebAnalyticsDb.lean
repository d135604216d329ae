import WebAnalyticsDb.Foundation.Bytes
import WebAnalyticsDb.Foundation.Crc
import WebAnalyticsDb.Foundation.Program
import WebAnalyticsDb.Foundation.Access
import WebAnalyticsDb.Foundation.OpenAddressing
import WebAnalyticsDb.Foundation.Search
import WebAnalyticsDb.Foundation.MergeSort
import WebAnalyticsDb.Foundation.Machine
import WebAnalyticsDb.Foundation.Ring
import WebAnalyticsDb.Core.Basic
import WebAnalyticsDb.Core.Encoding
import WebAnalyticsDb.Core.Schema
import WebAnalyticsDb.Core.RowCodec
import WebAnalyticsDb.Core.RowCanonical
import WebAnalyticsDb.Core.RowAccess
import WebAnalyticsDb.Storage.Format
import WebAnalyticsDb.Storage.Dictionary
import WebAnalyticsDb.Storage.Symbols
import WebAnalyticsDb.Storage.Definitions
import WebAnalyticsDb.Storage.Interning
import WebAnalyticsDb.Storage.Replay
import WebAnalyticsDb.Storage.Access
import WebAnalyticsDb.Core.Utf8
import WebAnalyticsDb.Core.Layout
import WebAnalyticsDb.Core.Histogram
import WebAnalyticsDb.Platform.Files
import WebAnalyticsDb.Core.Engine
import WebAnalyticsDb.Storage.Manifest
import WebAnalyticsDb.Storage.Index
import WebAnalyticsDb.Storage.Retention
import WebAnalyticsDb.Storage.Segments
import WebAnalyticsDb.Storage.Integrity
import WebAnalyticsDb.Storage.Reader
import WebAnalyticsDb.Storage.Metadata
import WebAnalyticsDb.Core.Database
import WebAnalyticsDb.Storage.Commit
import WebAnalyticsDb.Core.Notifications
import WebAnalyticsDb.Storage.Tally
import WebAnalyticsDb.Ledger.Frames
import WebAnalyticsDb.Ledger.Segments
import WebAnalyticsDb.Ledger.Basic
import WebAnalyticsDb.Ledger.Disk
import WebAnalyticsDb.Ledger.Live
import WebAnalyticsDb.Ledger.Transitions
import WebAnalyticsDb.Ledger.Rotation
import WebAnalyticsDb.Ledger.Commit
import WebAnalyticsDb.Ledger.Causes
import WebAnalyticsDb.Ledger.Retention
import WebAnalyticsDb.Ledger.Scan
import WebAnalyticsDb.Ledger.Damage
import WebAnalyticsDb.Ledger.Recovery
import WebAnalyticsDb.Query.Cache
import WebAnalyticsDb.Query.Cursor
import WebAnalyticsDb.Query.Snapshot
import WebAnalyticsDb.Query.Scan
import WebAnalyticsDb.Query.Plan
import WebAnalyticsDb.Query.Execute
import WebAnalyticsDb.Query.Budget
import WebAnalyticsDb.Query.Ordering
import WebAnalyticsDb.Query.Grouping
import WebAnalyticsDb.Query.Metering
import WebAnalyticsDb.System.Site
import WebAnalyticsDb.System.Directory
import WebAnalyticsDb.System.Policy
import WebAnalyticsDb.System.Availability
import WebAnalyticsDb.System.Durability
import WebAnalyticsDb.System.History
import WebAnalyticsDb.System.Uncertain
import WebAnalyticsDb.System.Room
import WebAnalyticsDb.System.Watch
import WebAnalyticsDb.System.Database
import WebAnalyticsDb.System.Opening
import WebAnalyticsDb.System.Base
import WebAnalyticsDb.System.Creation
import WebAnalyticsDb.System.RoundTrip
import WebAnalyticsDb.Ingest.Writer
import WebAnalyticsDb.Ingest.Groups
import WebAnalyticsDb.Ingest.Splitting
import WebAnalyticsDb.Server.Auth
import WebAnalyticsDb.Server.Feed
import WebAnalyticsDb.Server.Response
import WebAnalyticsDb.Server.Statistics
import WebAnalyticsDb.Server.Ticker
import WebAnalyticsDb.Foundation.Disk
import WebAnalyticsDb.Platform.Replacement
import WebAnalyticsDb.Server.Json
import WebAnalyticsDb.Server.Policy
