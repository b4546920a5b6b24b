import Tactile.Lib.Program
import Tactile.Lib.Script
import Tactile.Lib.Transition
import Tactile.Lib.FiniteMap
import Tactile.Lib.Threads
import Tactile.Lib.Layers
import Tactile.Lib.Markup
import Tactile.Lib.CleanPath
import Tactile.Lib.Crc
import Tactile.Lib.Matching
import Tactile.Lib.Panics
import Tactile.Lib.Cursor
import Tactile.Lib.ByteString
import Tactile.Lib.Text
import Tactile.Lib.Utf8
import Tactile.Lib.Base64
import Tactile.Lib.CodeUnits
import Tactile.Lib.JsNumber
import Tactile.Lib.Lcs
import Tactile.Lib.NestedMap
import Tactile.Relay.Blob
import Tactile.Relay.Envelope
import Tactile.Relay.FileSystem
import Tactile.Relay.Index
import Tactile.Relay.FsStore
import Tactile.Relay.Oracle
import Tactile.Relay.FsIndex
import Tactile.Relay.FsFiles
import Tactile.Relay.FsMethods
import Tactile.Relay.FsRecovery
import Tactile.Relay.FsRefinement
import Tactile.Relay.S3Store
import Tactile.Relay.Caps
import Tactile.Relay.Requests
import Tactile.Relay.FsThreads
import Tactile.Relay.S3Calls
import Tactile.Relay.S3Accounts
import Tactile.Relay.LiveBlobs
import Tactile.Relay.Ranges
import Tactile.Relay.S3Recovery
import Tactile.Relay.S3Keys
import Tactile.Relay.S3Listing
import Tactile.Relay.Backends
import Tactile.Relay.Signing
import Tactile.Relay.ClientIP
import Tactile.Relay.Rest
import Tactile.Relay.Replay
import Tactile.Relay.RelayClient
import Tactile.Relay.StoredAnswers
import Tactile.Relay.MultiClient
import Tactile.Relay.ClientList
import Tactile.Relay.Hub
import Tactile.Relay.Sessions
import Tactile.Relay.SessionThreads
import Tactile.Relay.ProofOfWork
import Tactile.Relay.Registrations
import Tactile.Relay.Ghosts
import Tactile.Relay.Confinement
import Tactile.Publish.Bundle
import Tactile.Publish.Extraction
import Tactile.Publish.Records
import Tactile.Publish.NodeOps
import Tactile.Publish.Handlers
import Tactile.Publish.Domains
import Tactile.Publish.Routing
import Tactile.Publish.Deploys
import Tactile.Publish.DeployThreads
import Tactile.Publish.Quota
import Tactile.Publish.FailSafe
import Tactile.Publish.Retention
import Tactile.Publish.Sweep
import Tactile.Publish.SiteThreads
import Tactile.Publish.SiteLocks
import Tactile.Publish.Counts
import Tactile.Publish.Owners
import Tactile.Publish.Signing
import Tactile.Publish.ConnSlots
import Tactile.Relay.Connections
import Tactile.Relay.RateLimit
import Tactile.Relay.RateSweep
import Tactile.Publish.DeployCache
import Tactile.Publish.Serving
import Tactile.Publish.Packing
import Tactile.Publish.ObjectIndex
import Tactile.Publish.FsPaths
import Tactile.Publish.SlugPaths
import Tactile.Publish.SlugEscapes
import Tactile.Storage.Mutex
import Tactile.Storage.MutexLock
import Tactile.Storage.Paths
import Tactile.Storage.PathAlgebra
import Tactile.Storage.Idb
import Tactile.Storage.IdbTree
import Tactile.Storage.IdbRename
import Tactile.Storage.IdbNodes
import Tactile.Storage.IdbBackend
import Tactile.Storage.IdbThreads
import Tactile.Storage.Opfs
import Tactile.Storage.OpfsCalls
import Tactile.Storage.OpfsRename
import Tactile.Storage.OpfsBackend
import Tactile.Storage.Backend
import Tactile.Storage.Versioned
import Tactile.Storage.VersionDirs
import Tactile.Storage.Returning
import Tactile.Storage.History
import Tactile.Storage.Restoring
import Tactile.Storage.Isolation
import Tactile.Storage.Removal
import Tactile.Storage.Throttle
import Tactile.Storage.Filling
import Tactile.Storage.Migrate
import Tactile.Utils.Encoding
import Tactile.Sync.Records
import Tactile.Sync.SyncNow
import Tactile.Sync.Merge
import Tactile.Sync.Untrusted
import Tactile.Sync.Walk
import Tactile.Sync.Disk
import Tactile.Sync.Confine
import Tactile.Sync.Retry
import Tactile.Sync.Uploads
import Tactile.Sync.RelayView
import Tactile.Sync.Backing
import Tactile.Sync.Rounds
import Tactile.Sync.Interrupted
import Tactile.Sync.Edits
import Tactile.Sync.StoreView
import Tactile.Sync.HttpView
import Tactile.Sync.SyncCode
import Tactile.Sync.Phantoms
import Tactile.Sync.BlobIds
import Tactile.Utils.Diff
import Tactile.Utils.DiffMinimal
import Tactile.Utils.Collapse
import Tactile.Utils.Zip
import Tactile.Utils.ZipNames
import Tactile.Utils.ZipDecoding
import Tactile.Search.Fuzzy
import Tactile.Search.Engine
import Tactile.Search.Spots
import Tactile.Search.Bounds
import Tactile.Search.Rows
import Tactile.Search.Safety
import Tactile.Search.Lines
import Tactile.Search.Ascii
import Tactile.Search.WebRows
import Tactile.Search.Agreement
import Tactile.Search.Units
import Tactile.Search.Outranking
import Tactile.Search.Highlights
import Tactile.Search.FileSearch
import Tactile.Notes.Saving
import Tactile.Notes.Wikilink
import Tactile.Notes.Math
import Tactile.Notes.Links
import Tactile.Lib.Fresh
import Tactile.Notes.Naming
import Tactile.Notes.Creating
import Tactile.Notes.Attachments
import Tactile.Notes.BlobUrls
import Tactile.Notes.Graph
import Tactile.Notes.Trash
import Tactile.Notes.TrashEntries
import Tactile.Notes.TrashRuns
