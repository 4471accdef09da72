import Dbs.Lib.Octets
import Dbs.Lib.Struct
import Dbs.Lib.Galois
import Dbs.Lib.ReedSolomon
import Dbs.Container.Rs
import Dbs.Container.Layout
import Dbs.Crypto.Chunked
import Dbs.Container.Metadata
import Dbs.Lib.Effects
import Dbs.Container.Writer
import Dbs.Container.Contents
import Dbs.Container.Written
import Dbs.Container.Reader
import Dbs.Container.Resolve
import Dbs.Container.Opened
import Dbs.Container.Scan
import Dbs.Container.Recovered
import Dbs.Container.RoundTrip
import Dbs.Container.Authentic
import Dbs.Container.Damage
import Dbs.Container.Sparse
import Dbs.Accounts
import Dbs.Audit.Chain
import Dbs.Audit.Commitment
import Dbs.Container.Failing
import Dbs.Container.Interrupted
import Dbs.Container.Nonces
import Dbs.Encoding
import Dbs.Files.Creation
import Dbs.Files.Install
import Dbs.Files.Placement
import Dbs.Files.Publish
import Dbs.Files.Raising
import Dbs.Lib.PosixNames
import Dbs.Lib.Texts
import Dbs.Payload.Members
import Dbs.Payload.Paging
import Dbs.Payload.Splicing
import Dbs.Jobs
import Dbs.KeyStore
import Dbs.Lib.Base64
import Dbs.Lib.Dumps
import Dbs.Mcp
import Dbs.Payload.Accepted
import Dbs.Payload.Skipping
import Dbs.Pipeline
import Dbs.Prefetching
import Dbs.Remote.SmallFiles
import Dbs.Schedule
import Dbs.Vault
import Dbs.Activity
import Dbs.Conversion
import Dbs.Expiry
import Dbs.Leftovers
import Dbs.Release
import Dbs.Relocation
import Dbs.Remote.Redaction
import Dbs.Runners
import Dbs.Streaming
import Dbs.Supervision
import Dbs.Container.Encoder
import Dbs.Container.Decoder
import Dbs.Container.Blocks
import Dbs.Payload.Records
import Dbs.Payload.Carried
import Dbs.Container.Passing
import Dbs.Container.Schedule
import Dbs.Container.TailSearch
import Dbs.LoadOrder
import Dbs.TwoFactor
import Dbs.Throttle
import Dbs.Timing
import Dbs.Locks
import Dbs.Sweeping
import Dbs.MoveLocks
import Dbs.Shell.Buffer
import Dbs.Shell.Polling
import Dbs.Lib.Substitution
import Dbs.Rewriting
import Dbs.Shell.Capacity
import Dbs.Catalogue
import Dbs.Carry
import Dbs.Releases
import Dbs.Forwarded
import Dbs.Splitting
import Dbs.HostKeys
import Dbs.Settling
import Dbs.Dispatch
import Dbs.Interrupts
import Dbs.EnvFiles
import Dbs.Remote.WholeFiles
import Dbs.Remote.Restoring
import Dbs.SharedFolders
import Dbs.Lib.ShellText
import Dbs.Uploads
import Dbs.Remote.Scripts
import Dbs.Refits
import Dbs.Telemetry
import Dbs.FileManager.Paths
import Dbs.FileManager.Service
import Dbs.FileManager.EnvDownloads
import Dbs.Lib.Cells
import Dbs.Merging
import Dbs.Backups
