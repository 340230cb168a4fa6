import BulletinChain.Primitives
import BulletinChain.Lib.BinarySearch
import BulletinChain.Lib.BoundedVec
import BulletinChain.Lib.Chunks
import BulletinChain.Lib.FiniteMap
import BulletinChain.Lib.Run
import BulletinChain.Config
import BulletinChain.Lib.Except
import BulletinChain.State
import BulletinChain.TransactionStorage.Authorization
import BulletinChain.TransactionStorage.Calls
import BulletinChain.DataRenewal.Accounting
import BulletinChain.DataRenewal.Calls
import BulletinChain.Hooks
import BulletinChain.HopPromotion
import BulletinChain.Chain
import BulletinChain.Lib.RetentionLog
import BulletinChain.Verdict
import BulletinChain.Theorems.Checks
import BulletinChain.Theorems.Walk
import BulletinChain.Theorems.Agreement
import BulletinChain.Theorems.Wrappers
import BulletinChain.Effects
import BulletinChain.Theorems.Calls
import BulletinChain.Theorems.Admission
import BulletinChain.Theorems.Drain
import BulletinChain.Theorems.Sweep
import BulletinChain.Theorems.Steps
import BulletinChain.Theorems.Entries
import BulletinChain.Theorems.Retention
import BulletinChain.Theorems.ChunkProof
import BulletinChain.Theorems.Window
import BulletinChain.Theorems.Registrations
import BulletinChain.Theorems.Renewals
import BulletinChain.Theorems.Capacity
import BulletinChain.Theorems.Accounting
import BulletinChain.Access
import BulletinChain.Theorems.Access
import BulletinChain.Theorems.Providers
import BulletinChain.Theorems.Budgets
import BulletinChain.Theorems.Quotas
import BulletinChain.Theorems.Preimages
import BulletinChain.Theorems.Expiry
import BulletinChain.Migrations
import BulletinChain.Theorems.Migrations
import BulletinChain.Lib.QuotaWindows
import BulletinChain.Theorems.Footprint
import BulletinChain.Runtime.Encoding
import BulletinChain.Runtime.Execution
import BulletinChain.Theorems.Execution
import BulletinChain.Theorems.Indexing
import BulletinChain.Theorems.Charges
import BulletinChain.Theorems.Ingress
import BulletinChain.Theorems.Latest
import BulletinChain.Lib.Codec
import BulletinChain.Lib.KeyWalk
import BulletinChain.Migrations.Layout
import BulletinChain.Migrations.Raw
import BulletinChain.Theorems.MigrateV1
import BulletinChain.Theorems.MigrateV3
import BulletinChain.DataRenewal.Migrations
import BulletinChain.Theorems.Relocation
import BulletinChain.Migrations.Westend
import BulletinChain.Theorems.Westend
import BulletinChain.Migrations.Live
import BulletinChain.Theorems.Frame
import BulletinChain.Theorems.Live
import BulletinChain.Lib.DagPb
import BulletinChain.RustSdk.Dag
import BulletinChain.RustSdk.Client
import BulletinChain.Theorems.Manifest
import BulletinChain.Runtime.Boost
import BulletinChain.Theorems.Boost
import BulletinChain.Theorems.Upload
import BulletinChain.Theorems.Reassembly
import BulletinChain.Runtime.Integrity
import BulletinChain.Theorems.Tags
import BulletinChain.DataRenewal.TryState
import BulletinChain.Events
import BulletinChain.Runtime.Inherents
import BulletinChain.Theorems.Events
import BulletinChain.Theorems.Inherents
import BulletinChain.Theorems.TryState
import BulletinChain.Theorems.Promotions
import BulletinChain.Theorems.Submission
import BulletinChain.ConsoleUi.CidLookup
import BulletinChain.Theorems.Interchange
import BulletinChain.Theorems.Lookup
import BulletinChain.RustSdk.Renewal
import BulletinChain.Theorems.Preflight
import BulletinChain.Theorems.Receipts
import BulletinChain.Theorems.Tracker
import BulletinChain.Theorems.Estimate
import BulletinChain.Theorems.Operations
