import KyNotes.Lib.Table
import KyNotes.Lib.Run
import KyNotes.Lib.Check
import KyNotes.Server.Schema
import KyNotes.Server.TeamKeys
import KyNotes.Server.Accounts
import KyNotes.Server.Containers
import KyNotes.Server.Store
import KyNotes.Server.Objects
import KyNotes.Server.Uploads
import KyNotes.Server.Gc
import KyNotes.Server.Sync
import KyNotes.Server.System
import KyNotes.Server.Change
import KyNotes.Server.Specs
import KyNotes.Server.Effects
import KyNotes.Keys.Invariant
import KyNotes.Keys.Transactions
import KyNotes.Pages.Saves
import KyNotes.Pages.Replay
import KyNotes.Keys.Law
import KyNotes.Blobs.Safety
import KyNotes.Server.Sessions
import KyNotes.Uploads.Assembly
import KyNotes.Lib.Sums
import KyNotes.Quota.Charges
import KyNotes.Quota.Writes
import KyNotes.Lib.Feed
import KyNotes.Feed.Stamps
import KyNotes.Feed.Paging
import KyNotes.Keys.Members
import KyNotes.Keys.Owners
import KyNotes.Keys.Authority
import KyNotes.Keys.Minting
import KyNotes.Lib.ObjectStore
import KyNotes.Lib.Record
import KyNotes.Lib.Base64
import KyNotes.Web.Values
import KyNotes.Web.Envelopes
import KyNotes.Web.Pins
import KyNotes.Web.Keyring
import KyNotes.Web.Vault
import KyNotes.Web.Trust
import KyNotes.Lib.Program
import KyNotes.Web.Floors
import KyNotes.Web.Rollback
import KyNotes.Web.Drafts
import KyNotes.Web.Survival
import KyNotes.Web.KeyService
import KyNotes.Web.Passes
import KyNotes.Web.Pinned
import KyNotes.Web.Agreement
import KyNotes.Links.Relay
import KyNotes.Links.StateMachine
import KyNotes.Lib.EventLoop
import KyNotes.Web.Linking
import KyNotes.Web.LinkFlow
import KyNotes.Web.LinkInvariant
import KyNotes.Web.LinkAgreement
import KyNotes.Auth.Schema
import KyNotes.Auth.Sessions
import KyNotes.Auth.Confirmations
import KyNotes.Auth.Directory
import KyNotes.Auth.Devices
import KyNotes.Auth.Identities
import KyNotes.Auth.System
import KyNotes.Auth.Effects
import KyNotes.Lib.Json
import KyNotes.Auth.LastAdmin
import KyNotes.Auth.Dismissal
import KyNotes.Auth.Convergence
import KyNotes.Auth.Pairing
import KyNotes.Auth.ResetLimit
import KyNotes.Auth.Logout
import KyNotes.Auth.Grants
import KyNotes.Auth.Copies
import KyNotes.Auth.Secrets
import KyNotes.Lib.Fields
import KyNotes.Lib.Utf16
import KyNotes.Lib.Aead
import KyNotes.Content.Payload
import KyNotes.Content.Parsers
import KyNotes.Content.Sealing
import KyNotes.Content.Bound
import KyNotes.Lib.Utf8
import KyNotes.Cleanup.Slots
import KyNotes.Cleanup.System
import KyNotes.Cleanup.Reservations
import KyNotes.Cleanup.Bijection
import KyNotes.Lib.Split
import KyNotes.Backup.Payload
import KyNotes.Backup.Restore
import KyNotes.Backup.Reachable
import KyNotes.Lib.Chains
import KyNotes.Outline.OrderKeys
import KyNotes.Outline.Reorder
import KyNotes.Outline.ConflictCopy
import KyNotes.Outline.Groups
import KyNotes.Outline.GroupMove
import KyNotes.Cleanup.Cells
import KyNotes.Cleanup.Padding
import KyNotes.Cleanup.Rows
import KyNotes.Bridge.Trust
import KyNotes.Bridge.Memory
import KyNotes.Bridge.Openers
import KyNotes.Bridge.Cache
import KyNotes.Bridge.Site
import KyNotes.Bridge.Alarms
import KyNotes.Bridge.Ordering
import KyNotes.Bridge.Markdown
import KyNotes.Bridge.RoundTrip
import KyNotes.Auth.Lockout
import KyNotes.Server.ClientAddress
import KyNotes.Export.Zip
import KyNotes.Web.Recovery
import KyNotes.Lib.History
import KyNotes.Content.Migration
import KyNotes.Web.TaskDates
import KyNotes.Lib.Words
import KyNotes.Web.Recurrence
import KyNotes.Lib.Casing
import KyNotes.Lib.Fresh
import KyNotes.Export.Names
import KyNotes.Export.Notebook
import KyNotes.Export.Paths
import KyNotes.Lib.JsonText
import KyNotes.Cleanup.SlotText
import KyNotes.Cleanup.SlotBytes
import KyNotes.Lib.JsValue
import KyNotes.Document.Legacy
import KyNotes.Document.Page
import KyNotes.Document.Stable
import KyNotes.Lib.Varint
import KyNotes.Cleanup.RecordFormat
import KyNotes.Lib.TokenBucket
import KyNotes.Server.RateLimit
import KyNotes.Web.Splicing
import KyNotes.Setup.ImportClient
import KyNotes.Setup.Receipts
import KyNotes.Server.CommitReceipts
import KyNotes.Setup.OneTransfer
import KyNotes.Setup.Resume
import KyNotes.Push.Reminders
import KyNotes.Push.Window
import KyNotes.Mirror.Fetch
import KyNotes.Mirror.Recovery
import KyNotes.Lib.WellFormed
import KyNotes.Lib.JsonUnits
import KyNotes.Lib.JsonRead
import KyNotes.Lib.JsSame
import KyNotes.Bridge.Append
import KyNotes.Bridge.Reencoded
import KyNotes.Bridge.Reopened
import KyNotes.Bridge.Appended
import KyNotes.Document.Canvas
import KyNotes.Document.Editor
import KyNotes.Mirror.Sync
import KyNotes.Mirror.Restored
import KyNotes.Lib.Forest
import KyNotes.Outline.Rows
import KyNotes.Outline.Moves
import KyNotes.Outline.Siblings
import KyNotes.Lib.Base64Url
import KyNotes.Shares.Links
import KyNotes.Server.Reads
import KyNotes.Server.Isolation
import KyNotes.Pages.Durable
