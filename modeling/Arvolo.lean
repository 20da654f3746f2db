import Arvolo.Lib.KeyedMap
import Arvolo.Lib.Register
import Arvolo.Lib.Machine
import Arvolo.Lib.Effect
import Arvolo.Lib.Pool
import Arvolo.Lib.Traverse
import Arvolo.Lib.Batches
import Arvolo.Lib.Base32
import Arvolo.Lib.Table
import Arvolo.Lib.Windows
import Arvolo.Lib.Word
import Arvolo.Lib.Parse
import Arvolo.Lib.Utf8
import Arvolo.Lib.Lines
import Arvolo.Lib.Toml
import Arvolo.Lib.Double
import Arvolo.Lib.Codec
import Arvolo.Lib.Exchange
import Arvolo.Lib.Rekey
import Arvolo.Crypto.Chunk
import Arvolo.Crypto.Hpke
import Arvolo.Crypto.Wire
import Arvolo.Sync.State
import Arvolo.Sync.Sidecar
import Arvolo.Sync.Merge
import Arvolo.Sync.Bridge
import Arvolo.Sync.Extends
import Arvolo.Sync.Folds
import Arvolo.Sync.Fleet
import Arvolo.Sync.Clocks
import Arvolo.Sync.Slot
import Arvolo.Sync.Settled
import Arvolo.Sync.Quiet
import Arvolo.Sync.Cut
import Arvolo.Sync.Unreadable
import Arvolo.Sync.RoundTrip
import Arvolo.Sync.Devices
import Arvolo.Book.Contacts
import Arvolo.Book.FirstClaim
import Arvolo.Book.Recipient
import Arvolo.Book.Spelling
import Arvolo.Book.Config
import Arvolo.Upload.Layout
import Arvolo.Upload.Ranges
import Arvolo.Send.Source
import Arvolo.Send.Sender
import Arvolo.Send.Nonce
import Arvolo.Link.Container
import Arvolo.Link.Faithful
import Arvolo.Link.Page
import Arvolo.Upload.Relay
import Arvolo.Upload.Held
import Arvolo.Upload.Session
import Arvolo.Upload.Drive
import Arvolo.Recv.Bitfield
import Arvolo.Recv.Schedule
import Arvolo.Recv.Loop
import Arvolo.Recv.Resume
import Arvolo.Presence.Acked
import Arvolo.Presence.Offers
import Arvolo.Presence.Window
import Arvolo.Recv.Accounting
import Arvolo.Recv.Assign
import Arvolo.Recv.Files
import Arvolo.Recv.Staging
import Arvolo.Recv.Deep
import Arvolo.Recv.Payload
import Arvolo.Recv.History
import Arvolo.Recv.Mailbox
import Arvolo.Recv.Names
import Arvolo.Recv.Discard
import Arvolo.Recv.Folder
import Arvolo.Control.Acks
import Arvolo.Control.Frames
import Arvolo.Engine.Offers
import Arvolo.Engine.Deposits
import Arvolo.Engine.Receipts
import Arvolo.Manager.Uploads
import Arvolo.Manager.Deliver
import Arvolo.Engine.Payload
import Arvolo.Engine.History
import Arvolo.Engine.Refusals
import Arvolo.Engine.Requests
import Arvolo.Engine.Rebinding
import Arvolo.Manager.Shapes
import Arvolo.Manager.Row
import Arvolo.Manager.Board
import Arvolo.Relay.Deposits
import Arvolo.Relay.Clock
import Arvolo.Relay.Limits
import Arvolo.Relay.Throttle
import Arvolo.Relay.Seeds
import Arvolo.Relay.Budget
import Arvolo.Relay.Uploads
import Arvolo.Relay.UploadLife
import Arvolo.Relay.UploadCommit
import Arvolo.Relay.Rendezvous
import Arvolo.Relay.RzOwner
import Arvolo.Relay.RzClaims
import Arvolo.Relay.RzKeys
import Arvolo.Relay.RzLease
import Arvolo.Code.Host
import Arvolo.Code.Budgets
import Arvolo.Code.Handover
import Arvolo.Code.Agreement
import Arvolo.Code.Undisturbed
import Arvolo.Manager.Copies
import Arvolo.Manager.Pickup
import Arvolo.Manager.Records
import Arvolo.Manager.Restart
import Arvolo.Manager.Reload
import Arvolo.Manager.Refile
import Arvolo.Manager.RoundTrip
import Arvolo.Manager.Crash
import Arvolo.Send.Providers
import Arvolo.Send.Prepare
import Arvolo.Send.Serve
import Arvolo.Send.Leaving
import Arvolo.Relay.Inbox
import Arvolo.Relay.InboxLadder
import Arvolo.Relay.Have
import Arvolo.Send.Offload
import Arvolo.Send.Tickets
import Arvolo.Upload.Pieces
import Arvolo.Upload.Versions
import Arvolo.Archive.Pack
import Arvolo.Archive.Unpack
