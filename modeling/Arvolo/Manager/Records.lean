import Arvolo.Lib.Table

/-!
The records of `core/src/manager/records.rs` and `core/src/manager/uploads.rs`.

Every record is a file of the state directory, named by its kind and by the id of the
transfer it belongs to. What a record holds is its fields but the id, which stands in the
name. A file that does not decode is read as no file, so it has no row here. A listing of the
directory gives the rows of a table in their order, whatever that is.
-/

namespace Arvolo.Manager.Restart

open Lib

abbrev Bytes := List UInt8

structure DownloadRecord where
  ticket : String
  outPath : String
  name : String
  size : ℕ

inductive PausedBy
  | user
  | system
  deriving DecidableEq

structure SendRecord where
  path : String
  nodeSeed : Bytes
  ticket : String
  /-- A file this send owns, deleted with its record. -/
  ownedStage : Option String

structure ShareRecord where
  copiesServed : ℕ := 0
  bytesServed : ℕ := 0
  lastPickup : ℕ := 0
  fromDownload : ℕ := 0
  started : ℕ := 0

structure SendToRecord where
  recipient : Bytes
  payload : String
  name : String
  archive : Bool
  paused : Bool
  reason : String
  note : String
  target : Option Bytes
  relay : Option String
  liveOnly : Bool

/-- A record under the old prefix: of the second shape, or of the first. -/
inductive LegacySendTo
  | v2 (recipient : Bytes) (payload name : String) (archive paused : Bool) (reason note : String)
      (target : Option Bytes)
  | v1 (recipient : Bytes) (payload name : String) (archive paused : Bool) (reason note : String)

/-- `decode_legacy_sendto`, once the bytes have been read in one shape or the other. -/
def LegacySendTo.toRecord : LegacySendTo → SendToRecord
  | v2 recipient payload name archive paused reason note target =>
      { recipient, payload, name, archive, paused, reason, note, target
        relay := none, liveOnly := false }
  | v1 recipient payload name archive paused reason note =>
      { recipient, payload, name, archive, paused, reason, note
        target := none, relay := none, liveOnly := false }

structure PayloadStamp where
  len : ℕ
  mtimeSecs : ℕ
  mtimeNanos : ℕ
  dev : ℕ
  ino : ℕ
  deriving DecidableEq

structure PrepRecord where
  key : Bytes
  nodeSeed : Bytes
  totalSize : ℕ
  chunks : List Bytes
  payload : String
  stamp : PayloadStamp

structure LinkSeal where
  key : Bytes
  revokeToken : String
  name : String
  size : ℕ

structure MailboxSeal where
  key : Bytes
  salt : Bytes
  wrappedKey : Bytes
  encappedKey : Bytes
  revokeToken : String
  size : ℕ

inductive Sealing
  | link (s : LinkSeal)
  | mailbox (s : MailboxSeal)

def Sealing.link? : Sealing → Option LinkSeal
  | link s => some s
  | mailbox _ => none

structure UploadSession where
  relay : String
  id : String
  length : ℕ

structure Resumable where
  sealing : Sealing
  session : Option UploadSession

structure UploadRecord extends Resumable where
  payload : String
  stamp : PayloadStamp

structure LinkRecord where
  payload : String
  relay : String
  ttl : ℕ
  max : ℕ

structure DepositedRecord where
  recipient : Bytes
  name : String
  size : ℕ
  relay : String
  claim : String
  expires : ℕ
  revokeToken : String
  offerId : String
  posterToken : String
  offerRelay : String

structure LegacyDeposited where
  recipient : Bytes
  name : String
  size : ℕ
  relay : String
  claim : String
  expires : ℕ
  revokeToken : String
  offerId : String
  posterToken : String

/-- One relay had both roles. -/
def LegacyDeposited.toRecord (r : LegacyDeposited) : DepositedRecord :=
  { recipient := r.recipient, name := r.name, size := r.size, relay := r.relay, claim := r.claim
    expires := r.expires, revokeToken := r.revokeToken, offerId := r.offerId
    posterToken := r.posterToken, offerRelay := r.relay }

structure PendingCodeRecord where
  shown : String
  slot : String
  secret : String
  relay : String
  ownerToken : Bytes
  maxSessions : Option ℕ

structure PendingShareRecord where
  payload : String
  name : String
  archive : Bool
  seedRelay : Option String
  code : Option PendingCodeRecord

structure CodeRecord where
  slot : String
  secret : String
  relay : String
  ownerToken : Bytes
  payload : Bytes
  shown : String
  maxSessions : Option ℕ
  maxFailures : ℕ
  sessionsDone : ℕ
  failures : ℕ

/-! ### The state directory -/

/-- What a file is, by the prefix of its name. -/
inductive Kind
  | download
  | paused
  | send
  | share
  | sendto
  | legacySendto
  | prep
  | upload
  | deposited
  | legacyDeposited
  | link
  | pendingShare
  | code
  deriving DecidableEq

abbrev Content : Kind → Type
  | .download => DownloadRecord
  | .paused => PausedBy
  | .send => SendRecord
  | .share => ShareRecord
  | .sendto => SendToRecord
  | .legacySendto => LegacySendTo
  | .prep => PrepRecord
  | .upload => UploadRecord
  | .deposited => DepositedRecord
  | .legacyDeposited => LegacyDeposited
  | .link => LinkRecord
  | .pendingShare => PendingShareRecord
  | .code => CodeRecord

/-- The files of the state directory, and the staged archives, which may lie anywhere. -/
structure Disk where
  files : (k : Kind) → Table ℕ (Content k)
  stages : Finset String

/-- A change of the disk. -/
inductive Op
  | put (k : Kind) (id : ℕ) (c : Content k)
  | unlink (k : Kind) (id : ℕ)
  | unlinkStage (path : String)

/-- What is on disk after a write that failed. -/
inductive Miss
  | untouched
  | cutShort

namespace Disk

variable (d : Disk)

def put (k : Kind) (id : ℕ) (c : Content k) : Disk :=
  { d with files := Function.update d.files k ((d.files k).insert id c) }

def unlink (k : Kind) (id : ℕ) : Disk :=
  { d with files := Function.update d.files k ((d.files k).erase id) }

def run : Op → Disk
  | .put k id c => d.put k id c
  | .unlink k id => d.unlink k id
  | .unlinkStage path => { d with stages := d.stages.erase path }

/-- Only a write can fail. A record cut short does not decode, so its name holds nothing. -/
def miss : Miss → Op → Disk
  | .untouched, .put _ _ _ => d
  | .cutShort, .put k id _ => d.unlink k id
  | _, op => d.run op

/-- A listing of the directory. -/
def rows (k : Kind) : List (Σ _ : ℕ, Content k) := (d.files k).entries

variable {d} {k k' : Kind} {id j : ℕ} {c : Content k}

@[simp] theorem files_put_self : (d.put k id c).files k = (d.files k).insert id c := by
  simp only [put, Function.update_self]

@[simp] theorem files_put_of_ne (h : k' ≠ k) : (d.put k id c).files k' = d.files k' := by
  simp only [put, Function.update_of_ne h]

@[simp] theorem files_unlink_self : (d.unlink k id).files k = (d.files k).erase id := by
  simp only [unlink, Function.update_self]

@[simp] theorem files_unlink_of_ne (h : k' ≠ k) : (d.unlink k id).files k' = d.files k' := by
  simp only [unlink, Function.update_of_ne h]

theorem mem_rows {c : Content k} : (⟨id, c⟩ : Σ _ : ℕ, Content k) ∈ d.rows k ↔
    (d.files k).lookup id = some c :=
  AList.mem_lookup_iff.symm

end Disk

end Arvolo.Manager.Restart
