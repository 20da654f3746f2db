import Arvolo.Lib.Machine
import Arvolo.Lib.Pool
import Arvolo.Lib.Table
import Arvolo.Relay.Budget
import Arvolo.Relay.Deposits

/-!
Upload sessions (`relay/src/mailbox/upload.rs`, `relay/src/http/upload.rs`).

A session is a row of `uploads`, a `.part` file and, while a request appends to it or
commits it, an entry of the busy set. Opening, aborting and reaping hold the database lock
from beginning to end. An append and a commit do not: they hold the busy guard, and between
their steps any other request may run. Every database and file step may fail, as the
environment decides. Ids and claims are drawn at random: one that is drawn is not in use.
-/

namespace Arvolo.Relay

open Lib

def uploadIdleSecs : ℕ := 24 * 3600

def uploadCommittedGraceSecs : ℕ := 3600

/-- The parameters fixed when an upload is opened. -/
structure UploadOpen where
  encappedKey : List UInt8
  revokeHash : List UInt8
  ttlSecs : ℕ
  maxDownloads : ℕ
  length : ℕ
  deriving DecidableEq

/-- A row of `uploads`, with the request it was opened by. -/
structure Session where
  opened : UploadOpen
  idleExpires : ℕ
  /-- The claim and the lifetime granted. -/
  committed : Option (Name × ℕ) := none
  deriving DecidableEq

namespace Session

/-- The `length` and the `ttl` columns. -/
def length (x : Session) : ℕ := min x.opened.length i64Max

def ttl (x : Session) : ℕ := min x.opened.ttlSecs i64Max

/-- What the row adds to `reserved_upload_bytes`, -/
def reserved (x : Session) : ℕ := if x.committed.isNone then x.length else 0

/-- and what its client declared. -/
def declared (x : Session) : ℕ := if x.committed.isNone then x.opened.length else 0

end Session

/-- A request that holds the busy guard of its session. -/
inductive UploadJob
  /-- `reached` is the source's `end`. -/
  | appending (id length reached : ℕ) (failed : Bool)
  | publishing (id claim now : ℕ)
  | recording (id claim now : ℕ)
  /-- The entry was refused, and the file is to be put back. -/
  | restoring (id claim : ℕ)
  | marking (id claim granted now : ℕ)
  deriving DecidableEq

namespace UploadJob

def id : UploadJob → Name
  | appending id .. => id
  | publishing id .. => id
  | recording id .. => id
  | restoring id _ => id
  | marking id .. => id

/-- The claim a commit has drawn. -/
def claim : UploadJob → Option Name
  | appending .. => none
  | publishing _ claim _ => some claim
  | recording _ claim _ => some claim
  | restoring _ claim => some claim
  | marking _ claim .. => some claim

/-- The session's file has been moved to the claim. -/
def moved : UploadJob → Bool
  | appending .. => false
  | publishing .. => false
  | _ => true

end UploadJob

structure UploadInfo where
  length : ℕ
  received : ℕ
  committed : Option (Name × ℕ)
  deriving DecidableEq

/-- The mailbox as the uploads see it, and three records: the ids given out, the sessions
whose reservation was released, and the entries made, each with its session. -/
structure UploadStore where
  sessions : Table Name Session := ∅
  parts : Table Name (List UInt8) := ∅
  blobs : Table Name (List UInt8) := ∅
  entries : Table Name Entry := ∅
  jobs : List UploadJob := []
  issued : Finset Name := ∅
  released : List Name := []
  created : List (Name × Name) := []
  deriving DecidableEq

/-- What the environment decides; a flag says whether the step of that name succeeds. -/
inductive UploadEvent
  | openUpload (id : Name) (o : UploadOpen) (now : ℕ) (created inserted removed : Bool)
  | append (id : Name) (now offset : ℕ) (opened : Bool)
  /-- A chunk of the body; a torn write leaves its first bytes. -/
  | write (i : ℕ) (chunk : List UInt8) (torn : Option ℕ)
  | finish (i now : ℕ) (broke cut touched : Bool)
  /-- The connection goes, and the handler with it. -/
  | drop (i : ℕ)
  | commit (id : Name) (now : ℕ) (claim : Name) (read : Bool)
  | turn (i : ℕ) (ok : Bool)
  | abort (id : Name) (removed deleted : Bool)
  /-- The ids whose file, or whose row, cannot be removed. -/
  | reap (now : ℕ) (stuck kept : List Name)
  deriving DecidableEq

namespace UploadStore

variable (s : UploadStore) (id claim : Name) (now : ℕ)

def isOpen : Bool := (s.sessions.lookup id).any (·.committed.isNone)

/-- `uploads_busy` holds the id. -/
def busy : Bool := s.jobs.any (·.id = id)

def openIds : List Name := s.sessions.keysWhere (·.committed.isNone)

def reservedUploadBytes : ℕ := Disk.sumI64 (Table.total Session.reserved s.sessions)

/-- `open_upload`. A draw that is refused its row takes its file back, if it can. -/
def openUpload (maxOpenUploads : ℕ) (o : UploadOpen) (created inserted removed : Bool) :
    UploadStore :=
  if s.openIds.length ≥ maxOpenUploads || !created then s
  else if inserted then
    { s with
      sessions := s.sessions.insert id { opened := o, idleExpires := now + uploadIdleSecs }
      parts := s.parts.insert id []
      issued := insert id s.issued }
  else if removed then s
  else { s with parts := s.parts.insert id [] }

/-- `upload_info`: nothing for a session that is not there, idle past its deadline, or
without its file. -/
def uploadInfo : Option UploadInfo :=
  match s.sessions.lookup id with
  | none => none
  | some row =>
      match row.committed with
      | some done => some ⟨row.length, row.length, some done⟩
      | none =>
          if row.idleExpires ≤ now then none
          else (s.parts.lookup id).map fun file => ⟨row.length, min file.length row.length, none⟩

/-- `append_handler`, up to the first chunk. -/
def appendHandler (offset : ℕ) (opened : Bool) : UploadStore :=
  if s.busy id then s
  else
    match s.uploadInfo id now with
    | some info =>
        if info.committed.isNone && offset = info.received && opened then
          { s with jobs := s.jobs ++ [.appending id info.length offset false] }
        else s
    | none => s

def setJob (i : ℕ) : Option UploadJob → UploadStore
  | some job => { s with jobs := s.jobs.set i job }
  | none => { s with jobs := s.jobs.eraseIdx i }

/-- The file becomes what `f` makes of it. -/
def edit (f : List UInt8 → List UInt8) : UploadStore :=
  match s.parts.lookup id with
  | some file => { s with parts := s.parts.insert id (f file) }
  | none => s

/-- One chunk: past the declared length it is refused. -/
def write (i : ℕ) (chunk : List UInt8) (torn : Option ℕ) : UploadStore :=
  match s.jobs[i]? with
  | some (.appending id length reached false) =>
      if reached + chunk.length > length then s.setJob i (some (.appending id length reached true))
      else
        match torn with
        | none =>
            (s.edit id (· ++ chunk)).setJob i
              (some (.appending id length (reached + chunk.length) false))
        | some n =>
            (s.edit id (· ++ chunk.take n)).setJob i (some (.appending id length reached true))
  | _ => s

def touchUpload : UploadStore :=
  match s.sessions.lookup id with
  | some row =>
      if row.committed.isNone then
        { s with sessions := s.sessions.insert id { row with idleExpires := now + uploadIdleSecs } }
      else s
  | none => s

/-- The end of an append: the file is cut to what was taken if anything went wrong, and the
deadline moved on. -/
def finishAppend (i : ℕ) (broke cut touched : Bool) : UploadStore :=
  match s.jobs[i]? with
  | some (.appending id _ reached failed) =>
      let s := s.setJob i none
      let s :=
        if (failed || broke) && cut then
          s.edit id fun file => file.take reached ++ List.replicate (reached - file.length) 0
        else s
      if touched then s.touchUpload id now else s
  | _ => s

def dropAppend (i : ℕ) : UploadStore :=
  match s.jobs[i]? with
  | some (.appending ..) => s.setJob i none
  | _ => s

/-- `commit_handler` and `commit_upload`, up to the rename. -/
def beginCommit (read : Bool) : UploadStore :=
  if s.busy id then s
  else
    match s.uploadInfo id now with
    | some info =>
        if info.committed.isNone && info.received = info.length && read then
          { s with jobs := s.jobs ++ [.publishing id claim now] }
        else s
    | none => s

/-- The complete file becomes a blob. -/
def rename : Option UploadStore :=
  (s.parts.lookup id).map fun file =>
    { s with parts := s.parts.erase id, blobs := s.blobs.insert claim file }

/-- And back. -/
def putBack : UploadStore :=
  match s.blobs.lookup claim with
  | some file => { s with parts := s.parts.insert id file, blobs := s.blobs.erase claim }
  | none => s

/-- `commit_deposit` for the session, with the lifetime granted. -/
def commitDeposit (maxTtl : ℕ) : Option (ℕ × UploadStore) :=
  match s.sessions.lookup id with
  | some row =>
      let mb : Mailbox := ⟨s.entries, s.blobs.keys.toFinset⟩
      match mb.commitDeposit claim now maxTtl row.opened.encappedKey row.ttl
          row.opened.maxDownloads row.opened.revokeHash with
      | (some granted, mb) =>
          some (granted, { s with entries := mb.entries, created := s.created ++ [(id, claim)] })
      | (none, _) => none
  | none => none

/-- The session remembers its claim. -/
def mark (granted : ℕ) : UploadStore :=
  match s.sessions.lookup id with
  | some row =>
      let row := { row with
        committed := some (claim, granted)
        idleExpires := now + uploadCommittedGraceSecs }
      { s with sessions := s.sessions.insert id row }
  | none => s

/-- The next step of a commit. -/
def turn (maxTtl : ℕ) (ok : Bool) : UploadJob → UploadStore × Option UploadJob
  | .publishing id claim now =>
      match if ok then s.rename id claim else none with
      | some s => (s, some (.recording id claim now))
      | none => (s, none)
  | .recording id claim now =>
      match if ok then s.commitDeposit id claim now maxTtl else none with
      | some (granted, s) => (s, some (.marking id claim granted now))
      | none => (s, some (.restoring id claim))
  | .restoring id claim => (if ok then s.putBack id claim else s, none)
  | .marking id claim granted now => (if ok then s.mark id claim now granted else s, none)
  | job => (s, some job)

def turnJob (maxTtl i : ℕ) (ok : Bool) : UploadStore :=
  match s.jobs[i]? with
  | some job => (s.turn maxTtl ok job).1.setJob i (s.turn maxTtl ok job).2
  | none => s

/-- The row goes, and the partial file with it unless the session was committed. Neither
removal waits for the other to succeed. -/
def forget (removed deleted : Bool) : UploadStore :=
  { s with
    sessions := if deleted then s.sessions.erase id else s.sessions
    parts := if s.isOpen id && removed then s.parts.erase id else s.parts }

def abortUpload (removed deleted : Bool) : UploadStore :=
  if s.busy id then s else s.forget id removed deleted

/-- The sessions past their deadline. -/
def due : List Name := s.sessions.keysWhere (·.idleExpires ≤ now)

/-- `upload_reap`; one that is being appended to is left for the next pass. -/
def uploadReap (stuck kept : List Name) : UploadStore :=
  (s.due now).foldl (fun s id =>
    if s.busy id then s else s.forget id (id ∉ stuck) (id ∉ kept)) s

def act (maxOpenUploads maxTtl : ℕ) : UploadEvent → UploadStore
  | .openUpload id o now created inserted removed =>
      if id ∈ s.issued || (s.parts.lookup id).isSome then s
      else s.openUpload id now maxOpenUploads o created inserted removed
  | .append id now offset opened => s.appendHandler id now offset opened
  | .write i chunk torn => s.write i chunk torn
  | .finish i now broke cut touched => s.finishAppend now i broke cut touched
  | .drop i => s.dropAppend i
  | .commit id now claim read =>
      if (s.blobs.lookup claim).isSome || (s.entries.lookup claim).isSome ||
          s.jobs.any (·.claim = some claim) then s
      else s.beginCommit id claim now read
  | .turn i ok => s.turnJob maxTtl i ok
  | .abort id removed deleted => s.abortUpload id removed deleted
  | .reap now stuck kept => s.uploadReap now stuck kept

/-- The step of the store, with the record of what it released. -/
def step (maxOpenUploads maxTtl : ℕ) (e : UploadEvent) : UploadStore :=
  let s' := s.act maxOpenUploads maxTtl e
  { s' with released := s'.released ++ s.openIds.filter (!s'.isOpen ·) }

end UploadStore

end Arvolo.Relay
