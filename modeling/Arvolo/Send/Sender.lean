import Arvolo.Lib.Table
import Arvolo.Send.Source

/-!
The sender as far as its content keys go: `flow/send.rs`, `chunked.rs`, and
`manager/uploads.rs`, `work.rs` and `mod.rs` for what is kept and brought back.

The machine is its files, which anybody may change between two reads, the
content keys it holds in memory, the records that bring keys back after a
restart, and everything it has sent. A record is found under the id of its
transfer; which payload is restored with it is left to the event, as the ids are
given anew at every start.

Chunks are read and sealed when they are asked for. A served share and a
prepared held send check nothing then; an upload checks the length of what it
read; a record is checked against the payload's stamp (`rebuild_prep`,
`take_upload_record`) or its digests (`resume_send`) when it is picked up.
-/

namespace Arvolo.Send

open Crypto Upload Lib

/-- The upload state of a transfer and the source its attempts read from. -/
structure Resumable where
  source : SendSource
  sealing : Sealing
  /-- Whether the transfer comes back after a restart: a link or a held send. -/
  restorable : Bool
  /-- Whether an attempt is under way. -/
  sending : Bool
  deriving DecidableEq

/-- A content key in memory. -/
inductive Live
  | pass (p : Pass)
  | prep (p : Prep)
  | upload (u : Resumable)
  deriving DecidableEq

/-- A content key on disk. -/
inductive Record
  /-- `PrepRecord`: the preparation of a held send. -/
  | prep (p : Prepared) (stamp : PayloadStamp)
  /-- `UploadRecord`. -/
  | upload (sealing : Sealing) (payload : String) (stamp : PayloadStamp)
  /-- `SendRecord`: the key and the digests are those of its ticket. -/
  | send (path : String) (key : Bytes) (chunks : List Bytes)
  deriving DecidableEq

def Live.source : Live → SendSource
  | .pass p => p.source
  | .prep p => p.source
  | .upload u => u.source

def Live.key : Live → Bytes
  | .pass p => p.key
  | .prep p => p.key
  | .upload u => u.sealing.key

def Record.key : Record → Bytes
  | .prep p _ => p.key
  | .upload sealing _ _ => sealing.key
  | .send _ key _ => key

def Record.stamp : Record → Option PayloadStamp
  | .prep _ stamp => some stamp
  | .upload _ _ stamp => some stamp
  | .send .. => none

/-- The kinds of state a transfer id may have. -/
inductive Kind
  | prep
  | upload
  | send
  deriving DecidableEq

structure Sender where
  fs : Files
  /-- How many content keys were drawn. -/
  drawn : ℕ := 0
  memory : Table (Kind × ℕ) Live := ∅
  disk : Table (Kind × ℕ) Record := ∅
  /-- Everything sent so far, last first. -/
  emitted : List Emission := []

namespace Sender

variable (prims : Prims)

def hold (s : Sender) (k : Kind × ℕ) (v : Live) : Sender := { s with memory := s.memory.insert k v }

def release (s : Sender) (k : Kind × ℕ) : Sender := { s with memory := s.memory.erase k }

def persist (s : Sender) (k : Kind × ℕ) (r : Record) : Sender :=
  { s with disk := s.disk.insert k r }

def remove (s : Sender) (k : Kind × ℕ) : Sender := { s with disk := s.disk.erase k }

def emit (s : Sender) (e : Emission) : Sender := { s with emitted := e :: s.emitted }

/-- `random_chunk_key`. -/
def draw (s : Sender) : Bytes × Sender :=
  (prims.randomChunkKey s.drawn, { s with drawn := s.drawn + 1 })

/-- Drop all state of a transfer: it ended. -/
def finish (s : Sender) (id : ℕ) : Sender :=
  [Kind.prep, .upload, .send].foldl (fun s k => (s.release (k, id)).remove (k, id)) s

/-! ### Live sends -/

/-- Open the source and start hashing it under `key`. -/
def startPass (s : Sender) (id : ℕ) (source : SendSource) (key : Bytes) (held : Bool)
    (expected : Option (List Bytes)) : Sender :=
  match s.fs.ino source with
  | none => s.finish id
  | some file =>
      let before := if held then s.fs.payloadStamp source.label else none
      s.hold (.prep, id) (.pass
        { key, totalSize := (s.fs.file file).bytes.length, chunks := [], source, held, before, file,
          expected })

/-- `prepare_send_reusing` where nothing is prepared yet: a fresh key. -/
def prepareSend (s : Sender) (id : ℕ) (source : SendSource) (held : Bool) : Sender :=
  match s.memory.lookup (.prep, id) with
  | none =>
      let (key, s) := s.draw prims
      s.startPass id source key held none
  | some _ => s

/-- The next chunk of a hashing pass, or its end. Digests are kept by position;
the index they are sealed at is a `u32`. -/
def hashNext (s : Sender) (id : ℕ) : Sender :=
  match s.memory.lookup (.prep, id) with
  | some (.pass p) =>
      let buf := chunkAt (s.fs.file p.file).bytes p.chunks.length
      if buf = [] then
        -- `resume_send` refuses a file that is not the ticket's
        if p.expected.all (· = p.chunks) then s.hold (.prep, id) (.prep p.toPrep)
        else s.finish id
      else
        match sealChunk prims.aead p.key (p.chunks.length % 2 ^ 32) (totalChunks p.totalSize) buf with
        | none => s.finish id
        | some ct =>
            s.hold (.prep, id) (.pass { p with chunks := p.chunks ++ [prims.blake3 ct] })
  | _ => s

/-- A receiver, or a relay being seeded, asks for a chunk. -/
def request (s : Sender) (id : ℕ) (hash : Bytes) : Sender :=
  match s.memory.lookup (.prep, id) with
  | some (.prep p) =>
      match (s.fs.bytes p.source).bind fun bytes => p.produce prims bytes hash with
      | some e => s.emit e
      | none => s
  | _ => s

/-- `begin_serving`: write a share down. -/
def beginServing (s : Sender) (id : ℕ) : Sender :=
  match s.memory.lookup (.prep, id) with
  | some (.prep p) =>
      if p.held then s else s.persist (.send, id) (.send p.source.label p.key p.chunks)
  | _ => s

/-- `persist_prep_record`: write the preparation of a held send down, if the
payload looks the same as before the pass. -/
def persistPrepRecord (s : Sender) (id : ℕ) : Sender :=
  match s.memory.lookup (.prep, id) with
  | some (.prep p) =>
      match p.before, s.fs.payloadStamp p.source.label with
      | some before, some after =>
          if before = after then s.persist (.prep, id) (.prep p.toPrepared after) else s
      | _, _ => s
  | _ => s

/-- `rebuild_prep`: the preparation of a record, if the payload looks as it did. -/
def rebuildPrep (fs : Files) (payload : String) (p : Prepared) (stamp : PayloadStamp) :
    Option Prep :=
  if fs.payloadStamp payload = some stamp ∧ stamp.len = p.totalSize ∧
      totalChunks p.totalSize = p.chunks.length then
    some { p with source := .path payload, held := true, before := none }
  else none

/-- `resume_serve`: a share comes back under a fresh id, and is hashed again. -/
def resumeServe (s : Sender) (old new : ℕ) : Sender :=
  match s.disk.lookup (.send, old) with
  | some (.send path key chunks) =>
      ((s.remove (.send, old)).persist (.send, new) (.send path key chunks)).startPass new
        (.path path) key false (some chunks)
  | _ => s

/-! ### Uploads -/

/-- `persist_upload`. -/
def persistUpload (s : Sender) (id : ℕ) (u : Resumable) : Sender :=
  match u.source, u.restorable with
  | .path p, true =>
      match s.fs.payloadStamp p with
      | some stamp => s.persist (.upload, id) (.upload u.sealing p stamp)
      | none => s
  | _, _ => s

def remember (s : Sender) (id : ℕ) (u : Resumable) : Sender :=
  (s.persistUpload id u).hold (.upload, id) (.upload u)

def forget (s : Sender) (id : ℕ) : Sender := (s.release (.upload, id)).remove (.upload, id)

/-- `LinkSeal::new`, kept as the upload state of transfer `id`. -/
def createLink (s : Sender) (id : ℕ) (source : SendSource) : Sender :=
  match s.fs.len source with
  | none => s
  | some size =>
      let (key, s) := s.draw prims
      let name := (fileName source.label).getD "download.bin"
      s.remember id ⟨source, .link key name size, true, false⟩

/-- `MailboxSeal::new`, kept as the upload state of transfer `id`. -/
def newMailboxSeal (s : Sender) (id : ℕ) (source : SendSource) (size : ℕ) (restorable : Bool) :
    Sender :=
  let (key, s) := s.draw prims
  s.remember id ⟨source, .mailbox key size, restorable, false⟩

/-- `mailbox_seal`: the seal the transfer has, if the payload has the size it was
sealed at, or a fresh one. -/
def mailboxSeal (s : Sender) (id : ℕ) (source : SendSource) (restorable : Bool) : Sender :=
  match s.fs.len source with
  | none => s
  | some size =>
      match s.memory.lookup (.upload, id) with
      | some (.upload ⟨src, .mailbox _ sealed, _, _⟩) =>
          if src ≠ source ∨ sealed = size then s
          else (s.forget id).newMailboxSeal prims id source size restorable
      | _ => s.newMailboxSeal prims id source size restorable

/-- An attempt starts: `deposit_link_with` and `deposit_offline_with` look at the
size once. -/
def attempt (s : Sender) (id : ℕ) : Sender :=
  match s.memory.lookup (.upload, id) with
  | some (.upload u) =>
      if s.fs.len u.source = some u.sealing.size then
        s.hold (.upload, id) (.upload { u with sending := true })
      else s.forget id
  | _ => s

/-- The attempt ends before the upload does: the network, a pause. -/
def interrupt (s : Sender) (id : ℕ) : Sender :=
  match s.memory.lookup (.upload, id) with
  | some (.upload u) => s.hold (.upload, id) (.upload { u with sending := false })
  | _ => s

/-- `session_changed`: the upload state is written down again, with the stamp the
payload has now. -/
def sessionChanged (s : Sender) (id : ℕ) : Sender :=
  match s.memory.lookup (.upload, id) with
  | some (.upload u) => s.persistUpload id u
  | _ => s

/-- The body of an upload request reaches chunk `i`. -/
def sendUnit (s : Sender) (id i : ℕ) : Sender :=
  match s.memory.lookup (.upload, id) with
  | some (.upload u) =>
      match (s.fs.bytes u.source).bind fun bytes => u.sealing.emitUnit prims bytes i with
      | some e => if u.sending then s.emit e else s
      | none => s
  | _ => s

/-- The body of an upload request starts with the container's header. -/
def sendHeader (s : Sender) (id : ℕ) : Sender :=
  match s.memory.lookup (.upload, id) with
  | some (.upload u) =>
      match u.sealing.header prims with
      | some e => if u.sending then s.emit e else s
      | none => s
  | _ => s

/-- `take_upload_record`: the seal left on disk, if the payload looks as it did. -/
def takeUploadRecord (s : Sender) (old : ℕ) (payload : String) : Option Sealing × Sender :=
  match s.disk.lookup (.upload, old) with
  | some (.upload sealing path stamp) =>
      (if path = payload ∧ s.fs.payloadStamp payload = some stamp then some sealing else none,
        s.remove (.upload, old))
  | _ => (none, s.remove (.upload, old))

/-- `restore_link`. -/
def restoreLink (s : Sender) (old new : ℕ) (payload : String) : Sender :=
  match s.takeUploadRecord old payload with
  | (some (.link key name size), s) =>
      s.remember new ⟨.path payload, .link key name size, true, false⟩
  | (_, s) => s.createLink prims new (.path payload)

/-! ### Restarts -/

/-- The upload part of `restore_sendto`. -/
def restoreUpload (s : Sender) (old new : ℕ) (payload : String) : Sender :=
  match s.takeUploadRecord old payload with
  | (some sealing, s) => s.remember new ⟨.path payload, sealing, true, false⟩
  | (none, s) => s

/-- `restore_sendto`, with the preparation `resume_incomplete` hands it. -/
def restoreSendto (s : Sender) (old new : ℕ) (payload : String) : Sender :=
  match s.disk.lookup (.prep, old) with
  | some (.prep p stamp) =>
      let s := (s.remove (.prep, old)).restoreUpload old new payload
      match rebuildPrep s.fs payload p stamp with
      | some prep => (s.hold (.prep, new) (.prep prep)).persist (.prep, new) (.prep p stamp)
      | none => s
  | _ => s.restoreUpload old new payload

end Sender

inductive Event
  /-- Somebody writes to a file. -/
  | rewrite (f : FileId) (content : File)
  /-- Somebody moves, replaces or removes what a path names. -/
  | relink (p : String) (f : Option FileId)
  | prepareSend (id : ℕ) (source : SendSource) (held : Bool)
  | hashNext (id : ℕ)
  | request (id : ℕ) (hash : Bytes)
  | beginServing (id : ℕ)
  | persistPrepRecord (id : ℕ)
  | createLink (id : ℕ) (source : SendSource)
  | mailboxSeal (id : ℕ) (source : SendSource) (restorable : Bool)
  | attempt (id : ℕ)
  | interrupt (id : ℕ)
  | sessionChanged (id : ℕ)
  | sendUnit (id i : ℕ)
  | sendHeader (id : ℕ)
  | forget (id : ℕ)
  /-- A transfer ends, or is cancelled. -/
  | finish (id : ℕ)
  /-- A record is swept. -/
  | sweep (k : Kind) (id : ℕ)
  /-- The process ends, in any way. -/
  | die
  | restoreSendto (old new : ℕ) (payload : String)
  | restoreLink (old new : ℕ) (payload : String)
  | resumeServe (old new : ℕ)
  deriving DecidableEq

namespace Sender

variable (prims : Prims)

def step (s : Sender) : Event → Sender
  | .rewrite f content => { s with fs := s.fs.rewrite f content }
  | .relink p f => { s with fs := s.fs.relink p f }
  | .prepareSend id source held => s.prepareSend prims id source held
  | .hashNext id => s.hashNext prims id
  | .request id hash => s.request prims id hash
  | .beginServing id => s.beginServing id
  | .persistPrepRecord id => s.persistPrepRecord id
  | .createLink id source => s.createLink prims id source
  | .mailboxSeal id source restorable => s.mailboxSeal prims id source restorable
  | .attempt id => s.attempt id
  | .interrupt id => s.interrupt id
  | .sessionChanged id => s.sessionChanged id
  | .sendUnit id i => s.sendUnit prims id i
  | .sendHeader id => s.sendHeader prims id
  | .forget id => s.forget id
  | .finish id => s.finish id
  | .sweep k id => s.remove (k, id)
  | .die => { s with memory := ∅ }
  | .restoreSendto old new payload => s.restoreSendto old new payload
  | .restoreLink old new payload => s.restoreLink prims old new payload
  | .resumeServe old new => s.resumeServe old new

abbrev run (fs : Files) (es : List Event) : Sender := es.foldl (step prims) { fs }

/-! ### What the operations leave alone -/

theorem fs_persistUpload (s : Sender) (id : ℕ) (u : Resumable) :
    (s.persistUpload id u).fs = s.fs := by
  unfold persistUpload
  split
  · split <;> rfl
  · rfl

@[simp] theorem drawn_persistUpload (s : Sender) (id : ℕ) (u : Resumable) :
    (s.persistUpload id u).drawn = s.drawn := by
  unfold persistUpload
  split
  · split <;> rfl
  · rfl

@[simp] theorem drawn_remember (s : Sender) (id : ℕ) (u : Resumable) :
    (s.remember id u).drawn = s.drawn :=
  s.drawn_persistUpload id u

@[simp] theorem drawn_startPass (s : Sender) (id : ℕ) (source : SendSource) (key : Bytes)
    (held : Bool) (expected : Option (List Bytes)) :
    (s.startPass id source key held expected).drawn = s.drawn := by
  unfold startPass
  split <;> rfl

@[simp] theorem drawn_takeUploadRecord (s : Sender) (old : ℕ) (payload : String) :
    (s.takeUploadRecord old payload).2.drawn = s.drawn := by
  unfold takeUploadRecord
  split <;> rfl

theorem fs_restoreUpload (s : Sender) (old new : ℕ) (payload : String) :
    (s.restoreUpload old new payload).fs = s.fs := by
  have htake : (s.takeUploadRecord old payload).2.fs = s.fs := by
    unfold takeUploadRecord
    split <;> rfl
  unfold restoreUpload
  generalize s.takeUploadRecord old payload = taken at htake
  obtain ⟨resumed, s'⟩ := taken
  cases resumed with
  | none => exact htake
  | some sealing => exact (s'.fs_persistUpload new _).trans htake

@[simp] theorem drawn_restoreUpload (s : Sender) (old new : ℕ) (payload : String) :
    (s.restoreUpload old new payload).drawn = s.drawn := by
  have htake := s.drawn_takeUploadRecord old payload
  unfold restoreUpload
  generalize s.takeUploadRecord old payload = taken at htake
  obtain ⟨resumed, s'⟩ := taken
  cases resumed with
  | none => exact htake
  | some sealing => exact (s'.drawn_remember new _).trans htake

theorem drawn_le_createLink (s : Sender) (id : ℕ) (source : SendSource) :
    s.drawn ≤ (s.createLink prims id source).drawn := by
  unfold createLink
  split
  · exact le_rfl
  · simp [draw]

end Sender

end Arvolo.Send
