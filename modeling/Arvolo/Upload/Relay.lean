import Arvolo.Upload.Layout

/-!
The relay's side of one upload session, `relay/src/http/upload.rs` and
`relay/src/mailbox/upload.rs`.

A request handler is an asynchronous function. It is cut here at its awaits: one
definition for each stretch that runs without a pause. The file behind `.part`
is an inode: a commit renames it, and a write that was handed over before lands
in it wherever it is by then.
-/

namespace Arvolo.Upload

open Crypto

/-- The answers of the relay, by status code. -/
inductive Status
  | ok
  | noContent
  | badRequest
  | forbidden
  | notFound
  | conflict
  | payloadTooLarge
  | tooManyRequests
  | serverError
  | insufficientStorage
  deriving DecidableEq

def Status.isSuccess : Status → Bool
  | .ok | .noContent => true
  | _ => false

/-- An answer to request `req`, with the offset header and, for a commit, the
claim and the lifetime granted. -/
structure Answer where
  req : ℕ
  status : Status
  offset : Option ℕ := none
  committed : Option (String × ℕ) := none
  deriving DecidableEq

/-- A row of the `uploads` table. -/
structure Row where
  length : ℕ
  idleExpires : ℕ
  committed : Option (String × ℕ) := none
  deriving DecidableEq

/-- Where the session's file is linked. -/
inductive Place
  | part
  /-- Published under a claim, with the size recorded for it. -/
  | blob (claim : String) (size : ℕ)
  | gone
  deriving DecidableEq

/-- An append handler that has been let in. -/
structure Append where
  req : ℕ
  opened : Bool := false
  /-- The source's `end`: the offset reached by the chunks taken so far. -/
  reached : ℕ
  /-- What `write_all` has yet to hand over of the chunk it is writing. -/
  chunk : Bytes := []
  /-- Handed over to the file and not in it yet: `tokio::fs::File` writes on a
  thread of its own, and `write_all` does not wait for it. -/
  inFlight : Bytes := []
  /-- The part of the body that has not arrived. -/
  body : Bytes
  failed : Bool := false
  deriving DecidableEq

structure Relay where
  row : Option Row
  file : Bytes := []
  place : Place := .part
  /-- Whether the session is in the mailbox's `uploads_busy` set. -/
  busy : Bool := false
  appends : List Append := []
  /-- Writes still under way whose handler is gone. -/
  orphans : List Bytes := []
  deriving DecidableEq

def uploadIdleSecs : ℕ := 24 * 3600

def uploadCommittedGraceSecs : ℕ := 3600

structure UploadInfo where
  length : ℕ
  received : ℕ
  committed : Option (String × ℕ)
  deriving DecidableEq

namespace Relay

variable (r : Relay)

/-- Where the upload stands; nothing for a session that is not there, idle past
its deadline, or without its file. -/
def uploadInfo (now : ℕ) : Option UploadInfo :=
  match r.row with
  | none => none
  | some row =>
      match row.committed with
      | some done => some { length := row.length, received := row.length, committed := some done }
      | none =>
          if row.idleExpires ≤ now then none
          else if r.place = .part then
            some { length := row.length, received := min r.file.length row.length,
                   committed := none }
          else none

def touchUpload (now : ℕ) : Relay :=
  { r with row := r.row.map fun row =>
      if row.committed.isNone then { row with idleExpires := now + uploadIdleSecs } else row }

def statusHandler (req now : ℕ) : Answer :=
  match r.uploadInfo now with
  | none => { req, status := .notFound }
  | some info => { req, status := .noContent, offset := some info.received }

/-- `PATCH`, up to opening the file: an answer turns the request away, no
answer lets it in. -/
def appendHandler (req now offset : ℕ) (body : Bytes) : Relay × Option Answer :=
  if r.busy then (r, some { req, status := .conflict })
  else
    match r.uploadInfo now with
    | none => (r, some { req, status := .notFound })
    | some info =>
        if info.committed.isSome then
          (r, some { req, status := .conflict, offset := some info.length })
        else if offset ≠ info.received then
          (r, some { req, status := .conflict, offset := some info.received })
        else
          ({ r with busy := true, appends := r.appends ++ [{ req, reached := offset, body }] },
            none)

/-- The running append `k`, rewritten. -/
def setAppend (k : ℕ) (a : Append) : Relay := { r with appends := r.appends.set k a }

/-- An append handler is over, and its guard with it. -/
def endAppend (k : ℕ) : Relay := { r with busy := false, appends := r.appends.eraseIdx k }

/-- Opening the file. -/
def openPart (k : ℕ) : Relay × Option Answer :=
  match r.appends[k]? with
  | some a =>
      if a.opened then (r, none)
      else if r.place = .part then (r.setAppend k { a with opened := true }, none)
      else (r.endAppend k, some { req := a.req, status := .notFound })
  | none => (r, none)

/-- The next `n` bytes of the body arrive as one chunk. -/
def takeChunk (k n : ℕ) : Relay :=
  match r.appends[k]?, r.row with
  | some a, some row =>
      if a.opened && !a.failed && a.chunk.isEmpty && 0 < n && n ≤ a.body.length then
        if a.reached + n > row.length then r.setAppend k { a with failed := true }
        else r.setAppend k { a with
          chunk := a.body.take n, body := a.body.drop n, reached := a.reached + n }
      else r
  | _, _ => r

/-- `write_all` hands `n` bytes over, once the file has taken the last ones. -/
def handOver (k n : ℕ) : Relay :=
  match r.appends[k]? with
  | some a =>
      if a.inFlight.isEmpty then
        r.setAppend k { a with inFlight := a.chunk.take n, chunk := a.chunk.drop n }
      else r
  | none => r

/-- The bytes handed over reach the end of the file. -/
def land (k : ℕ) : Relay :=
  match r.appends[k]? with
  | some a => { r.setAppend k { a with inFlight := [] } with file := r.file ++ a.inFlight }
  | none => r

/-- `File::set_len`. -/
def setLen (file : Bytes) (n : ℕ) : Bytes := file.take n ++ List.replicate (n - file.length) 0

/-- The body has ended, or broke off; the file is flushed, cut to what was taken
if anything went wrong, and the request answered. -/
def finishAppend (k now : ℕ) (broke : Bool) : Relay × Option Answer :=
  match r.appends[k]? with
  | some a =>
      if a.opened && a.chunk.isEmpty && a.inFlight.isEmpty &&
          (broke || a.failed || a.body.isEmpty) then
        let bad := broke || a.failed
        let file := if bad && r.place = .part then setLen r.file a.reached else r.file
        (({ r with file }.endAppend k).touchUpload now,
          some { req := a.req, offset := some a.reached,
                 status := if bad then .badRequest else .noContent })
      else (r, none)
  | none => (r, none)

/-- The connection goes away and the handler is dropped where it waits. The
guard goes with it; a write that was handed over does not. -/
def dropAppend (k : ℕ) : Relay :=
  match r.appends[k]? with
  | some a =>
      { r.endAppend k with
        orphans := if a.inFlight.isEmpty then r.orphans else r.orphans ++ [a.inFlight] }
  | none => r

def landOrphan (k : ℕ) : Relay :=
  match r.orphans[k]? with
  | some w => { r with file := r.file ++ w, orphans := r.orphans.eraseIdx k }
  | none => r

/-- `POST …/commit`. The claim is freshly drawn; `granted` is what recording the
deposit answers, nothing when that fails and the file is put back. -/
def commitHandler (req now : ℕ) (claim : String) (granted : Option ℕ) : Relay × Answer :=
  if r.busy then (r, { req, status := .conflict })
  else
    match r.uploadInfo now, r.row with
    | some info, some row =>
        match info.committed with
        | some done => (r, { req, status := .ok, committed := some done })
        | none =>
            if info.received ≠ info.length then
              (r, { req, status := .conflict, offset := some info.received })
            else
              match granted with
              | none => (r, { req, status := .serverError })
              | some ttl =>
                  ({ r with
                      place := .blob claim info.length
                      row := some { row with
                        committed := some (claim, ttl)
                        idleExpires := now + uploadCommittedGraceSecs } },
                    { req, status := .ok, committed := some (claim, ttl) })
    | _, _ => (r, { req, status := .notFound })

/-- Drop the row, and the partial file unless it was committed. -/
def forget : Relay :=
  match r.row with
  | some row =>
      { r with row := none, place := if row.committed.isNone then .gone else r.place }
  | none => r

def abortHandler : Relay := if r.busy then r else r.forget

/-- The reaper, as far as this session is concerned. -/
def uploadReap (now : ℕ) : Relay :=
  match r.row with
  | some row => if row.idleExpires ≤ now && !r.busy then r.forget else r
  | none => r

end Relay

end Arvolo.Upload
