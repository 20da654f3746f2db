import Arvolo.Manager.Records
import Arvolo.Sync.Bridge

/-!
`resume_incomplete` of `core/src/manager/mod.rs`: what a start of the daemon makes of the
records of the last run.

Seven loops, kind after kind. Each takes a record away from its old id, registers a row under
the next fresh one and writes the record down again. The ids of a run begin at 1, so a fresh
id may well be the old id of a record whose turn has not come. The tasks a restore spawns run
later, and nothing here depends on them.
-/

namespace Arvolo.Manager.Restart

open Lib

/-- How a chunk ticket carries the content key. -/
inductive KeyDelivery
  | plain (key : Bytes)
  | sealed

/-- What a restore finds outside the state directory. -/
structure Env where
  now : ℕ
  /-- Our own relay. -/
  relay : Option String
  /-- `PublicId::from_bytes`, and the bytes `to_bytes` writes for it. -/
  publicId : Bytes → Option Bytes
  /-- `ChunkTicket::decode`. -/
  chunkTicket : String → Option KeyDelivery
  payloadStamp : String → Option PayloadStamp
  /-- `LinkSeal::new`, which refuses what is not a file. -/
  linkSeal : String → Option LinkSeal

/-- A transfer as a restore has it in memory: what its record says, and what lay beside it. -/
structure Transfer where
  record : (k : Kind) × Content k
  prep : Option PrepRecord := none
  userPaused : Bool := false
  stats : ShareRecord := {}
  upload : Option Resumable := none
  code : Option CodeRecord := none

structure World where
  disk : Disk
  next : ℕ := 1
  restored : List (Transfer × ℕ) := []
  /-- The codes taken off the disk, by the id they were written under. -/
  codes : Table ℕ CodeRecord := ∅
  did : List Op := []
  /-- The write that fails, by its place among the changes of the disk. -/
  fails : Option (ℕ × Miss) := none

/-- A fresh manager on this state directory. -/
def start (d : Disk) : World := { disk := d }

namespace World

variable (w : World)

def act (op : Op) : World :=
  { w with
    disk := match w.fails with
      | some (n, miss) => if n = w.did.length then w.disk.miss miss op else w.disk.run op
      | none => w.disk.run op
    did := w.did ++ [op] }

def put (k : Kind) (id : ℕ) (c : Content k) : World := w.act (.put k id c)

def unlink (k : Kind) (id : ℕ) : World := w.act (.unlink k id)

/-- `register`: the row gets the id that `next` was. -/
def register : World := { w with next := w.next + 1 }

def bring (id : ℕ) (t : Transfer) : World := { w with restored := w.restored ++ [(t, id)] }

/-- `remove_download`: the pause marker goes with the record. -/
def removeDownload (id : ℕ) : World := (w.unlink .download id).unlink .paused id

/-- `remove_send`: deletes what the record filed under this id says it owns. -/
def removeSend (id : ℕ) : World :=
  let w' :=
    match ((w.disk.files .send).lookup id).bind SendRecord.ownedStage with
    | some path => w.act (.unlinkStage path)
    | none => w
  w'.unlink .send id

/-- `finish`, as far as the disk goes. -/
def finish (id : ℕ) : World :=
  ((((((w.removeDownload id).removeSend id).unlink .share id).unlink .pendingShare id).unlink
    .sendto id).unlink .prep id).unlink .upload id

/-! ### Reading the records -/

/-- The rewriting of records under an old prefix: one that is known already is only unlinked. -/
def migrate (old new : Kind) (convert : Content old → Content new) :
    List (Σ _ : ℕ, Content new) × World :=
  (w.disk.rows old).foldl (fun s r =>
    let s' :=
      if s.1.any (·.1 = r.1) then s
      else (s.1 ++ [⟨r.1, convert r.2⟩], s.2.put new r.1 (convert r.2))
    (s'.1, s'.2.unlink old r.1)) (w.disk.rows new, w)

def loadSendtos : List (Σ _ : ℕ, SendToRecord) × World :=
  w.migrate .legacySendto .sendto LegacySendTo.toRecord

def loadDepositeds : List (Σ _ : ℕ, DepositedRecord) × World :=
  w.migrate .legacyDeposited .deposited LegacyDeposited.toRecord

/-- The codes come off the disk and into a map, by the id they were written under. -/
def takeCodes : World :=
  let w' := (w.disk.rows .code).foldl (fun w r => w.unlink .code r.1) w
  { w' with codes := w.disk.files .code }

/-! ### The restores -/

variable (env : Env)

def restoreDeposited (r : Σ _ : ℕ, DepositedRecord) : World :=
  let w := w.unlink .deposited r.1
  if r.2.expires ≤ env.now then w.unlink .deposited r.1
  else
    let rec' := { r.2 with recipient := (env.publicId r.2.recipient).getD [] }
    (w.register.put .deposited w.next rec').bring w.next { record := ⟨.deposited, rec'⟩ }

/-- A preparation whose held send is not coming back. -/
def sweepPreps (sendtos : List (Σ _ : ℕ, SendToRecord)) : World :=
  (w.disk.rows .prep).foldl
    (fun w r => if r.1 ∈ sendtos.map (·.1) then w else w.unlink .prep r.1) w

end World

def chunkSize : ℕ := 16 * 1024 * 1024

/-- `rebuild_prep`: the payload is what it was, and the digests describe it. -/
def rebuildPrep (env : Env) (payload : String) (rec : PrepRecord) : Bool :=
  env.payloadStamp payload = some rec.stamp ∧ rec.stamp.len = rec.totalSize ∧
    rec.key.length = 32 ∧ rec.nodeSeed.length = 32 ∧
    (rec.totalSize ⌈/⌉ chunkSize) % 2 ^ 32 = rec.chunks.length

/-- What `take_upload_record` gives for the record it finds. -/
def UploadRecord.resumes (env : Env) (payload : String) (rec : UploadRecord) : Option Resumable :=
  if rec.payload ≠ payload ∨ env.payloadStamp payload ≠ some rec.stamp then none
  else some rec.toResumable

/-- The reason of a pause is written down again, that of anything else is not. -/
def SendToRecord.settled (rec : SendToRecord) : SendToRecord :=
  { rec with reason := if rec.paused then rec.reason else "" }

def ShareRecord.settled (now : ℕ) (s : ShareRecord) : ShareRecord :=
  { s with started := if 0 < s.started then s.started else now }

def ChunkTicket.looksLike (s : String) : Bool :=
  "arvc".toList.isPrefixOf (s.toList.dropWhile Sync.isWhitespace)

/-- What `resume_serve` asks of a record: a content key in the clear, and a transport seed. -/
def SendRecord.serves (env : Env) (rec : SendRecord) : Bool :=
  match env.chunkTicket rec.ticket with
  | some (.plain key) => key.length = 32 ∧ rec.nodeSeed.length = 32
  | _ => false

namespace World

variable (w : World) (env : Env)

def takeUpload (old : ℕ) (payload : String) : Option Resumable × World :=
  (((w.disk.files .upload).lookup old).bind (UploadRecord.resumes env payload),
    w.unlink .upload old)

/-- `persist_upload`: `live` is whether the transfer comes back after a restart. -/
def remember (id : ℕ) (r : Resumable) (payload : String) (live : Bool) : World :=
  match live, env.payloadStamp payload with
  | true, some stamp => w.put .upload id { r with payload, stamp }
  | _, _ => w

/-- The upload state that was taken, under the id the transfer now has. -/
def refile (id : ℕ) (payload : String) : Option Resumable → World
  | some u => w.remember env id u payload true
  | none => w

def rekeyPrep (id : ℕ) : Option PrepRecord → World
  | some p => w.put .prep id p
  | none => w

def restoreSendto (r : Σ _ : ℕ, SendToRecord) : World :=
  let prep := (w.disk.files .prep).lookup r.1
  let w := (w.unlink .prep r.1).unlink .sendto r.1
  match env.publicId r.2.recipient, r.2.relay.or env.relay with
  | some recipient, some _ =>
      let id := w.next
      let slot := prep.filter (rebuildPrep env r.2.payload)
      let (upload, w) := w.register.takeUpload env r.1 r.2.payload
      let w := (w.refile env id r.2.payload upload).rekeyPrep id slot
      let rec' := { r.2.settled with recipient }
      (w.put .sendto id rec').bring id { record := ⟨.sendto, rec'⟩, prep := slot, upload }
  | _, _ => w

def restoreLink (r : Σ _ : ℕ, LinkRecord) : World :=
  let (resumed, w) := (w.unlink .link r.1).takeUpload env r.1 r.2.payload
  let id := w.next
  match (resumed.bind (·.sealing.link?)).or (env.linkSeal r.2.payload) with
  | some s =>
      let w := w.register.put .link id r.2
      let u := { sealing := .link s, session := resumed.bind (·.session) }
      (w.remember env id u r.2.payload ((w.disk.files .link).lookup id).isSome).bring id
        { record := ⟨.link, r.2⟩, upload := resumed }
  | none => w.register.finish id

/-- A share that was still being prepared, with the code it had printed. -/
def restorePending (r : Σ _ : ℕ, PendingShareRecord) : World :=
  let w := w.unlink .pendingShare r.1
  let rec' := { r.2 with code := r.2.code.filter (·.ownerToken.length = 32) }
  (w.register.put .pendingShare w.next rec').bring w.next { record := ⟨.pendingShare, rec'⟩ }

def sweepUploads : World :=
  (w.disk.rows .upload).foldl (fun w r => w.unlink .upload r.1) w

def restorePausedDownload (rec : DownloadRecord) : World :=
  ((w.register.put .download w.next rec).put .paused w.next .user).bring w.next
    { record := ⟨.download, rec⟩, userPaused := true }

/-- Only a chunk ticket is worth a record. -/
def startDownload (rec : DownloadRecord) : World :=
  let w' :=
    if ChunkTicket.looksLike rec.ticket then w.register.put .download w.next rec else w.register
  w'.bring w.next { record := ⟨.download, rec⟩ }

def restoreDownload (r : Σ _ : ℕ, DownloadRecord) : World :=
  if (w.disk.files .paused).lookup r.1 = some .user then
    (w.removeDownload r.1).restorePausedDownload r.2
  else (w.removeDownload r.1).startDownload r.2

/-- `resume_serve`, and `resume_code` where the send had one: a code is written down again
only by the task that reattaches it. -/
def restoreSend (r : Σ _ : ℕ, SendRecord) : World :=
  let stats := ((w.disk.files .share).lookup r.1).getD {}
  let w := (w.removeSend r.1).unlink .share r.1
  if r.2.serves env then
    let id := w.next
    let stats := stats.settled env.now
    let w := (w.register.put .send id r.2).put .share id stats
    { w with codes := w.codes.erase r.1 }.bring id
      { record := ⟨.send, r.2⟩, stats
        code := (w.codes.lookup r.1).filter (·.ownerToken.length = 32) }
  else w

end World

def resumeIncomplete (env : Env) (w : World) : World :=
  let downloads := w.disk.rows .download
  let sends := w.disk.rows .send
  let (sendtos, w) := w.loadSendtos
  let (depositeds, w) := w.loadDepositeds
  let w := depositeds.foldl (·.restoreDeposited env ·) w.takeCodes
  let w := sendtos.foldl (·.restoreSendto env ·) (w.sweepPreps sendtos)
  let w := (w.disk.rows .link).foldl (·.restoreLink env ·) w
  let w := (w.disk.rows .pendingShare).foldl (·.restorePending ·) w
  let w := downloads.foldl (·.restoreDownload ·) w.sweepUploads
  sends.foldl (·.restoreSend env ·) w

/-! ### Reading a changed world -/

namespace World

variable {w : World} {k k' : Kind} {id : ℕ} {c : Content k} {op : Op} {t : Transfer}

@[simp] theorem next_act : (w.act op).next = w.next := rfl
@[simp] theorem restored_act : (w.act op).restored = w.restored := rfl
@[simp] theorem codes_act : (w.act op).codes = w.codes := rfl
@[simp] theorem fails_act : (w.act op).fails = w.fails := rfl
@[simp] theorem did_act : (w.act op).did = w.did ++ [op] := rfl

theorem disk_act (h : w.fails = none) : (w.act op).disk = w.disk.run op := by
  simp only [act, h]

@[simp] theorem next_put : (w.put k id c).next = w.next := rfl
@[simp] theorem restored_put : (w.put k id c).restored = w.restored := rfl
@[simp] theorem codes_put : (w.put k id c).codes = w.codes := rfl
@[simp] theorem fails_put : (w.put k id c).fails = w.fails := rfl

theorem disk_put (h : w.fails = none) : (w.put k id c).disk = w.disk.put k id c := disk_act h

@[simp] theorem next_unlink : (w.unlink k id).next = w.next := rfl
@[simp] theorem restored_unlink : (w.unlink k id).restored = w.restored := rfl
@[simp] theorem codes_unlink : (w.unlink k id).codes = w.codes := rfl
@[simp] theorem fails_unlink : (w.unlink k id).fails = w.fails := rfl

theorem disk_unlink (h : w.fails = none) : (w.unlink k id).disk = w.disk.unlink k id :=
  disk_act h

section

variable {env : Env} {u : Resumable} {payload : String} {live : Bool}

/-- The upload state is written down under its id, or not at all. -/
theorem remember_cases : w.remember env id u payload live = w ∨
    ∃ stamp, w.remember env id u payload live =
      w.put .upload id { u with payload := payload, stamp := stamp } := by
  unfold remember
  split
  · exact .inr ⟨_, rfl⟩
  · exact .inl rfl

@[simp] theorem next_remember : (w.remember env id u payload live).next = w.next := by
  rcases remember_cases (w := w) with h | ⟨_, h⟩ <;> rw [h]
  rfl

@[simp] theorem restored_remember :
    (w.remember env id u payload live).restored = w.restored := by
  rcases remember_cases (w := w) with h | ⟨_, h⟩ <;> rw [h]
  rfl

@[simp] theorem codes_remember : (w.remember env id u payload live).codes = w.codes := by
  rcases remember_cases (w := w) with h | ⟨_, h⟩ <;> rw [h]
  rfl

@[simp] theorem fails_remember : (w.remember env id u payload live).fails = w.fails := by
  rcases remember_cases (w := w) with h | ⟨_, h⟩ <;> rw [h]
  rfl

theorem files_remember_of_ne (h : w.fails = none) (hk : k ≠ .upload) :
    (w.remember env id u payload live).disk.files k = w.disk.files k := by
  rcases remember_cases (w := w) with hrem | ⟨_, hrem⟩ <;> rw [hrem]
  rw [disk_put h, Disk.files_put_of_ne hk]

variable {o : Option Resumable} {slot : Option PrepRecord}

@[simp] theorem next_refile : (w.refile env id payload o).next = w.next := by
  cases o <;> simp [refile]

@[simp] theorem restored_refile : (w.refile env id payload o).restored = w.restored := by
  cases o <;> simp [refile]

@[simp] theorem codes_refile : (w.refile env id payload o).codes = w.codes := by
  cases o <;> simp [refile]

@[simp] theorem fails_refile : (w.refile env id payload o).fails = w.fails := by
  cases o <;> simp [refile]

theorem files_refile_of_ne (h : w.fails = none) (hk : k ≠ .upload) :
    (w.refile env id payload o).disk.files k = w.disk.files k := by
  cases o with
  | none => rfl
  | some u => exact files_remember_of_ne h hk

@[simp] theorem next_rekeyPrep : (w.rekeyPrep id slot).next = w.next := by
  cases slot <;> rfl

@[simp] theorem restored_rekeyPrep : (w.rekeyPrep id slot).restored = w.restored := by
  cases slot <;> rfl

@[simp] theorem codes_rekeyPrep : (w.rekeyPrep id slot).codes = w.codes := by
  cases slot <;> rfl

@[simp] theorem fails_rekeyPrep : (w.rekeyPrep id slot).fails = w.fails := by
  cases slot <;> rfl

theorem files_rekeyPrep_of_ne (h : w.fails = none) (hk : k ≠ .prep) :
    (w.rekeyPrep id slot).disk.files k = w.disk.files k := by
  cases slot with
  | none => rfl
  | some p => rw [rekeyPrep, disk_put h, Disk.files_put_of_ne hk]

theorem lookup_rekeyPrep (h : w.fails = none) (j : ℕ) :
    ((w.rekeyPrep id slot).disk.files .prep).lookup j =
      if j = id then slot.or ((w.disk.files .prep).lookup j)
      else (w.disk.files .prep).lookup j := by
  cases slot with
  | none => simp [rekeyPrep]
  | some p => simp [rekeyPrep, disk_put h, Table.lookup_insert_eq]

end

@[simp] theorem next_register : w.register.next = w.next + 1 := rfl
@[simp] theorem disk_register : w.register.disk = w.disk := rfl
@[simp] theorem restored_register : w.register.restored = w.restored := rfl
@[simp] theorem codes_register : w.register.codes = w.codes := rfl
@[simp] theorem fails_register : w.register.fails = w.fails := rfl

@[simp] theorem next_bring : (w.bring id t).next = w.next := rfl
@[simp] theorem disk_bring : (w.bring id t).disk = w.disk := rfl
@[simp] theorem restored_bring : (w.bring id t).restored = w.restored ++ [(t, id)] := rfl
@[simp] theorem codes_bring : (w.bring id t).codes = w.codes := rfl
@[simp] theorem fails_bring : (w.bring id t).fails = w.fails := rfl

end World

end Arvolo.Manager.Restart
