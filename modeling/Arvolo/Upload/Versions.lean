import Arvolo.Lib.Machine
import Arvolo.Send.Source
import Arvolo.Upload.Pieces

/-!
An upload and the file it is of, while somebody writes to the file: a link, a held send or
an explicit deposit, `manager/uploads.rs` over `core/src/upload.rs`.

The seal and the session of an upload are kept in memory and, with the stamp the file has at
that moment, on disk. What is kept of the file beside them (`versions`, and of a session the
seal it was opened with and what its first read found) is read by no step. An upload of
which a record is written reads its file by its path; a descriptor that was handed over
keeps none.
-/

namespace Arvolo.Upload.Versions

open Crypto Lib Send

inductive Kind
  | link
  | held
  /-- `deposit_to`: does not come back after a restart. -/
  | deposit
  deriving DecidableEq

/-- What the path names at one time. -/
structure Version where
  ino : FileId
  file : File
  deriving DecidableEq

def Version.stamp (v : Version) : Option PayloadStamp :=
  v.file.mtime.map fun t => ⟨v.file.bytes.length, t, v.ino⟩

structure UploadSession where
  id : ℕ
  length : ℕ
  deriving DecidableEq

structure Resumable where
  sealing : Sealing
  session : Option UploadSession
  deriving DecidableEq

structure UploadRecord extends Resumable where
  stamp : PayloadStamp
  deriving DecidableEq

inductive Phase
  /-- The seal is settled. -/
  | sealed
  /-- The length was looked at again, and the layout made. -/
  | ready
  /-- The body of an append is being sent. -/
  | sending
  /-- `single_request` -/
  | single
  deriving DecidableEq

structure Attempt extends Resumable where
  phase : Phase
  deriving DecidableEq

/-- A session as the relay has it; a single request is one of its own. -/
structure Filling where
  sealing : Sealing
  length : ℕ
  file : Bytes := []
  /-- The body of the append under way, as far as it was read and has not landed. -/
  inflight : Bytes := []
  /-- What the seal covers of the file, at the first read. -/
  first : Option Bytes := none
  deriving DecidableEq

structure Blob where
  sealing : Sealing
  bytes : Bytes
  deriving DecidableEq

namespace Filling

variable (aead : Aead) (l : SealedLayout) (f : Filling)

def reached : ℕ := f.file.length + f.inflight.length

/-- Whether the next piece, of a request that ends at `stop`, is read from the file. -/
def Reads (stop : ℕ) : Prop := l.lead.length ≤ f.reached ∧ l.piece aead f.reached stop ≠ []

instance (stop : ℕ) : Decidable (f.Reads aead l stop) := inferInstanceAs (Decidable (_ ∧ _))

/-- The connection pulls the next piece of the body. -/
def read (stop : ℕ) : Filling :=
  { f with
    inflight := f.inflight ++ l.piece aead f.reached stop
    first := if f.Reads aead l stop then f.first.or (some (l.source.take l.size)) else f.first }

/-- `n` bytes of the body land. -/
def land (n : ℕ) : Filling :=
  { f with file := f.file ++ f.inflight.take n, inflight := f.inflight.drop n }

/-- An append starts from where the file ends. -/
def restart : Filling := { f with inflight := [] }

end Filling

/-- What the relay will hold: the layout's length, which is the same whatever the file
holds. -/
def layoutLen (prims : Prims) (sealing : Sealing) : Option ℕ :=
  (sealing.layout prims []).map fun l => l.len

structure Sending where
  payload : String
  kind : Kind
  file : Option Version
  versions : List Bytes
  /-- Whether the transfer is there: its row, and the record that brings it back. -/
  running : Bool := false
  /-- How many content keys were drawn. -/
  drawn : ℕ := 0
  upload : Option Resumable := none
  record : Option UploadRecord := none
  attempt : Option Attempt := none
  relay : List Filling := []
  committed : List Blob := []

inductive Event
  /-- Somebody writes, replaces, removes or restores the file. -/
  | change (file : Option Version)
  /-- `create_link`, `send_to` or `deposit_to`. -/
  | create
  /-- An attempt settles its sealing. -/
  | begin
  /-- `deposit_link_with` and `deposit_offline_with` look at the length once more. -/
  | check
  /-- The relay opened a session. -/
  | opened
  /-- The relay offers no sessions. -/
  | single
  /-- The session is over: forgotten by the relay, or committed. -/
  | sessionOver
  /-- An append starts, from where the relay says it stands. -/
  | append
  | read (stop : ℕ)
  | land (session n : ℕ)
  | commit (session : ℕ)
  /-- The attempt ends, to be made again: the network, a relay with no room, a pause. -/
  | interrupt
  /-- The upload is given up and the transfer is not: too large for the relay. -/
  | refused
  /-- The transfer is done, cancelled, or failed for good. -/
  | finish
  /-- The process ends and is started again. -/
  | restart
  deriving DecidableEq

namespace Sending

variable (prims : Prims) (s : Sending)

def bytes : Option Bytes := s.file.map fun v => v.file.bytes

def len : Option ℕ := s.bytes.map List.length

/-- `payload_stamp`. -/
def payloadStamp : Option PayloadStamp := s.file.bind Version.stamp

def start (payload : String) (kind : Kind) (file : Option Version) : Sending :=
  { payload, kind, file, versions := (file.map fun v => v.file.bytes).toList }

/-- Only what alters the stamp is a change. -/
def change (file : Option Version) : Sending :=
  if file.bind Version.stamp = s.payloadStamp then s
  else
    { s with
      file
      versions := (file.map fun v => v.file.bytes).toList ++ s.versions }

/-! ### The upload state -/

def restorable : Bool := s.running && s.kind ≠ .deposit

/-- `persist_upload`: the seal and the session, with the stamp of the moment. -/
def persistUpload (r : Resumable) : Sending :=
  if s.restorable then
    match s.payloadStamp with
    | some stamp => { s with record := some { r with stamp } }
    | none => s
  else s

def remember (r : Resumable) : Sending := { s.persistUpload r with upload := some r }

def forget : Sending := { s with upload := none, record := none }

def finish : Sending := { s.forget with running := false, attempt := none }

/-- `LinkSeal::new` or `MailboxSeal::new`, for a file of this size. -/
def newSeal (size : ℕ) : Sealing :=
  match s.kind with
  | .link =>
      .link (prims.randomChunkKey s.drawn) ((fileName s.payload).getD "download.bin") size
  | _ => .mailbox (prims.randomChunkKey s.drawn) size

/-- A fresh sealing, kept for next time. -/
def reseal (size : ℕ) : Sending :=
  { s with drawn := s.drawn + 1 }.remember ⟨s.newSeal prims size, none⟩

def sessionChanged (session : Option UploadSession) : Sending :=
  match s.upload with
  | none => s
  | some r => { s.persistUpload { r with session } with upload := some { r with session } }

/-- `take_upload_record`: what is on disk, if the payload looks as it did. -/
def takeUploadRecord : Option Resumable :=
  (s.record.filter fun rec => s.payloadStamp = some rec.stamp).map UploadRecord.toResumable

/-! ### An attempt -/

def create : Sending :=
  if s.running then s
  else
    match s.kind, s.len with
    | .link, none => s
    | .link, some size => { s with running := true }.reseal prims size
    | _, _ => { s with running := true }

/-- `mailbox_seal`: the seal there is, if the payload still has its size, or a fresh one. -/
def mailboxSeal : Sending :=
  match s.len with
  | none => s.finish
  | some size =>
      match s.upload with
      | some r => if r.sealing.size = size then s else s.forget.reseal prims size
      | none => s.reseal prims size

def begin : Sending :=
  if !s.running || s.attempt.isSome then s
  else
    let s := if s.kind = .link then s else s.mailboxSeal prims
    { s with attempt := s.upload.map fun r => { r with phase := .sealed } }

def check : Sending :=
  match s.attempt with
  | some ⟨⟨sealing, session⟩, .sealed⟩ =>
      let same := s.bytes.filter fun b => b.length = sealing.size
      match same.bind fun b => sealing.layout prims b with
      | some l =>
          { s with attempt := some ⟨⟨sealing, session.filter fun u => u.length = l.len⟩, .ready⟩ }
      | none => s.finish
  | _ => s

/-- A new session on the relay, under the seal of the attempt. -/
def fill (sealing : Sealing) (length : ℕ) : Sending :=
  { s with relay := s.relay ++ [{ sealing, length }] }

def opened : Sending :=
  match s.attempt with
  | some ⟨⟨sealing, none⟩, .ready⟩ =>
      match layoutLen prims sealing with
      | some n =>
          let session := some ⟨s.relay.length, n⟩
          { (s.fill sealing n).sessionChanged session with
            attempt := some ⟨⟨sealing, session⟩, .ready⟩ }
      | none => s
  | _ => s

/-- One request for the whole body; a session there is stays recorded. -/
def single : Sending :=
  match s.attempt with
  | some ⟨⟨sealing, _⟩, .ready⟩ =>
      match layoutLen prims sealing with
      | some n =>
          { s.fill sealing n with
            attempt := some ⟨⟨sealing, some ⟨s.relay.length, n⟩⟩, .single⟩ }
      | none => s
  | _ => s

def sessionOver : Sending :=
  match s.attempt with
  | some ⟨⟨sealing, some _⟩, phase⟩ =>
      if phase = .ready ∨ phase = .sending then
        { s.sessionChanged none with attempt := some ⟨⟨sealing, none⟩, .ready⟩ }
      else s
  | _ => s

def append : Sending :=
  match s.attempt with
  | some ⟨⟨sealing, some u⟩, phase⟩ =>
      if phase = .ready ∨ phase = .sending then
        { s with
          relay := s.relay.modify u.id Filling.restart
          attempt := some ⟨⟨sealing, some u⟩, .sending⟩ }
      else s
  | _ => s

/-- The session whose body is being sent, and the layout over what the file holds now; a
file that is gone is read as an empty one. -/
def reading : Option (UploadSession × Filling × SealedLayout) :=
  match s.attempt with
  | some ⟨⟨sealing, some u⟩, phase⟩ =>
      if phase = .sending ∨ phase = .single then do
        let f ← s.relay[u.id]?
        let l ← sealing.layout prims (s.bytes.getD [])
        return (u, f, l)
      else none
  | _ => none

def read (stop : ℕ) : Sending :=
  match s.reading prims with
  | some (u, _, l) => { s with relay := s.relay.modify u.id fun f => f.read prims.aead l stop }
  | none => s

def land (session n : ℕ) : Sending :=
  { s with relay := s.relay.modify session fun f => f.land n }

/-- The relay publishes a session that is complete. -/
def commit (session : ℕ) : Sending :=
  match s.relay[session]? with
  | some f =>
      if f.file.length = f.length then { s with committed := ⟨f.sealing, f.file⟩ :: s.committed }
      else s
  | none => s

def interrupt : Sending := { s with attempt := none }

def refused : Sending := { s.forget with attempt := none }

/-! ### A restart -/

/-- `restore_link` or `restore_sendto`: the upload goes on if the record is of the file as it
is, and a link starts over if it is not. -/
def restore : Sending :=
  match s.takeUploadRecord with
  | some r => { s with record := none }.remember r
  | none =>
      match s.kind, s.len with
      | .link, some size => { s with record := none }.reseal prims size
      | .link, none => s.finish
      | _, _ => { s with record := none }

def restart : Sending :=
  let s := { s with upload := none, attempt := none }
  if s.restorable then s.restore prims else s.finish

def step (s : Sending) : Event → Sending
  | .change file => s.change file
  | .create => s.create prims
  | .begin => s.begin prims
  | .check => s.check prims
  | .opened => s.opened prims
  | .single => s.single prims
  | .sessionOver => s.sessionOver
  | .append => s.append
  | .read stop => s.read prims stop
  | .land session n => s.land session n
  | .commit session => s.commit session
  | .interrupt => s.interrupt
  | .refused => s.refused
  | .finish => s.finish
  | .restart => s.restart prims

abbrev run (payload : String) (kind : Kind) (file : Option Version) (es : List Event) : Sending :=
  es.foldl (step prims) (start payload kind file)

/-- A blob is the sealed layout of one version, which has the size it was sealed at. -/
def IsVersion (b : Blob) (w : Bytes) : Prop :=
  w.length = b.sealing.size ∧
    ∃ l, b.sealing.layout prims w = some l ∧ l.toVec prims.aead = some b.bytes

instance (b : Blob) (w : Bytes) : Decidable (IsVersion prims b w) :=
  decidable_of_iff (w.length = b.sealing.size ∧
      (b.sealing.layout prims w).bind (fun l => l.toVec prims.aead) = some b.bytes)
    (by rw [IsVersion, Option.bind_eq_some_iff])

def OneVersion : Prop := ∀ b ∈ s.committed, ∃ w ∈ s.versions, IsVersion prims b w

instance : Decidable (s.OneVersion prims) :=
  inferInstanceAs (Decidable (∀ b ∈ s.committed, ∃ w ∈ s.versions, IsVersion prims b w))

/-- A piece that is read finds, of what its seal covers, a version of the file, and the one the
session's first read found. -/
def Steady (s : Sending) : Event → Prop
  | .read stop => ∀ x ∈ s.reading prims, x.2.1.Reads prims.aead x.2.2 stop →
      x.2.2.source.take x.2.2.size ∈ s.versions ∧
        ∀ w ∈ x.2.1.first, w = x.2.2.source.take x.2.2.size
  | _ => True

instance (s : Sending) : (e : Event) → Decidable (Steady prims s e)
  | .read stop => inferInstanceAs (Decidable (∀ x ∈ s.reading prims,
      x.2.1.Reads prims.aead x.2.2 stop → x.2.2.source.take x.2.2.size ∈ s.versions ∧
        ∀ w ∈ x.2.1.first, w = x.2.2.source.take x.2.2.size))
  | .change _ | .create | .begin | .check | .opened | .single | .sessionOver | .append
  | .land .. | .commit _ | .interrupt | .refused | .finish | .restart => .isTrue trivial

end Sending

/-! ### What a session holds -/

section

variable {prims : Prims} {sealing : Sealing} {bytes b : Bytes} {l : SealedLayout}

theorem layout_spec (h : sealing.layout prims bytes = some l) :
    l.source = bytes ∧ l.size = sealing.size ∧
      ∀ w, ∃ l', sealing.layout prims w = some l' ∧ l'.toLayout = l.toLayout.reading w := by
  cases sealing with
  | mailbox key size =>
      obtain rfl := Option.some.inj h
      exact ⟨rfl, rfl, fun w => ⟨_, rfl, rfl⟩⟩
  | link key name size =>
      simp only [Sealing.layout, Option.bind_eq_bind, Option.bind_eq_some_iff, Option.pure_def,
        Option.some.injEq] at h
      obtain ⟨header, hheader, rfl⟩ := h
      refine ⟨rfl, rfl, fun w => ⟨⟨_, .inr rfl⟩, ?_, rfl⟩⟩
      simp only [Sealing.layout, hheader, Option.bind_eq_bind, Option.bind_some, Option.pure_def]

/-- The layouts of a seal differ in the file they read. -/
theorem layout_agree {w : Bytes} {l' : SealedLayout} (h : sealing.layout prims bytes = some l)
    (h' : sealing.layout prims w = some l') :
    l'.toLayout = l.toLayout.reading w ∧ l'.lead = l.lead ∧ l'.len = l.len := by
  obtain ⟨l₁, hl₁, heq⟩ := (layout_spec h).2.2 w
  obtain rfl := Option.some.inj (hl₁.symm.trans h')
  exact ⟨heq, by rw [heq]; rfl, by rw [heq]; rfl⟩

/-- The beginning of the ciphertext; where there is none, as far as chunks can be sealed. -/
structure Filled (aead : Aead) (l : SealedLayout) (b : Bytes) : Prop where
  ciphertext : ∀ v, l.toVec aead = some v → b <+: v
  stalled : ∀ k < l.totalChunks, l.unit aead k = none →
    b.length ≤ l.lead.length + k * l.unitLen 0

variable {aead : Aead}

theorem Filled.mono (h : Filled aead l b) {b' : Bytes} (hb : b' <+: b) : Filled aead l b' where
  ciphertext v hv := hb.trans (h.ciphertext v hv)
  stalled k hk hnone := hb.length_le.trans (h.stalled k hk hnone)

theorem filled_of_lead (hb : b <+: l.lead) : Filled aead l b where
  ciphertext v hv := by
    rw [Layout.toVec_eq hv]
    exact hb.trans (List.prefix_append ..)
  stalled k _ _ := hb.length_le.trans (Nat.le_add_right ..)

theorem Filled.append (haead : aead.Lawful) (h : Filled aead l b) (stop : ℕ) :
    Filled aead l (b ++ l.piece aead b.length stop) where
  ciphertext v hv := SealedLayout.append_piece_prefix haead hv (h.ciphertext v hv) stop
  stalled k hk hnone := by
    rw [List.length_append]
    exact Layout.piece_le_of_unit_none aead hk hnone (h.stalled k hk hnone) stop

/-- What is as long as the layout says is its ciphertext. -/
theorem Filled.eq_toVec (haead : aead.Lawful) (h : Filled aead l b) (hlen : b.length = l.len) :
    l.toVec aead = some b := by
  cases hv : l.toVec aead with
  | none =>
      obtain ⟨k, hk, hnone⟩ := Layout.exists_unit_none aead hv
      have hstalled := h.stalled k hk hnone
      have hlt := Layout.stalled_lt_len (l := l.toLayout) hk
      omega
  | some v =>
      have hle := SealedLayout.length_toVec_le haead hv
      have hb := h.ciphertext v hv
      rw [hb.eq_of_length (le_antisymm hb.length_le (by omega))]

/-- What a session holds was sealed from what its first read found, which is a version, and
goes no further than the lead if nothing was read. -/
structure Filling.Sound (prims : Prims) (versions : List Bytes) (f : Filling) : Prop where
  size : ∃ w ∈ versions, w.length = f.sealing.size
  version : ∀ w ∈ f.first, w ∈ versions ∧ w.length ≤ f.sealing.size
  filled : ∃ l, f.sealing.layout prims (f.first.getD []) = some l ∧ f.length = l.len ∧
    (f.first = none → f.file ++ f.inflight <+: l.lead) ∧
    Filled prims.aead l (f.file ++ f.inflight)

variable {versions versions' : List Bytes} {f : Filling}

theorem Filling.Sound.mono (h : f.Sound prims versions) (hsub : versions ⊆ versions') :
    f.Sound prims versions' where
  size := by
    obtain ⟨w, hw, hlen⟩ := h.size
    exact ⟨w, hsub hw, hlen⟩
  version w hw := ⟨hsub (h.version w hw).1, (h.version w hw).2⟩
  filled := h.filled

/-- Losing the end of what is there. -/
theorem Filling.Sound.shorten (h : f.Sound prims versions) {file inflight : Bytes}
    (hb : file ++ inflight <+: f.file ++ f.inflight) :
    ({ f with file, inflight } : Filling).Sound prims versions where
  size := h.size
  version := h.version
  filled := by
    obtain ⟨l, hl, hlen, hlead, hfilled⟩ := h.filled
    exact ⟨l, hl, hlen, fun hnone => hb.trans (hlead hnone), hfilled.mono hb⟩

theorem Filling.Sound.land (h : f.Sound prims versions) (n : ℕ) : (f.land n).Sound prims versions :=
  h.shorten (by rw [List.append_assoc, List.take_append_drop])

theorem Filling.Sound.restart (h : f.Sound prims versions) : f.restart.Sound prims versions :=
  h.shorten (by rw [List.append_nil]; exact List.prefix_append ..)

/-- A new session. -/
theorem sound_fill {n : ℕ} (hsize : ∃ w ∈ versions, w.length = sealing.size)
    (hn : layoutLen prims sealing = some n) :
    ({ sealing, length := n } : Filling).Sound prims versions where
  size := hsize
  version w hw := absurd hw (by simp)
  filled := by
    obtain ⟨l, hl, rfl⟩ := Option.map_eq_some_iff.mp hn
    have hnil : ([] : Bytes) ++ [] <+: l.lead := List.nil_prefix
    exact ⟨l, hl, rfl, fun _ => hnil, filled_of_lead hnil⟩

theorem append_take_drop_prefix {lead : Bytes} (hb : b <+: lead) (stop : ℕ) :
    b ++ (lead.take stop).drop b.length <+: lead := by
  obtain ⟨rest, rfl⟩ := hb
  rw [List.drop_take, List.drop_left]
  exact (List.prefix_append_right_inj b).mpr (List.take_prefix ..)

/-- A piece that is not read from the file is one of the lead, or nothing. -/
theorem Filling.Sound.read_lead (haead : prims.aead.Lawful) (h : f.Sound prims versions)
    (hl : f.sealing.layout prims bytes = some l) {stop : ℕ} (hreads : ¬ f.Reads prims.aead l stop) :
    (f.read prims.aead l stop).Sound prims versions where
  size := h.size
  version := by
    simp only [Filling.read, if_neg hreads]
    exact h.version
  filled := by
    obtain ⟨l₁, hl₁, hlen, hlead, hfilled⟩ := h.filled
    obtain ⟨-, hsame, -⟩ := layout_agree hl₁ hl
    have hreached : f.reached = (f.file ++ f.inflight).length := (List.length_append ..).symm
    simp only [Filling.read, if_neg hreads]
    by_cases hpos : f.reached < l.lead.length
    · have hpiece : l.piece prims.aead f.reached stop = l₁.piece prims.aead f.reached stop := by
        rw [Layout.piece_of_lt_lead _ hpos, Layout.piece_of_lt_lead _ (hsame ▸ hpos), hsame]
      rw [hpiece, ← List.append_assoc, hreached]
      refine ⟨l₁, hl₁, hlen, fun hnone => ?_, hfilled.append haead stop⟩
      rw [Layout.piece_of_lt_lead _ (hreached ▸ hsame ▸ hpos)]
      exact append_take_drop_prefix (hlead hnone) stop
    · have hnil : l.piece prims.aead f.reached stop = [] := by
        by_contra hne
        exact hreads ⟨not_lt.mp hpos, hne⟩
      rw [hnil, List.append_nil]
      exact ⟨l₁, hl₁, hlen, hlead, hfilled⟩

/-- A piece of the file, which is what the first read found. -/
theorem Filling.Sound.read_chunk (haead : prims.aead.Lawful) (h : f.Sound prims versions)
    (hl : f.sealing.layout prims bytes = some l) {stop : ℕ} (hreads : f.Reads prims.aead l stop)
    (hversion : l.source.take l.size ∈ versions)
    (hfirst : ∀ w ∈ f.first, w = l.source.take l.size) :
    (f.read prims.aead l stop).Sound prims versions := by
  obtain ⟨-, hsize, hother⟩ := layout_spec hl
  obtain ⟨l', hl', heq⟩ := hother (l.source.take l.size)
  have hnow : (f.read prims.aead l stop).first = some (l.source.take l.size) := by
    simp only [Filling.read, if_pos hreads]
    cases hf : f.first with
    | none => rfl
    | some w => rw [hfirst w hf]; rfl
  obtain ⟨l₁, hl₁, hlen, hlead, hfilled⟩ := h.filled
  obtain ⟨-, hsame, hlen'⟩ := layout_agree hl₁ hl'
  have hfilled' : Filled prims.aead l' (f.file ++ f.inflight) := by
    cases hf : f.first with
    | none =>
        refine filled_of_lead ?_
        rw [hsame]
        exact hlead hf
    | some w =>
        rw [hf, Option.getD_some, hfirst w hf] at hl₁
        obtain rfl := Option.some.inj (hl₁.symm.trans hl')
        exact hfilled
  have hpiece : l.piece prims.aead f.reached stop =
      l'.piece prims.aead (f.file ++ f.inflight).length stop := by
    rw [heq, Layout.piece_reading_take, List.length_append]
    rfl
  refine ⟨h.size, fun w hw => ?_, l', ?_, hlen.trans hlen'.symm, fun hnone => ?_, ?_⟩
  · obtain rfl := Option.some.inj (hnow.symm.trans hw)
    exact ⟨hversion, (List.length_take_le ..).trans_eq hsize⟩
  · rw [hnow]
    exact hl'
  · exact absurd (hnow.symm.trans hnone) (by simp)
  · simp only [Filling.read, hpiece, ← List.append_assoc]
    exact hfilled'.append haead stop

/-- What is complete is the layout of one version. -/
theorem Filling.Sound.isVersion (haead : prims.aead.Lawful) (h : f.Sound prims versions)
    (hfull : f.file.length = f.length) :
    ∃ w ∈ versions, Sending.IsVersion prims ⟨f.sealing, f.file⟩ w := by
  obtain ⟨l, hl, hlen, hlead, hfilled⟩ := h.filled
  obtain ⟨hsource, hsize, -⟩ := layout_spec hl
  have hfile : Filled prims.aead l f.file := hfilled.mono (List.prefix_append ..)
  have hv := hfile.eq_toVec haead (hfull.trans hlen)
  cases hf : f.first with
  | none =>
      -- no chunk: the file was empty when it was sealed
      have hle := ((List.prefix_append ..).trans (hlead hf)).length_le
      rw [hfull, hlen, Layout.len, hsize] at hle
      obtain ⟨w, hw, hwlen⟩ := h.size
      obtain rfl : w = [] := List.eq_nil_of_length_eq_zero (by omega)
      rw [hf, Option.getD_none] at hl
      exact ⟨[], hw, hwlen, l, hl, hv⟩
  | some w =>
      obtain ⟨hw, hwlen⟩ := h.version w hf
      rw [hf, Option.getD_some] at hl hsource
      have hge := SealedLayout.size_le_of_toVec haead hv (hfull.trans hlen)
      rw [hsource, hsize] at hge
      exact ⟨w, hw, le_antisymm hwlen hge, l, hl, hv⟩

end

/-! ### Every step -/

namespace Sending

variable {prims : Prims} {s : Sending}

/-- A seal is of the size of a version, and its session is one that was opened under it. -/
structure Kept (versions : List Bytes) (relay : List Filling) (r : Resumable) : Prop where
  size : ∃ w ∈ versions, w.length = r.sealing.size
  session : ∀ u ∈ r.session, (relay.map Filling.sealing)[u.id]? = some r.sealing

/-- An attempt is of a transfer that is there, under the seal it has, if it has one still. -/
structure Trying (s : Sending) (a : Attempt) : Prop where
  running : s.running = true
  kept : Kept s.versions s.relay a.toResumable
  agree : ∀ r ∈ s.upload, r.sealing = a.sealing

structure Inv (prims : Prims) (s : Sending) : Prop where
  now : ∀ b ∈ s.bytes, b ∈ s.versions
  upload : ∀ r ∈ s.upload, Kept s.versions s.relay r
  record : ∀ rec ∈ s.record, Kept s.versions s.relay rec.toResumable
  attempt : ∀ a ∈ s.attempt, s.Trying a
  relay : ∀ f ∈ s.relay, f.Sound prims s.versions
  committed : s.OneVersion prims

variable {versions : List Bytes} {relay : List Filling} {r : Resumable}

theorem Kept.without (h : Kept versions relay r) : Kept versions relay ⟨r.sealing, none⟩ where
  size := h.size
  session u hu := absurd hu (by simp)

theorem Kept.filter (h : Kept versions relay r) (p : UploadSession → Bool) :
    Kept versions relay ⟨r.sealing, r.session.filter p⟩ where
  size := h.size
  session u hu := h.session u (Option.filter_eq_some_iff.mp hu).1

/-- More versions, and a relay where what was there keeps its seal. -/
theorem Kept.mono (h : Kept versions relay r) {versions' : List Bytes} {relay' : List Filling}
    (hsub : versions ⊆ versions')
    (hseal : ∀ (i : ℕ) x, (relay.map Filling.sealing)[i]? = some x →
      (relay'.map Filling.sealing)[i]? = some x) : Kept versions' relay' r where
  size := by
    obtain ⟨w, hw, hlen⟩ := h.size
    exact ⟨w, hsub hw, hlen⟩
  session u hu := hseal _ _ (h.session u hu)

/-- Of the same file and relay, with the same versions. -/
structure Beside (s s' : Sending) : Prop where
  file : s'.file = s.file
  versions : s'.versions = s.versions
  relay : s'.relay = s.relay
  committed : s'.committed = s.committed

namespace Inv

/-- Steps that change the upload state and nothing else. -/
theorem beside (h : s.Inv prims) {s' : Sending} (hs : s.Beside s')
    (hupload : ∀ r ∈ s'.upload, Kept s.versions s.relay r)
    (hrecord : ∀ rec ∈ s'.record, Kept s.versions s.relay rec.toResumable)
    (hattempt : ∀ a ∈ s'.attempt, s'.Trying a) : s'.Inv prims where
  now := by
    rw [bytes, hs.file, hs.versions]
    exact h.now
  upload := by rwa [hs.versions, hs.relay]
  record := by rwa [hs.versions, hs.relay]
  attempt := hattempt
  relay := by
    rw [hs.relay, hs.versions]
    exact h.relay
  committed := by
    rw [OneVersion, hs.committed, hs.versions]
    exact h.committed

theorem noAttempt (h : s.Inv prims) : ({ s with attempt := none } : Sending).Inv prims :=
  h.beside ⟨rfl, rfl, rfl, rfl⟩ h.upload h.record (by simp)

theorem noRecord (h : s.Inv prims) : ({ s with record := none } : Sending).Inv prims :=
  h.beside ⟨rfl, rfl, rfl, rfl⟩ h.upload (by simp) fun a ha =>
    ⟨(h.attempt a ha).running, (h.attempt a ha).kept, (h.attempt a ha).agree⟩

theorem noUpload (h : s.Inv prims) : ({ s with upload := none } : Sending).Inv prims :=
  h.beside ⟨rfl, rfl, rfl, rfl⟩ (by simp) h.record fun a ha =>
    ⟨(h.attempt a ha).running, (h.attempt a ha).kept, by simp⟩

theorem running (h : s.Inv prims) (hidle : s.attempt = none) (running : Bool) :
    ({ s with running } : Sending).Inv prims :=
  h.beside ⟨rfl, rfl, rfl, rfl⟩ h.upload h.record (by simp [hidle])

theorem setAttempt (h : s.Inv prims) {a : Attempt} (ha : s.Trying a) :
    ({ s with attempt := some a } : Sending).Inv prims := by
  refine h.beside ⟨rfl, rfl, rfl, rfl⟩ h.upload h.record fun a' ha' => ?_
  obtain rfl := Option.some.inj ha'
  exact ⟨ha.running, ha.kept, ha.agree⟩

theorem setUpload (h : s.Inv prims) (hr : Kept s.versions s.relay r)
    (hagree : ∀ a ∈ s.attempt, r.sealing = a.sealing) :
    ({ s with upload := some r } : Sending).Inv prims := by
  refine h.beside ⟨rfl, rfl, rfl, rfl⟩ (fun r' hr' => ?_) h.record fun a ha => ?_
  · obtain rfl := Option.some.inj hr'
    exact hr
  · refine ⟨(h.attempt a ha).running, (h.attempt a ha).kept, fun r' hr' => ?_⟩
    obtain rfl := Option.some.inj hr'
    exact hagree a ha

theorem persistUpload (h : s.Inv prims) (hr : Kept s.versions s.relay r) :
    (s.persistUpload r).Inv prims := by
  unfold Sending.persistUpload
  split
  · split
    · refine h.beside ⟨rfl, rfl, rfl, rfl⟩ h.upload (fun rec hrec => ?_) fun a ha =>
        ⟨(h.attempt a ha).running, (h.attempt a ha).kept, (h.attempt a ha).agree⟩
      obtain rfl := Option.some.inj hrec
      exact hr
    · exact h
  · exact h

/-- Only the record is written. -/
theorem persistUpload_spec (s : Sending) (r : Resumable) :
    s.Beside (s.persistUpload r) ∧ (s.persistUpload r).attempt = s.attempt ∧
      (s.persistUpload r).running = s.running := by
  unfold Sending.persistUpload
  split
  · split <;> exact ⟨⟨rfl, rfl, rfl, rfl⟩, rfl, rfl⟩
  · exact ⟨⟨rfl, rfl, rfl, rfl⟩, rfl, rfl⟩

theorem remember (h : s.Inv prims) (hr : Kept s.versions s.relay r)
    (hagree : ∀ a ∈ s.attempt, r.sealing = a.sealing) : (s.remember r).Inv prims := by
  obtain ⟨hbeside, hattempt, -⟩ := persistUpload_spec s r
  refine (h.persistUpload hr).setUpload ?_ ?_
  · rwa [hbeside.versions, hbeside.relay]
  · rwa [hattempt]

theorem forget (h : s.Inv prims) : s.forget.Inv prims := h.noUpload.noRecord

theorem finish (h : s.Inv prims) : s.finish.Inv prims := h.forget.noAttempt.running rfl false

theorem reseal (h : s.Inv prims) (hidle : s.attempt = none) {size : ℕ} (hsize : s.len = some size) :
    (s.reseal prims size).Inv prims := by
  have hdrawn : ({ s with drawn := s.drawn + 1 } : Sending).Inv prims :=
    h.beside ⟨rfl, rfl, rfl, rfl⟩ h.upload h.record (by simp [hidle])
  refine hdrawn.remember ⟨?_, by simp⟩ (by simp [hidle])
  obtain ⟨b, hb, hlen⟩ := Option.map_eq_some_iff.mp hsize
  have hseal : (s.newSeal prims size).size = size := by
    unfold newSeal
    split <;> rfl
  exact ⟨b, h.now b hb, hlen.trans hseal.symm⟩

/-- The session of the attempt becomes the one that is recorded. -/
theorem sessionChanged (h : s.Inv prims) {session : Option UploadSession}
    (hsession : ∀ r ∈ s.upload, Kept s.versions s.relay ⟨r.sealing, session⟩) :
    (s.sessionChanged session).Inv prims := by
  unfold Sending.sessionChanged
  split
  · exact h
  · rename_i r hr
    exact h.remember (hsession r hr) fun a ha => (h.attempt a ha).agree r hr

theorem sessionChanged_spec (s : Sending) (session : Option UploadSession) :
    s.Beside (s.sessionChanged session) ∧ (s.sessionChanged session).running = s.running ∧
      ∀ r ∈ (s.sessionChanged session).upload, ∃ r' ∈ s.upload, r'.sealing = r.sealing := by
  unfold Sending.sessionChanged
  split
  · exact ⟨⟨rfl, rfl, rfl, rfl⟩, rfl, fun r hr => ⟨r, hr, rfl⟩⟩
  · rename_i r hr
    obtain ⟨⟨hfile, hversions, hrelay, hcommitted⟩, -, hrunning⟩ :=
      persistUpload_spec s { r with session }
    refine ⟨⟨hfile, hversions, hrelay, hcommitted⟩, hrunning, fun r' hr' => ⟨r, hr, ?_⟩⟩
    obtain rfl := Option.some.inj hr'
    rfl

/-- The attempt goes on with the session it has recorded. -/
theorem trying_sessionChanged {a : Attempt} (ha : s.Trying a) (a' : Attempt)
    (hsame : a'.sealing = a.sealing)
    (hkept : Kept s.versions s.relay a'.toResumable) (session : Option UploadSession) :
    (s.sessionChanged session).Trying a' := by
  obtain ⟨hbeside, hrunning, hupload⟩ := sessionChanged_spec s session
  refine ⟨hrunning.trans ha.running, ?_, fun r hr => ?_⟩
  · rwa [hbeside.versions, hbeside.relay]
  · obtain ⟨r', hr', hseal⟩ := hupload r hr
    rw [← hseal, ha.agree r' hr', hsame]

/-- The relay's part of a step: what was there keeps its seal. -/
theorem relayed (h : s.Inv prims) {relay : List Filling}
    (hseal : ∀ (i : ℕ) x, (s.relay.map Filling.sealing)[i]? = some x →
      (relay.map Filling.sealing)[i]? = some x)
    (hsound : ∀ f ∈ relay, f.Sound prims s.versions) :
    ({ s with relay } : Sending).Inv prims where
  now := h.now
  upload r hr := (h.upload r hr).mono (List.Subset.refl _) hseal
  record r hr := (h.record r hr).mono (List.Subset.refl _) hseal
  attempt a ha := ⟨(h.attempt a ha).running, (h.attempt a ha).kept.mono (List.Subset.refl _) hseal,
    (h.attempt a ha).agree⟩
  relay := hsound
  committed := h.committed

theorem modify (h : s.Inv prims) {i : ℕ} {g : Filling → Filling}
    (hseal : ∀ f, (g f).sealing = f.sealing)
    (hsound : ∀ f, s.relay[i]? = some f → (g f).Sound prims s.versions) :
    ({ s with relay := s.relay.modify i g } : Sending).Inv prims := by
  refine h.relayed (fun j x hx => ?_) fun f hf => ?_
  · rw [List.getElem?_map] at hx ⊢
    rw [List.getElem?_modify, Option.map_eq_map, Option.map_map, ← hx]
    congr 1
    funext f
    by_cases hij : i = j <;> simp [hij, hseal]
  · obtain ⟨j, hj⟩ := List.mem_iff_getElem?.mp hf
    rw [List.getElem?_modify] at hj
    obtain ⟨f', hf', rfl⟩ := Option.map_eq_some_iff.mp hj
    split_ifs with hij
    · exact hsound f' (hij ▸ hf')
    · exact h.relay f' (List.mem_of_getElem? hf')

/-- A session is opened under a seal there is. -/
theorem fill (h : s.Inv prims) (hr : Kept s.versions s.relay r) {n : ℕ}
    (hn : layoutLen prims r.sealing = some n) : (s.fill r.sealing n).Inv prims := by
  refine h.relayed (fun i x hx => ?_) fun f hf => ?_
  · rw [List.map_append, List.getElem?_append_left]
    · exact hx
    · exact (List.getElem?_eq_some_iff.mp hx).1
  · rcases List.mem_append.mp hf with hold | hnew
    · exact h.relay f hold
    · rw [List.mem_singleton] at hnew
      subst hnew
      exact sound_fill hr.size hn

theorem kept_fill (hr : Kept s.versions s.relay r) (n m : ℕ) :
    Kept (s.fill r.sealing n).versions (s.fill r.sealing n).relay
      ⟨r.sealing, some ⟨s.relay.length, m⟩⟩ where
  size := hr.size
  session u hu := by
    obtain rfl := Option.some.inj hu
    simp [Sending.fill]

/-! ### One step after the other -/

theorem change (h : s.Inv prims) (file : Option Version) : (s.change file).Inv prims := by
  unfold Sending.change
  split_ifs
  · exact h
  · have hsub : s.versions ⊆ (file.map fun v => v.file.bytes).toList ++ s.versions :=
      List.subset_append_right ..
    exact
      { now := fun b hb => List.mem_append_left _ (Option.mem_toList.mpr hb)
        upload := fun r hr => (h.upload r hr).mono hsub fun _ _ hx => hx
        record := fun rec hrec => (h.record rec hrec).mono hsub fun _ _ hx => hx
        attempt := fun a ha => ⟨(h.attempt a ha).running,
          (h.attempt a ha).kept.mono hsub fun _ _ hx => hx, (h.attempt a ha).agree⟩
        relay := fun f hf => (h.relay f hf).mono hsub
        committed := fun b hb => by
          obtain ⟨w, hw, hversion⟩ := h.committed b hb
          exact ⟨w, hsub hw, hversion⟩ }

theorem create (h : s.Inv prims) : (s.create prims).Inv prims := by
  unfold Sending.create
  split_ifs with hrunning
  · exact h
  · have hidle : s.attempt = none := by
      cases ha : s.attempt with
      | none => rfl
      | some a => exact absurd (h.attempt a ha).running hrunning
    split
    · exact h
    · exact (h.running hidle true).reseal hidle ‹_›
    · exact h.running hidle true

theorem mailboxSeal (h : s.Inv prims) (hidle : s.attempt = none) :
    (s.mailboxSeal prims).Inv prims := by
  unfold Sending.mailboxSeal
  split
  · exact h.finish
  · split
    · split_ifs
      · exact h
      · exact h.forget.reseal hidle ‹_›
    · exact h.reseal hidle ‹_›

theorem check (h : s.Inv prims) : (s.check prims).Inv prims := by
  unfold Sending.check
  split
  · rename_i sealing session hattempt
    have ha := h.attempt _ hattempt
    simp only
    split
    · exact h.setAttempt ⟨ha.running, ha.kept.filter _, ha.agree⟩
    · exact h.finish
  · exact h

theorem opened (h : s.Inv prims) : (s.opened prims).Inv prims := by
  unfold Sending.opened
  split
  · rename_i sealing hattempt
    have ha := h.attempt _ hattempt
    split
    · rename_i n hn
      have hfill := h.fill ha.kept hn
      have hkept := kept_fill ha.kept n n
      have ha' := hfill.attempt _ hattempt
      refine (hfill.sessionChanged fun r hr => ?_).setAttempt
        (trying_sessionChanged ha' ⟨⟨sealing, some ⟨s.relay.length, n⟩⟩, .ready⟩ rfl hkept _)
      rw [ha'.agree r hr]
      exact hkept
    · exact h
  · exact h

theorem single (h : s.Inv prims) : (s.single prims).Inv prims := by
  unfold Sending.single
  split
  · rename_i sealing session hattempt
    have ha := h.attempt _ hattempt
    split
    · rename_i n hn
      exact (h.fill ha.kept hn).setAttempt ⟨ha.running, kept_fill ha.kept n n, ha.agree⟩
    · exact h
  · exact h

theorem sessionOver (h : s.Inv prims) : s.sessionOver.Inv prims := by
  unfold Sending.sessionOver
  split
  · rename_i sealing u phase hattempt
    have ha := h.attempt _ hattempt
    split_ifs
    · exact (h.sessionChanged fun r hr => (h.upload r hr).without).setAttempt
        (trying_sessionChanged ha ⟨⟨sealing, none⟩, .ready⟩ rfl ha.kept.without none)
    · exact h
  · exact h

theorem append (h : s.Inv prims) : s.append.Inv prims := by
  unfold Sending.append
  split
  · rename_i sealing u phase hattempt
    split_ifs
    · have hmodify := h.modify (i := u.id) (g := Filling.restart) (fun _ => rfl)
        fun f hf => (h.relay f (List.mem_of_getElem? hf)).restart
      have ha := hmodify.attempt _ hattempt
      exact hmodify.setAttempt ⟨ha.running, ha.kept, ha.agree⟩
    · exact h
  · exact h

/-- What is being sent, in the terms of the state. -/
theorem reading_spec (h : s.Inv prims) {u : UploadSession} {f : Filling} {l : SealedLayout}
    (hreading : s.reading prims = some (u, f, l)) :
    s.relay[u.id]? = some f ∧ f.sealing.layout prims (s.bytes.getD []) = some l := by
  unfold Sending.reading at hreading
  split at hreading
  · rename_i sealing u' phase hattempt
    split_ifs at hreading
    simp only [Option.bind_eq_bind, Option.bind_eq_some_iff, Option.pure_def,
      Option.some.injEq, Prod.mk.injEq] at hreading
    obtain ⟨f', hf', l', hl', rfl, rfl, rfl⟩ := hreading
    have hseal := (h.attempt _ hattempt).kept.session u' rfl
    rw [List.getElem?_map, hf', Option.map_some, Option.some.injEq] at hseal
    exact ⟨hf', hseal ▸ hl'⟩
  · cases hreading

theorem read (haead : prims.aead.Lawful) (h : s.Inv prims) {stop : ℕ}
    (hsteady : Steady prims s (.read stop)) : (s.read prims stop).Inv prims := by
  unfold Sending.read
  split
  · rename_i u f l hreading
    obtain ⟨hf, hl⟩ := reading_spec h hreading
    refine h.modify (fun _ => rfl) fun f' hf' => ?_
    obtain rfl := Option.some.inj (hf.symm.trans hf')
    have hsound := h.relay f (List.mem_of_getElem? hf)
    by_cases hreads : f.Reads prims.aead l stop
    · obtain ⟨hversion, hfirst⟩ := hsteady _ hreading hreads
      exact hsound.read_chunk haead hl hreads hversion hfirst
    · exact hsound.read_lead haead hl hreads
  · exact h

theorem land (h : s.Inv prims) (session n : ℕ) : (s.land session n).Inv prims :=
  h.modify (fun _ => rfl) fun f hf => (h.relay f (List.mem_of_getElem? hf)).land n

theorem commit (haead : prims.aead.Lawful) (h : s.Inv prims) (session : ℕ) :
    (s.commit session).Inv prims := by
  unfold Sending.commit
  split
  · rename_i f hf
    split_ifs with hfull
    · refine ⟨h.now, h.upload, h.record, fun a ha => ?_, h.relay, fun b hb => ?_⟩
      · exact ⟨(h.attempt a ha).running, (h.attempt a ha).kept, (h.attempt a ha).agree⟩
      · rcases List.mem_cons.mp hb with rfl | hold
        · exact (h.relay f (List.mem_of_getElem? hf)).isVersion haead hfull
        · exact h.committed b hold
    · exact h
  · exact h

/-- An attempt takes the seal and the session there are. -/
theorem begun (h : s.Inv prims) (hrunning : s.upload.isSome = true → s.running = true) :
    ({ s with attempt := s.upload.map fun r => { r with phase := .sealed } } :
      Sending).Inv prims := by
  refine h.beside ⟨rfl, rfl, rfl, rfl⟩ h.upload h.record fun a ha => ?_
  obtain ⟨r, hr, rfl⟩ := Option.map_eq_some_iff.mp ha
  refine ⟨hrunning (hr ▸ rfl), h.upload r hr, fun r' hr' => ?_⟩
  rw [Option.some.inj (hr'.symm.trans hr)]

theorem mailboxSeal_running (s : Sending) (h : s.running = true)
    (hupload : (s.mailboxSeal prims).upload.isSome = true) :
    (s.mailboxSeal prims).running = true := by
  unfold Sending.mailboxSeal at hupload ⊢
  split at hupload
  · cases hupload
  · split
    · split_ifs
      · exact h
      · exact (persistUpload_spec _ _).2.2.trans h
    · exact (persistUpload_spec _ _).2.2.trans h

theorem begin (h : s.Inv prims) : (s.begin prims).Inv prims := by
  unfold Sending.begin
  split_ifs with hbusy hlink
  · exact h
  · simp only [Bool.or_eq_true, Bool.not_eq_true', not_or, Bool.not_eq_false] at hbusy
    exact h.begun fun _ => hbusy.1
  · simp only [Bool.or_eq_true, Bool.not_eq_true', not_or, Bool.not_eq_false,
      Option.not_isSome_iff_eq_none] at hbusy
    exact (h.mailboxSeal hbusy.2).begun (mailboxSeal_running s hbusy.1)

theorem restart (h : s.Inv prims) : (s.restart prims).Inv prims := by
  have hdead := h.noUpload.noAttempt
  unfold Sending.restart
  simp only
  split_ifs
  · unfold Sending.restore
    split
    · rename_i r htaken
      obtain ⟨rec, hrec, rfl⟩ := Option.map_eq_some_iff.mp htaken
      exact hdead.noRecord.remember (hdead.record rec (Option.filter_eq_some_iff.mp hrec).1)
        (by simp)
    · split
      · exact hdead.noRecord.reseal rfl ‹_›
      · exact hdead.finish
      · exact hdead.noRecord
  · exact hdead.finish

theorem step (haead : prims.aead.Lawful) (h : s.Inv prims) (e : Event)
    (hsteady : Steady prims s e) : (s.step prims e).Inv prims := by
  cases e with
  | change file => exact h.change file
  | create => exact h.create
  | begin => exact h.begin
  | check => exact h.check
  | opened => exact h.opened
  | single => exact h.single
  | sessionOver => exact h.sessionOver
  | append => exact h.append
  | read stop => exact h.read haead hsteady
  | land session n => exact h.land session n
  | commit session => exact h.commit haead session
  | interrupt => exact h.noAttempt
  | refused => exact h.forget.noAttempt
  | finish => exact h.finish
  | restart => exact h.restart

end Inv

theorem inv_start (payload : String) (kind : Kind) (file : Option Version) :
    (start payload kind file).Inv prims where
  now b hb := Option.mem_toList.mpr hb
  upload r hr := absurd hr (by simp [start])
  record rec hrec := absurd hrec (by simp [start])
  attempt a ha := absurd ha (by simp [start])
  relay f hf := absurd hf (by simp [start])
  committed b hb := absurd hb (by simp [start])

/-- A restart goes on with a session only into a file that looks as it did when the record was
written. -/
theorem restart_session {r : Resumable} (hr : (s.restart prims).upload = some r)
    (hsession : r.session ≠ none) :
    ∃ rec ∈ s.record, s.payloadStamp = some rec.stamp ∧ r = rec.toResumable := by
  unfold Sending.restart at hr
  simp only at hr
  split_ifs at hr
  · unfold Sending.restore at hr
    split at hr
    · rename_i r' htaken
      obtain ⟨rec, hrec, rfl⟩ := Option.map_eq_some_iff.mp htaken
      obtain ⟨hmem, hstamp⟩ := Option.filter_eq_some_iff.mp hrec
      exact ⟨rec, hmem, of_decide_eq_true hstamp, (Option.some.inj hr).symm⟩
    · split at hr
      · obtain rfl := Option.some.inj hr
        exact absurd rfl hsession
      · cases hr
      · cases hr
  · cases hr

/-- Whatever becomes of the file, as long as every session reads one version of it, every blob
is of one version. -/
theorem oneVersion_run (prims : Prims) (haead : prims.aead.Lawful) (payload : String) (kind : Kind)
    (file : Option Version) (es : List Event)
    (h : Along (step prims) (Steady prims) (start payload kind file) es) :
    (run prims payload kind file es).OneVersion prims :=
  (h.foldl_inv (Inv prims) (fun _ e hinv hsteady => hinv.step haead e hsteady)
    (inv_start payload kind file)).committed

/-- The cipher that takes every message, no digest, and keys that count up. -/
def counting : Prims := ⟨.tagged, id, fun n => [UInt8.ofNat n]⟩

/-- Two bytes, rewritten in place a second later. -/
def before : Version := ⟨7, ⟨[97, 98], some 100⟩⟩

def after : Version := ⟨7, ⟨[99, 100], some 101⟩⟩

/-- The connection is lost after one byte, and the process ends; the file it finds again is
another version, which it sends in a session of its own. -/
def startedOver : List Event :=
  [.create, .begin, .check, .opened, .append, .read 18, .land 0 1, .change (some after),
    .restart, .begin, .check, .opened, .append, .read 18, .land 1 18, .commit 1]

theorem oneVersion_run_startedOver :
    (run counting "notes.txt" .held (some before) startedOver).committed ≠ [] ∧
      (run counting "notes.txt" .held (some before) startedOver).OneVersion counting :=
  ⟨by decide +kernel, oneVersion_run counting Aead.tagged_lawful "notes.txt" .held (some before)
    startedOver (by decide +kernel)⟩

/-- The connection is lost after one byte, and the file is rewritten before the next attempt. -/
def rewritten : List Event :=
  [.create, .begin, .check, .opened, .append, .read 18, .land 0 1, .interrupt,
    .change (some after), .begin, .check, .append, .read 18, .land 0 17, .commit 0]

/-- The byte the relay has is of the first version and the rest is of the second. -/
theorem not_oneVersion_rewritten : ¬ ∀ (prims : Prims), prims.aead.Lawful → ∀ (payload : String)
    (kind : Kind) (file : Option Version) (es : List Event),
    (run prims payload kind file es).OneVersion prims := fun h =>
  absurd (h counting Aead.tagged_lawful "notes.txt" .held (some before) rewritten)
    (by decide +kernel)

end Sending

end Arvolo.Upload.Versions
