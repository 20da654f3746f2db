import Arvolo.Upload.Layout

/-!
Where a send reads its bytes from, `core/src/source.rs`, and what it seals them
into: the chunks of a live send (`core/src/chunked.rs`, `flow/send.rs`) and the
units of an upload (`core/src/upload.rs`, `link.rs`, `flow/offline.rs`).

A file is known by its device and inode, one number here. A path names a file or
nothing; a handed-off descriptor is the file itself.
-/

namespace Arvolo.Send

open Crypto Upload

abbrev FileId := ℕ

/-- A file, with its modification time when the system has one. -/
structure File where
  bytes : Bytes
  mtime : Option ℕ
  deriving DecidableEq

structure Files where
  file : FileId → File
  names : String → Option FileId

inductive SendSource
  | path (p : String)
  | handle (file : FileId) (label : String)
  deriving DecidableEq

def SendSource.label : SendSource → String
  | .path p => p
  | .handle _ label => label

/-- What a payload looked like when its digests were taken. -/
structure PayloadStamp where
  len : ℕ
  mtime : ℕ
  ino : FileId
  deriving DecidableEq

namespace Files

variable (fs : Files)

/-- The file behind a source, opened afresh. -/
def ino : SendSource → Option FileId
  | .path p => fs.names p
  | .handle file _ => some file

def bytes (src : SendSource) : Option Bytes := (fs.ino src).map fun f => (fs.file f).bytes

def len (src : SendSource) : Option ℕ := (fs.bytes src).map List.length

def stamp (f : FileId) : Option PayloadStamp :=
  (fs.file f).mtime.map fun t => ⟨(fs.file f).bytes.length, t, f⟩

def payloadStamp (p : String) : Option PayloadStamp := (fs.names p).bind fs.stamp

/-- The file is written to. -/
def rewrite (f : FileId) (content : File) : Files :=
  { fs with file := Function.update fs.file f content }

/-- The path names another file, or none. -/
def relink (p : String) (f : Option FileId) : Files :=
  { fs with names := Function.update fs.names p f }

theorem bytes_rewrite {src : SendSource} {f : FileId} (h : fs.ino src ≠ some f) (content : File) :
    (fs.rewrite f content).bytes src = fs.bytes src := by
  change (fs.ino src).map _ = (fs.ino src).map _
  cases hf : fs.ino src with
  | none => rfl
  | some g =>
      have hne : g ≠ f := fun he => h (he ▸ hf)
      simp [rewrite, Function.update_of_ne hne]

theorem ino_relink {src : SendSource} {p : String} (h : src ≠ .path p) (f : Option FileId) :
    (fs.relink p f).ino src = fs.ino src := by
  cases src with
  | handle g label => rfl
  | path q =>
      have hne : q ≠ p := fun he => h (he ▸ rfl)
      simp [ino, relink, Function.update_of_ne hne]

theorem bytes_relink {src : SendSource} {p : String} (h : src ≠ .path p) (f : Option FileId) :
    (fs.relink p f).bytes src = fs.bytes src := by
  simp only [bytes, fs.ino_relink h f]
  rfl

variable {fs}

/-- A stamp is of one file only. -/
theorem stamp_unique {f g : FileId} {st : PayloadStamp} (hf : fs.stamp f = some st)
    (hg : fs.stamp g = some st) : f = g := by
  obtain ⟨t, -, rfl⟩ := Option.map_eq_some_iff.mp hf
  obtain ⟨t', -, he⟩ := Option.map_eq_some_iff.mp hg
  exact (congrArg PayloadStamp.ino he).symm

theorem payloadStamp_eq_some {p : String} {st : PayloadStamp} :
    fs.payloadStamp p = some st ↔ ∃ f, fs.names p = some f ∧ fs.stamp f = some st :=
  Option.bind_eq_some_iff

end Files

/-- What the sender takes from other crates: the cipher, the digest, and the
random generator as the sequence of its draws. -/
structure Prims where
  aead : Aead
  blake3 : Bytes → Bytes
  randomChunkKey : ℕ → Bytes

/-- What is relied on of the cipher and the digest. -/
structure Prims.Lawful (prims : Prims) : Prop where
  aead : prims.aead.Lawful
  blake3 : Function.Injective prims.blake3

/-- A ciphertext on its way out, with what it was sealed from. -/
structure Emission where
  key : Bytes
  index : ℕ
  plain : Bytes
  cipher : Bytes
  deriving DecidableEq

def chunkSize : ℕ := 16 * 1024 * 1024

/-- `read_at_full` of one chunk. -/
def chunkAt (bytes : Bytes) (i : ℕ) : Bytes := (bytes.drop (i * chunkSize)).take chunkSize

def totalChunks (size : ℕ) : ℕ := (size + (chunkSize - 1)) / chunkSize % 2 ^ 32

/-! ### Live sends -/

/-- The digests of a payload and the key they were taken under: `PreparedChunks`
with the key of its `ReusablePrep`. -/
structure Prepared where
  key : Bytes
  totalSize : ℕ
  chunks : List Bytes
  deriving DecidableEq

/-- The reverse map of the digests: the last chunk with this digest. -/
def Prepared.index (p : Prepared) (hash : Bytes) : Option ℕ :=
  (p.chunks.zipIdx.reverse.find? fun c => c.1 = hash).map fun c => c.2 % 2 ^ 32

/-- `ChunkBackend::produce` on the fly: read the chunk now and seal it. -/
def Prepared.produce (prims : Prims) (p : Prepared) (bytes hash : Bytes) : Option Emission := do
  let idx ← p.index hash
  let buf := chunkAt bytes idx
  let ct ← sealChunk prims.aead p.key idx (totalChunks p.totalSize) buf
  return ⟨p.key, idx, buf, ct⟩

/-- A preparation that is being served, or can be. -/
structure Prep extends Prepared where
  source : SendSource
  /-- Whether it belongs to a held `send --to`, as opposed to a share. -/
  held : Bool
  /-- The stamp taken before the hashing pass of a held send. -/
  before : Option PayloadStamp
  deriving DecidableEq

/-- `PreparedChunks::compute` under way: the file is open, and the chunks so far
are hashed. A resumed send has digests to meet. -/
structure Pass extends Prep where
  file : FileId
  expected : Option (List Bytes)
  deriving DecidableEq

/-! ### Uploads -/

/-- The final component of a path, as `Path::file_name` has it. -/
def fileName (label : String) : Option String :=
  match ((label.splitOn "/").filter fun c => c ≠ "" ∧ c ≠ ".").getLast? with
  | none | some ".." => none
  | some name => some name

/-- What an upload was sealed with, as far as its ciphertext goes. -/
inductive Sealing
  | link (key : Bytes) (name : String) (size : ℕ)
  | mailbox (key : Bytes) (size : ℕ)
  deriving DecidableEq

def Sealing.key : Sealing → Bytes
  | .link key .. | .mailbox key _ => key

def Sealing.size : Sealing → ℕ
  | .link _ _ size | .mailbox _ size => size

def metaIndex : ℕ := 2 ^ 32 - 1

/-- The sealed name a link's container starts with. -/
def Sealing.header (prims : Prims) : Sealing → Option Emission
  | .mailbox .. => none
  | .link key name size => do
      let total := (size + (linkChunkSize - 1)) / linkChunkSize % 2 ^ 32
      let name := name.toUTF8.data.toList
      let ct ← sealChunk prims.aead key metaIndex total name
      return ⟨key, metaIndex, name, ct⟩

/-- `u64::to_le_bytes`. -/
def u64le (n : ℕ) : Bytes := u32le n ++ u32le (n / 2 ^ 32)

def magic : Bytes := [65, 82, 86, 76, 78, 75, 48, 49]

/-- The container, with the bytes the file has now. -/
def Sealing.layout (prims : Prims) (bytes : Bytes) : Sealing → Option SealedLayout
  | .mailbox key size => some (.mailbox bytes key size)
  | .link key name size => do
      let header ← (Sealing.link key name size).header prims
      let lead := magic ++ u32le linkChunkSize ++ u64le size ++
        u32le header.cipher.length ++ header.cipher
      return ⟨⟨bytes, key, linkChunkSize, size, lead, true, by decide, by decide⟩, .inr rfl⟩

/-- The plaintext of chunk `i` of a layout. -/
def plainUnit (l : SealedLayout) (i : ℕ) : Bytes :=
  (l.source.drop (i * l.chunkSize)).take (l.unitLen i - tag - l.framing)

/-- One turn of `SealedLayout::stream`: read and seal chunk `i`. -/
def Sealing.emitUnit (prims : Prims) (sealing : Sealing) (bytes : Bytes) (i : ℕ) :
    Option Emission := do
  let l ← sealing.layout prims bytes
  if i < l.totalChunks then
    let out ← l.unit prims.aead i
    return ⟨l.key, i, plainUnit l i, out⟩
  else none

end Arvolo.Send
