import Arvolo.Crypto.Wire
import Arvolo.Lib.Utf8
import Arvolo.Send.Source

/-!
Reading a link's container back, `decrypt_link` of `core/src/link.rs`.

A container is a clear header with the sealed name, then the sealed chunks, each after
its length. `Container.open` is what any reader of the format computes once it has
settled on a number of chunks; `decryptLink` is that, with the count and the checks of
the source.
-/

namespace Arvolo.Link

open Crypto Send Upload Lib

theorem u64le_eq (n : ℕ) : u64le n = leBytes 8 n := by
  simp [u64le, u32le, leBytes, Nat.div_div_eq_div_mul]

/-- `total_chunks_for`. -/
def totalChunksFor (size chunkSize : ℕ) : ℕ :=
  (size + (chunkSize - 1)) / chunkSize % 2 ^ 32

theorem totalChunksFor_lt (size chunkSize : ℕ) : totalChunksFor size chunkSize < 2 ^ 32 :=
  Nat.mod_lt _ (by decide)

/-! ### The source -/

namespace Cursor

/-- `Cursor::take`: the cursor is what is left of the buffer. -/
def take (n : ℕ) (c : Bytes) : Except String (Bytes × Bytes) :=
  match take? n c with
  | some r => .ok r
  | none => .error "truncated link container"

def u32 (c : Bytes) : Except String (ℕ × Bytes) :=
  (take 4 c).map fun r => (ofLeBytes r.1, r.2)

def u64 (c : Bytes) : Except String (ℕ × Bytes) :=
  (take 8 c).map fun r => (ofLeBytes r.1, r.2)

end Cursor

/-- `ok_or` with a text. -/
def context {α : Type} (text : String) : Option α → Except String α
  | some a => .ok a
  | none => .error text

/-- `anyhow::ensure!`. -/
def ensure (c : Prop) [Decidable c] (text : String) : Except String Unit :=
  if c then .ok () else .error text

variable (aead : Aead) (key : Bytes)

/-- The loop over the chunks: `n` of them are left, from chunk `i` on. -/
def decryptChunks (total : ℕ) : ℕ → ℕ → Bytes → Bytes → Except String Bytes
  | 0, _, _, out => .ok out
  | n + 1, i, c, out => do
      let (ctLen, c) ← Cursor.u32 c
      let (ct, c) ← Cursor.take ctLen c
      let pt ← context ("decrypt chunk " ++ toString i) (openChunk aead key i total ct)
      decryptChunks total n (i + 1) c (out ++ pt)

def decryptLink (blob : Bytes) : Except String (String × Bytes) := do
  let (lead, c) ← Cursor.take 8 blob
  ensure (lead = magic) "not an arvolo link container"
  let (chunkSize, c) ← Cursor.u32 c
  ensure (0 < chunkSize) "invalid chunk size"
  let (size, c) ← Cursor.u64 c
  let total := totalChunksFor size chunkSize
  let (metaLen, c) ← Cursor.u32 c
  let (metaCt, c) ← Cursor.take metaLen c
  let metaPt ← context "decrypt metadata" (openChunk aead key metaIndex total metaCt)
  let name ← context "file name is not valid UTF-8" (fromUtf8 metaPt)
  let out ← decryptChunks aead key total total 0 c []
  ensure (out.length = size) "recovered size mismatch"
  return (name, out)

/-! ### The format -/

/-- The clear fields of a container and the sealed name. -/
structure Header where
  chunkSize : ℕ
  size : ℕ
  metaCt : Bytes

def Header.bytes (h : Header) : Bytes :=
  magic ++ leBytes 4 h.chunkSize ++ leBytes 8 h.size ++ leBytes 4 h.metaCt.length ++ h.metaCt

/-- The number of chunks the Rust reader expects. -/
def Header.total (h : Header) : ℕ := totalChunksFor h.size h.chunkSize

def readHeader (blob : Bytes) : Option (Header × Bytes) := do
  let (lead, c) ← take? 8 blob
  guard (lead = magic)
  let (chunkSize, c) ← word 4 c
  let (size, c) ← word 8 c
  let (metaLen, c) ← word 4 c
  let (metaCt, c) ← take? metaLen c
  return (⟨chunkSize, size, metaCt⟩, c)

/-- The plaintexts of `n` chunks from chunk `i` on, one after another. -/
def openChunks (total : ℕ) : ℕ → ℕ → Bytes → Option Bytes
  | 0, _, _ => some []
  | n + 1, i, c => do
      let (ctLen, c) ← word 4 c
      let (ct, c) ← take? ctLen c
      let pt ← openChunk aead key i total ct
      let out ← openChunks total n (i + 1) c
      return pt ++ out

/-- What a container opens to. -/
structure Opened where
  header : Header
  name : Bytes
  content : Bytes

/-- A blob read as a container, with the count of its chunks taken from the header. -/
def openWith (count : Header → ℕ) (blob : Bytes) : Option Opened := do
  let (h, c) ← readHeader blob
  let name ← openChunk aead key metaIndex (count h) h.metaCt
  let out ← openChunks aead key (count h) (count h) 0 c
  return ⟨h, name, out⟩

namespace Cursor

theorem take_eq_ok {n : ℕ} {c : Bytes} {r : Bytes × Bytes} :
    take n c = .ok r ↔ take? n c = some r := by
  unfold take
  cases take? n c with
  | none => exact ⟨nofun, nofun⟩
  | some r' => simp

theorem u32_eq_ok {c : Bytes} {r : ℕ × Bytes} : u32 c = .ok r ↔ word 4 c = some r := by
  unfold u32 word take
  cases take? 4 c with
  | none => exact ⟨nofun, nofun⟩
  | some r' => simp [Except.map]

theorem u64_eq_ok {c : Bytes} {r : ℕ × Bytes} : u64 c = .ok r ↔ word 8 c = some r := by
  unfold u64 word take
  cases take? 8 c with
  | none => exact ⟨nofun, nofun⟩
  | some r' => simp [Except.map]

end Cursor

theorem context_eq_ok {α : Type} {text : String} {x : Option α} {a : α} :
    context text x = .ok a ↔ x = some a := by
  cases x with
  | none => exact ⟨nofun, nofun⟩
  | some b => simp [context]

theorem ensure_eq_ok {c : Prop} [Decidable c] {text : String} {u : Unit} :
    ensure c text = .ok u ↔ c := by
  unfold ensure
  by_cases h : c
  · simp [h]
  · simp [h]

variable {aead key}

theorem decryptChunks_eq_ok {total n i : ℕ} {c out res : Bytes} :
    decryptChunks aead key total n i c out = .ok res ↔
      ∃ rest, openChunks aead key total n i c = some rest ∧ out ++ rest = res := by
  induction n generalizing i c out with
  | zero => simp [decryptChunks, openChunks]
  | succ n ih =>
      simp only [decryptChunks, openChunks, bind_eq_ok, Cursor.u32_eq_ok, Cursor.take_eq_ok,
        context_eq_ok, ih, Option.bind_eq_bind, Option.bind_eq_some_iff, Option.pure_def,
        Option.some.injEq]
      constructor
      · rintro ⟨⟨len, c₁⟩, hlen, ⟨ct, c₂⟩, hct, pt, hpt, rest, hrest, rfl⟩
        exact ⟨pt ++ rest, ⟨_, hlen, _, hct, pt, hpt, rest, hrest, rfl⟩, by simp⟩
      · rintro ⟨-, ⟨⟨len, c₁⟩, hlen, ⟨ct, c₂⟩, hct, pt, hpt, rest, hrest, rfl⟩, rfl⟩
        exact ⟨_, hlen, _, hct, pt, hpt, rest, hrest, by simp⟩

/-- What `decrypt_link` accepts. -/
theorem decryptLink_eq_ok {blob : Bytes} {name : String} {out : Bytes} :
    decryptLink aead key blob = .ok (name, out) ↔
      ∃ o, openWith aead key Header.total blob = some o ∧ 0 < o.header.chunkSize ∧
        fromUtf8 o.name = some name ∧ o.content.length = o.header.size ∧
        o.content = out := by
  simp only [decryptLink, openWith, readHeader, bind_eq_ok, Cursor.u32_eq_ok, Cursor.u64_eq_ok,
    Cursor.take_eq_ok, context_eq_ok, ensure_eq_ok, decryptChunks_eq_ok, Option.bind_eq_bind,
    Option.bind_eq_some_iff, Option.pure_def, Option.some.injEq, List.nil_append, pure_eq_ok,
    guard_eq_some, Prod.mk.injEq]
  constructor
  · rintro ⟨⟨lead, c⟩, hlead, -, hmagic, ⟨cs, c₁⟩, hcs, -, hpos, ⟨size, c₂⟩, hsize, ⟨len, c₃⟩, hlen,
      ⟨ct, c₄⟩, hct, pt, hpt, name, hname, out, ⟨out, hout, rfl⟩, -, heq, rfl, rfl⟩
    exact ⟨_, ⟨_, ⟨_, hlead, (), hmagic, _, hcs, _, hsize, _, hlen, _, hct, rfl⟩, _, hpt, _, hout,
      rfl⟩, hpos, hname, heq, rfl⟩
  · rintro ⟨-, ⟨-, ⟨⟨lead, c⟩, hlead, -, hmagic, ⟨cs, c₁⟩, hcs, ⟨size, c₂⟩, hsize, ⟨len, c₃⟩, hlen,
      ⟨ct, c₄⟩, hct, rfl⟩, pt, hpt, out, hout, rfl⟩, hpos, hname, heq, rfl⟩
    exact ⟨_, hlead, (), hmagic, _, hcs, (), hpos, _, hsize, _, hlen, _, hct, _, hpt, _, hname, _,
      ⟨_, hout, rfl⟩, (), heq, rfl, rfl⟩

end Arvolo.Link
