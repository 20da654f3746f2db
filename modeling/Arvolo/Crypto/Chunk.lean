import Mathlib

/-!
Sealing one chunk, `core/src/crypto.rs`.

The cipher itself, AES-256-GCM, is a parameter; what is relied on of it is
stated in `Aead.Lawful`. The nonce is the chunk index, and the associated data
binds the index and the number of chunks.
-/

namespace Arvolo.Crypto

abbrev Bytes := List UInt8

/-- An authenticated cipher: key, nonce, associated data and message. -/
structure Aead where
  encrypt : Bytes → Bytes → Bytes → Bytes → Option Bytes
  decrypt : Bytes → Bytes → Bytes → Bytes → Option Bytes

/-- AES-GCM tag length. -/
def tag : ℕ := 16

/-- The documented behaviour of AES-GCM the development relies on: a ciphertext
is the message plus the tag, messages above the limit of the mode are refused,
and what was encrypted decrypts. -/
structure Aead.Lawful (aead : Aead) : Prop where
  length_encrypt : ∀ {k n a m c}, aead.encrypt k n a m = some c → c.length = m.length + tag
  limit : ∀ {k n a m c}, aead.encrypt k n a m = some c → m.length ≤ 2 ^ 36
  decrypt_encrypt : ∀ {k n a m c}, aead.encrypt k n a m = some c → aead.decrypt k n a c = some m

/-- What is left of `whole` in a file that was cut short or written with gaps: the
bytes are those of `whole`, or zero. -/
structure Damaged (left whole : Bytes) : Prop where
  length_le : left.length ≤ whole.length
  byte : ∀ (k : ℕ) (b : UInt8), left[k]? = some b → whole[k]? = some b ∨ b = 0

/-- A damaged ciphertext does not open. -/
def Aead.RejectsDamaged (aead : Aead) : Prop :=
  ∀ {k n a m c c'}, aead.encrypt k n a m = some c → Damaged c' c → c' ≠ c →
    aead.decrypt k n a c' = none

/-- The bytes of the stand-in cipher's messages. -/
def textByte (b : UInt8) : Bool := 0 < b && b < 128

/-- A stand-in cipher of the right shape, for messages of seven-bit bytes: the
message and a tag of bytes no message has. -/
def Aead.plain : Aead where
  encrypt _ _ _ m :=
    if m.length ≤ 2 ^ 36 ∧ m.all textByte then some (m ++ List.replicate tag 255) else none
  decrypt _ _ _ c :=
    if c.drop (c.length - tag) = List.replicate tag 255 ∧ (c.take (c.length - tag)).all textByte
    then some (c.take (c.length - tag)) else none

theorem Aead.plain_lawful : Aead.plain.Lawful where
  length_encrypt h := by
    simp only [Aead.plain] at h
    split_ifs at h
    obtain rfl := Option.some.inj h
    simp
  limit h := by
    simp only [Aead.plain] at h
    split_ifs at h with hm
    exact hm.1
  decrypt_encrypt h := by
    simp only [Aead.plain] at h ⊢
    split_ifs at h with hm
    obtain rfl := Option.some.inj h
    simpa using hm.2

theorem Aead.plain_rejectsDamaged : Aead.plain.RejectsDamaged := by
  intro k n a m c c' h hdam hne
  simp only [Aead.plain] at h ⊢
  split_ifs at h with hm
  obtain rfl := Option.some.inj h
  refine if_neg fun hc => hne ?_
  obtain ⟨htag, htext⟩ := hc
  have hle : c'.length ≤ m.length + tag := by simpa using hdam.length_le
  have htaglen : tag ≤ c'.length := by
    have := congrArg List.length htag
    simp only [List.length_drop, List.length_replicate] at this
    omega
  have hpos : 0 < tag := by decide
  have hsplit : c' = c'.take (c'.length - tag) ++ List.replicate tag 255 := by
    rw [← htag, List.take_append_drop]
  -- the tag starts where the message ends, for no byte before that is 255
  have hlen : c'.length = m.length + tag := by
    by_contra hlt
    have hbyte : c'[c'.length - tag]? = some 255 := by
      have := congrArg (fun l => l[0]?) htag
      simpa [tag] using this
    rcases hdam.byte _ _ hbyte with hm' | hzero
    · rw [List.getElem?_append_left (by omega)] at hm'
      exact absurd (List.all_eq_true.mp hm.2 255 (List.mem_of_getElem? hm')) (by decide)
    · exact absurd hzero (by decide)
  have hmsg : c'.take (c'.length - tag) = m := by
    refine List.ext_getElem? fun k => ?_
    rcases Nat.lt_or_ge k m.length with hk | hk
    · have hk' : k < c'.length := by omega
      have hget : (c'.take (c'.length - tag))[k]? = some (c'.get ⟨k, hk'⟩) := by
        rw [List.getElem?_take_of_lt (by omega), List.getElem?_eq_getElem hk']
        rfl
      have hnz : textByte (c'.get ⟨k, hk'⟩) = true :=
        List.all_eq_true.mp htext _ (List.mem_of_getElem? hget)
      rw [hget]
      rcases hdam.byte k _ (List.getElem?_eq_getElem hk') with hm' | hzero
      · rw [List.getElem?_append_left hk] at hm'
        exact hm'.symm
      · rw [List.get_eq_getElem, hzero] at hnz
        exact absurd hnz (by decide)
    · rw [List.getElem?_eq_none (by simp; omega), List.getElem?_eq_none hk]
  rw [hsplit, hmsg]

/-- Messages up to the limit of the mode are encrypted. -/
def Aead.Total (aead : Aead) : Prop :=
  ∀ k n a m, m.length ≤ 2 ^ 36 → (aead.encrypt k n a m).isSome = true

/-- A stand-in cipher that takes every message within the limit. -/
def Aead.tagged : Aead where
  encrypt _ _ _ m := if m.length ≤ 2 ^ 36 then some (m ++ List.replicate tag 0) else none
  decrypt _ _ _ c := if tag ≤ c.length then some (c.take (c.length - tag)) else none

theorem Aead.tagged_lawful : Aead.tagged.Lawful where
  length_encrypt h := by
    simp only [Aead.tagged] at h
    split_ifs at h
    obtain rfl := Option.some.inj h
    simp
  limit h := by
    simp only [Aead.tagged] at h
    split_ifs at h with hm
    exact hm
  decrypt_encrypt h := by
    simp only [Aead.tagged] at h ⊢
    split_ifs at h
    obtain rfl := Option.some.inj h
    simp

theorem Aead.tagged_total : Aead.tagged.Total := by
  intro k n a m hm
  simp only [Aead.tagged, if_pos hm, Option.isSome_some]

/-- `u32::to_le_bytes`. -/
def u32le (n : ℕ) : Bytes :=
  [UInt8.ofNat n, UInt8.ofNat (n / 2 ^ 8), UInt8.ofNat (n / 2 ^ 16), UInt8.ofNat (n / 2 ^ 24)]

@[simp] theorem length_u32le (n : ℕ) : (u32le n).length = 4 := rfl

def chunkNonce (index : ℕ) : Bytes := u32le index ++ List.replicate 8 0

def chunkAad (index totalChunks : ℕ) : Bytes := u32le index ++ u32le totalChunks

def sealChunk (aead : Aead) (key : Bytes) (index totalChunks : ℕ) (plaintext : Bytes) :
    Option Bytes :=
  aead.encrypt key (chunkNonce index) (chunkAad index totalChunks) plaintext

def openChunk (aead : Aead) (key : Bytes) (index totalChunks : ℕ) (ciphertext : Bytes) :
    Option Bytes :=
  aead.decrypt key (chunkNonce index) (chunkAad index totalChunks) ciphertext

end Arvolo.Crypto
