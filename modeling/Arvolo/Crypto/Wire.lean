import Arvolo.Crypto.Chunk
import Arvolo.Lib.Parse

/-!
The words of sealed chunks, what binds a ciphertext to its chunk, and a stand-in cipher
that spells these words out in its tag.
-/

namespace Arvolo.Crypto

open Lib

theorem u32le_eq (n : ℕ) : u32le n = leBytes 4 n := by
  simp [u32le, leBytes, Nat.div_div_eq_div_mul]

/-- A ciphertext opens as the chunk it was sealed as, and as no other. -/
def Aead.BindsIndex (aead : Aead) : Prop :=
  ∀ {k m m' c : Bytes} {i j total total' : ℕ}, i < 2 ^ 32 → j < 2 ^ 32 →
    sealChunk aead k i total m = some c → openChunk aead k j total' c = some m' → i = j

/-- The last half of a stand-in tag: the length of the message, and a mark. -/
def spelledEnd (m : Bytes) : Bytes := leBytes 5 m.length ++ [165, 90, 165]

/-- A stand-in cipher whose tag spells out the index, the count and the length. -/
def spelledTag (n a m : Bytes) : Bytes :=
  (n.take 4 ++ (a.drop 4).take 4 ++ spelledEnd m ++ List.replicate tag 0).take tag

def spelled : Aead where
  encrypt _ n a m := if m.length ≤ 2 ^ 36 then some (m ++ spelledTag n a m) else none
  decrypt _ n a c :=
    let m := c.take (c.length - tag)
    if tag ≤ c.length ∧ c.drop (c.length - tag) = spelledTag n a m then some m else none

theorem length_spelledTag (n a m : Bytes) : (spelledTag n a m).length = tag := by
  simp only [spelledTag, List.length_take, List.length_append, List.length_replicate]
  omega

theorem spelled_lawful : spelled.Lawful where
  length_encrypt h := by
    simp only [spelled] at h
    split_ifs at h
    obtain rfl := Option.some.inj h
    rw [List.length_append, length_spelledTag]
  limit h := by
    simp only [spelled] at h
    split_ifs at h with hm
    exact hm
  decrypt_encrypt h := by
    simp only [spelled] at h ⊢
    split_ifs at h
    obtain rfl := Option.some.inj h
    simp [length_spelledTag]

theorem spelled_total : spelled.Total := by
  intro k n a m hm
  simp only [spelled, if_pos hm, Option.isSome_some]

theorem spelledTag_chunk (idx total : ℕ) (m : Bytes) :
    spelledTag (chunkNonce idx) (chunkAad idx total) m =
      leBytes 4 idx ++ leBytes 4 total ++ spelledEnd m := by
  have hidx : (u32le idx ++ List.replicate 8 0).take 4 = u32le idx := rfl
  have htotal : ((u32le idx ++ u32le total).drop 4).take 4 = u32le total := rfl
  rw [spelledTag, chunkNonce, chunkAad, hidx, htotal, u32le_eq, u32le_eq]
  exact List.take_left' (by simp [spelledEnd, tag])

theorem spelled_bindsIndex : spelled.BindsIndex := by
  intro k m m' c i j total total' hi hj hseal hopen
  simp only [sealChunk, spelled, spelledTag_chunk] at hseal
  split_ifs at hseal
  obtain rfl := Option.some.inj hseal
  simp only [openChunk, spelled, spelledTag_chunk] at hopen
  split_ifs at hopen with htag
  have hlen : (leBytes 4 i ++ leBytes 4 total ++ spelledEnd m).length = tag := by
    simp [spelledEnd, tag]
  have heq := htag.2
  rw [List.length_append, hlen, Nat.add_sub_cancel, List.drop_left, List.take_left] at heq
  have hfour : ∀ n t : ℕ, ((leBytes 4 n ++ leBytes 4 t) ++ spelledEnd m).take 4 = leBytes 4 n := by
    intro n t
    rw [List.append_assoc]
    exact List.take_left' (length_leBytes 4 n)
  exact leBytes_inj hi hj (by rw [← hfour i total, heq, hfour])

end Arvolo.Crypto
