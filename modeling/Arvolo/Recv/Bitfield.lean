import Arvolo.Crypto.Chunk

/-!
The bitfields of `core/src/swarm.rs`: which pieces of a payload are held, one
bit a piece, eight to a byte.
-/

namespace Arvolo.Recv

open Crypto (Bytes)

def bitfieldBytes (n : ℕ) : ℕ := (n + 7) / 8

def bitfieldNew (n : ℕ) : Bytes := List.replicate (bitfieldBytes n) 0

/-- Mark piece `i`; nothing happens out of range. -/
def bitfieldSet (bf : Bytes) (i : ℕ) : Bytes :=
  bf.modify (i / 8) fun b => b ||| UInt8.ofNat (2 ^ (i % 8))

def bitfieldHas (bf : Bytes) (i : ℕ) : Bool :=
  (bf[i / 8]?.map fun b => b.toNat.testBit (i % 8)).getD false

/-- How many bits are set, those past the last piece included. -/
def bitfieldCount (bf : Bytes) : ℕ :=
  (bf.map fun b => (List.range 8).countP fun k => b.toNat.testBit k).sum

@[simp] theorem length_bitfieldNew (n : ℕ) : (bitfieldNew n).length = bitfieldBytes n := by
  simp [bitfieldNew]

@[simp] theorem length_bitfieldSet (bf : Bytes) (i : ℕ) : (bitfieldSet bf i).length = bf.length := by
  simp [bitfieldSet]

@[simp] theorem bitfieldHas_new (n i : ℕ) : bitfieldHas (bitfieldNew n) i = false := by
  unfold bitfieldHas bitfieldNew
  by_cases h : i / 8 < bitfieldBytes n <;> simp [h]

theorem byte_lt_of_lt {n i : ℕ} (h : i < n) : i / 8 < bitfieldBytes n := by
  unfold bitfieldBytes
  omega

theorem testBit_or_bit (b : UInt8) {j k : ℕ} (hj : j < 8) :
    (b ||| UInt8.ofNat (2 ^ j)).toNat.testBit k = (b.toNat.testBit k || decide (j = k)) := by
  have hpow : 2 ^ j < 2 ^ 8 := Nat.pow_lt_pow_right (by decide) hj
  have hmod : (UInt8.ofNat (2 ^ j)).toNat = 2 ^ j := by
    simpa using Nat.mod_eq_of_lt hpow
  rw [UInt8.toNat_or, hmod, Nat.testBit_or, Nat.testBit_two_pow]

/-- Setting a bit in range sets that bit and no other. -/
theorem bitfieldHas_set {bf : Bytes} {i : ℕ} (h : i / 8 < bf.length) (j : ℕ) :
    bitfieldHas (bitfieldSet bf i) j = (bitfieldHas bf j || decide (i = j)) := by
  unfold bitfieldHas bitfieldSet
  rw [List.getElem?_modify]
  by_cases hbyte : i / 8 = j / 8
  · have hj : j / 8 < bf.length := hbyte ▸ h
    rw [List.getElem?_eq_getElem hj]
    simp only [hbyte, if_true, Option.map_eq_map, Option.map_some, Option.getD_some]
    rw [testBit_or_bit _ (Nat.mod_lt _ (by decide))]
    have hiff : i % 8 = j % 8 ↔ i = j := by omega
    simp only [hiff]
  · have hne : i ≠ j := fun he => hbyte (by rw [he])
    simp [hne, hbyte]

/-- Setting a bit, in range or not, sets no other. -/
theorem bitfieldHas_of_set {bf : Bytes} {i j : ℕ} (h : bitfieldHas (bitfieldSet bf i) j = true) :
    bitfieldHas bf j = true ∨ i = j := by
  rcases Nat.lt_or_ge (i / 8) bf.length with hlt | hge
  · simpa [bitfieldHas_set hlt] using h
  · left
    have hsame : bitfieldSet bf i = bf := by
      refine List.ext_getElem? fun k => ?_
      rw [bitfieldSet, List.getElem?_modify]
      split_ifs with hk
      · rw [← hk, List.getElem?_eq_none hge]
        rfl
      · simp
    rwa [hsame] at h

theorem lt_of_bitfieldHas {bf : Bytes} {i : ℕ} (h : bitfieldHas bf i = true) :
    i < 8 * bf.length := by
  by_contra hge
  have hbyte : bf.length ≤ i / 8 := by omega
  simp [bitfieldHas, List.getElem?_eq_none hbyte] at h

/-- Counting byte by byte counts the pieces. -/
theorem bitfieldCount_eq (bf : Bytes) :
    bitfieldCount bf = (List.range (8 * bf.length)).countP (bitfieldHas bf) := by
  induction bf with
  | nil => rfl
  | cons b bf ih =>
      have hlen : 8 * (b :: bf).length = 8 + 8 * bf.length := by
        rw [List.length_cons]
        ring
      have hfirst : (List.range 8).countP (bitfieldHas (b :: bf)) =
          (List.range 8).countP fun k => b.toNat.testBit k := by
        refine List.countP_congr fun k hk => ?_
        have hk8 : k < 8 := List.mem_range.mp hk
        simp [bitfieldHas, Nat.div_eq_of_lt hk8, Nat.mod_eq_of_lt hk8]
      have hrest : (List.range (8 * bf.length)).countP (bitfieldHas (b :: bf) ∘ (8 + ·)) =
          (List.range (8 * bf.length)).countP (bitfieldHas bf) := by
        refine List.countP_congr fun k _ => ?_
        have hdiv : (8 + k) / 8 = k / 8 + 1 := by omega
        simp [bitfieldHas, hdiv]
      rw [hlen, List.range_add, List.countP_append, List.countP_map, hfirst, hrest, ← ih]
      rfl

/-- A bitfield with no bit past piece `n` that counts `n` pieces has them all. -/
theorem bitfieldHas_of_count {bf : Bytes} {n : ℕ} (hclean : ∀ i, bitfieldHas bf i = true → i < n)
    (hcount : n ≤ bitfieldCount bf) {i : ℕ} (hi : i < n) : bitfieldHas bf i = true := by
  by_contra hnot
  have hsub : ((List.range (8 * bf.length)).filter (bitfieldHas bf)) ⊆ (List.range n).erase i := by
    intro k hk
    obtain ⟨-, hhas⟩ := List.mem_filter.mp hk
    have hne : k ≠ i := fun he => hnot (he ▸ hhas)
    exact (List.mem_erase_of_ne hne).mpr (List.mem_range.mpr (hclean k hhas))
  have hnodup : ((List.range (8 * bf.length)).filter (bitfieldHas bf)).Nodup :=
    List.nodup_range.filter _
  have hle := (hnodup.subperm hsub).length_le
  rw [← List.countP_eq_length_filter, ← bitfieldCount_eq,
    List.length_erase_of_mem (List.mem_range.mpr hi), List.length_range] at hle
  omega

end Arvolo.Recv
