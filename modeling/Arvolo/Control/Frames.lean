import Arvolo.Crypto.Wire
import Arvolo.Lib.Codec

/-!
The frames of the control channel: `CtrlMsg`, `write_msg` and `read_msg` of
`core/src/chunked.rs`.

A message goes out behind its length. The writer takes a message of any length, the reader
stops at a longer one than it allows.
-/

namespace Arvolo.Control.Wire

open Crypto Lib

inductive CtrlMsg
  | hello
  | ping
  | have_ (idx : UInt32)
  | relayHas (indices : List UInt32)
  | abort

/-- `postcard::to_allocvec` -/
def CtrlMsg.encode : CtrlMsg → Bytes
  | hello => Codec.u32.write 0
  | ping => Codec.u32.write 1
  | have_ idx => Codec.u32.write 2 ++ Codec.u32.write idx
  | relayHas indices => Codec.u32.write 3 ++ Codec.u32.vec.write indices
  | abort => Codec.u32.write 4

/-- `postcard::from_bytes`; what is left over does not matter. -/
def fromBytes (s : Bytes) : Option CtrlMsg := do
  let (variant, s) ← Codec.u32.read s
  match variant.toNat with
  | 0 => return .hello
  | 1 => return .ping
  | 2 => return .have_ (← Codec.u32.read s).1
  | 3 => return .relayHas (← Codec.u32.vec.read s).1
  | 4 => return .abort
  | _ => none

def maxFrame : ℕ := 64 * 1024

def writeMsg (msg : CtrlMsg) : Bytes := u32le msg.encode.length ++ msg.encode

/-- The message at the front of the stream, and the rest of it. -/
def readMsg (s : Bytes) : Option (CtrlMsg × Bytes) := do
  let (len, s) ← word 4 s
  if maxFrame < len then none
  else do
    let (buf, s) ← take? len s
    return (← fromBytes buf, s)

/-! ### One message -/

/-- What a vector in memory can be. -/
def CtrlMsg.Good : CtrlMsg → Prop
  | relayHas indices => indices.length < 2 ^ 64
  | hello | ping | have_ _ | abort => True

theorem fromBytes_encode {msg : CtrlMsg} (h : msg.Good) : fromBytes msg.encode = some msg := by
  have hread (n : UInt32) (s : Bytes) : Codec.u32.read (Codec.u32.write n ++ s) = some (n, s) :=
    Codec.u32.read_write s trivial
  have hnil (n : UInt32) : Codec.u32.read (Codec.u32.write n) = some (n, []) := by
    simpa using hread n []
  cases msg with
  | hello => rw [CtrlMsg.encode, fromBytes, hnil]; rfl
  | ping => rw [CtrlMsg.encode, fromBytes, hnil]; rfl
  | have_ idx =>
      rw [CtrlMsg.encode, fromBytes, hread]
      simp [hnil]
  | relayHas indices =>
      have hvec := Codec.u32.vec.read_write (a := indices) [] ⟨h, fun _ _ => trivial⟩
      rw [List.append_nil] at hvec
      rw [CtrlMsg.encode, fromBytes, hread]
      simp [hvec]
  | abort => rw [CtrlMsg.encode, fromBytes, hnil]; rfl

/-- A message is read from no fewer bytes than it is written as. -/
theorem length_encode_le {s : Bytes} {msg : CtrlMsg} (h : fromBytes s = some msg) :
    msg.encode.length ≤ s.length := by
  rw [fromBytes] at h
  obtain ⟨⟨variant, s'⟩, hvariant, -⟩ := Option.bind_eq_some_iff.1 h
  rw [hvariant, Option.bind_eq_bind, Option.bind_some] at h
  dsimp only at h
  obtain ⟨-, lead, rfl, hlead, -⟩ := Codec.u32.read_sound hvariant
  rw [Codec.length_write_u32] at hlead
  have hone (n : UInt32) (hn : n.toNat < 128) : (Codec.u32.write n).length = 1 := by
    rw [Codec.length_write_u32, Nat.log_of_lt hn]
  rw [List.length_append]
  split at h
  next =>
    obtain rfl := Option.some.inj h
    rw [CtrlMsg.encode, hone 0 (by decide)]
    omega
  next =>
    obtain rfl := Option.some.inj h
    rw [CtrlMsg.encode, hone 1 (by decide)]
    omega
  next =>
    obtain ⟨⟨idx, rest⟩, hidx, h⟩ := Option.bind_eq_some_iff.1 h
    obtain rfl := Option.some.inj h
    have hlen := Codec.length_write_le hidx
    rw [CtrlMsg.encode, List.length_append, hone 2 (by decide)]
    dsimp only
    omega
  next =>
    obtain ⟨⟨indices, rest⟩, hindices, h⟩ := Option.bind_eq_some_iff.1 h
    obtain rfl := Option.some.inj h
    have hlen := Codec.length_write_le hindices
    rw [CtrlMsg.encode, List.length_append, hone 3 (by decide)]
    dsimp only
    omega
  next =>
    obtain rfl := Option.some.inj h
    rw [CtrlMsg.encode, hone 4 (by decide)]
    omega
  next => cases h

/-- A frame comes through if it is no longer than the reader allows. -/
theorem readMsg_writeMsg {msg : CtrlMsg} (hmsg : msg.Good) (rest : Bytes) :
    readMsg (writeMsg msg ++ rest) = some (msg, rest) ↔ msg.encode.length ≤ maxFrame := by
  have hword : word 4 (writeMsg msg ++ rest) =
      some (msg.encode.length % 256 ^ 4, msg.encode ++ rest) := by
    rw [writeMsg, u32le_eq, ← leBytes_mod, List.append_assoc]
    exact word_leBytes (Nat.mod_lt _ (by norm_num)) _
  rw [readMsg, hword, Option.bind_eq_bind, Option.bind_some]
  dsimp only
  constructor
  · intro h
    obtain ⟨hle, h⟩ := Option.ite_none_left_eq_some.1 h
    obtain ⟨⟨buf, s⟩, htake, h⟩ := Option.bind_eq_some_iff.1 h
    obtain ⟨read, hread, h⟩ := Option.bind_eq_some_iff.1 h
    obtain ⟨rfl, rfl⟩ := Prod.mk.inj (Option.some.inj h)
    have hlen := length_encode_le hread
    rw [(take?_eq_some.1 htake).2] at hlen
    omega
  · intro hle
    have hmod : msg.encode.length % 256 ^ 4 = msg.encode.length :=
      Nat.mod_eq_of_lt (by rw [maxFrame] at hle; norm_num; omega)
    rw [hmod, if_neg (not_lt.2 hle), take?_append, Option.bind_eq_bind, Option.bind_some,
      fromBytes_encode hmsg]
    rfl

/-! ### What the protocol writes -/

/-- How many bytes an index takes. -/
def indexBytes (i : ℕ) : ℕ := Nat.log 128 i + 1

/-- What the two sides write: the sender the chunks that the relay holds, each once. -/
def Written : CtrlMsg → Prop
  | .relayHas held => held.Nodup
  | .hello | .ping | .have_ _ | .abort => True

/-- The indices, behind their count and the byte of the variant, fit into a frame. -/
def Fits : CtrlMsg → Prop
  | .relayHas held =>
      1 + indexBytes held.length + (held.map fun i => indexBytes i.toNat).sum ≤ maxFrame
  | .hello | .ping | .have_ _ | .abort => True

theorem toNat_nodup {held : List UInt32} (h : held.Nodup) : (held.map UInt32.toNat).Nodup :=
  h.map fun _ _ => UInt32.toNat_inj.1

theorem length_le_of_nodup {held : List UInt32} (h : held.Nodup) {total : ℕ}
    (hheld : ∀ i ∈ held, i.toNat < total) : held.length ≤ total := by
  have hsub : (held.map UInt32.toNat).toFinset ⊆ Finset.range total := by
    intro i hi
    obtain ⟨n, hn, rfl⟩ := List.mem_map.1 (List.mem_toFinset.1 hi)
    exact Finset.mem_range.2 (hheld n hn)
  have hcard := Finset.card_le_card hsub
  rwa [List.toFinset_card_of_nodup (toNat_nodup h), List.length_map, Finset.card_range] at hcard

theorem Written.good {msg : CtrlMsg} (h : Written msg) : msg.Good := by
  cases msg with
  | relayHas held =>
      have hlen := length_le_of_nodup h fun i _ => i.toNat_lt
      exact lt_of_le_of_lt hlen (by norm_num)
  | hello | ping | have_ _ | abort => trivial

theorem length_flatMap_write (held : List UInt32) :
    (held.flatMap Codec.u32.write).length = (held.map fun i => indexBytes i.toNat).sum := by
  rw [List.length_flatMap]
  simp only [Codec.length_write_u32, indexBytes]

theorem fits_iff {msg : CtrlMsg} (h : Written msg) : msg.encode.length ≤ maxFrame ↔ Fits msg := by
  have hone (n : UInt32) (hn : n.toNat < 128) : (Codec.u32.write n).length = 1 := by
    rw [Codec.length_write_u32, Nat.log_of_lt hn]
  have hidx (n : UInt32) : (Codec.u32.write n).length ≤ 5 := by
    have hn := n.toNat_lt
    have hlog : Nat.log 128 n.toNat < 5 := by
      rcases eq_or_ne n.toNat 0 with hzero | hpos
      · simp [hzero]
      · exact Nat.log_lt_of_lt_pow hpos (by norm_num; omega)
    rw [Codec.length_write_u32]
    omega
  cases msg with
  | relayHas held =>
      have hcount : (Codec.u64.write held.length).length = indexBytes held.length :=
        Codec.length_writeVarint (h.good.trans (by norm_num))
      have hvec : (Codec.u32.vec.write held).length =
          indexBytes held.length + (held.map fun i => indexBytes i.toNat).sum := by
        rw [← hcount, ← length_flatMap_write, ← List.length_append]
        rfl
      rw [CtrlMsg.encode, List.length_append, hone 3 (by decide), hvec, Fits, Nat.add_assoc]
  | have_ idx =>
      have h5 := hidx idx
      rw [CtrlMsg.encode, List.length_append, hone 2 (by decide), Fits, maxFrame]
      simp only [iff_true]
      omega
  | hello | ping | abort => simp [CtrlMsg.encode, hone, Fits, maxFrame]

/-- Every message of the protocol comes through but a `RelayHas` of too many or too high indices,
which ends the reading of the channel. -/
theorem readMsg_writeMsg_iff (msg : CtrlMsg) (h : Written msg) (rest : Bytes) :
    readMsg (writeMsg msg ++ rest) = some (msg, rest) ↔ Fits msg :=
  (readMsg_writeMsg h.good rest).trans (fits_iff h)

theorem readMsg_writeMsg_relayHas : readMsg (writeMsg (.relayHas [0, 300]) ++ [7]) =
    some (.relayHas [0, 300], [7]) ↔ Fits (.relayHas [0, 300]) :=
  readMsg_writeMsg_iff (.relayHas [0, 300]) (by simp [Written]) [7]

/-! ### How large a payload may be -/

/-- The messages about a payload of so many chunks. -/
def About (total : ℕ) : CtrlMsg → Prop
  | .relayHas held => held.Nodup ∧ ∀ i ∈ held, i.toNat < total
  | .have_ idx => idx.toNat < total
  | .hello | .ping | .abort => True

/-- The bytes of all indices below `n`. -/
def allBytes (n : ℕ) : ℕ := ∑ i ∈ Finset.range n, indexBytes i

theorem indexBytes_eq {k i : ℕ} (hlo : 128 ^ k ≤ i) (hhi : i < 128 ^ (k + 1)) :
    indexBytes i = k + 1 := by
  rw [indexBytes, Nat.log_eq_of_pow_le_of_lt_pow hlo hhi]

theorem allBytes_add {k lo n : ℕ} (hlo : 128 ^ k ≤ lo) (hn : lo + n ≤ 128 ^ (k + 1)) :
    allBytes (lo + n) = allBytes lo + n * (k + 1) := by
  induction n with
  | zero => simp
  | succ n ih =>
      have hnext : allBytes (lo + n + 1) = allBytes (lo + n) + indexBytes (lo + n) :=
        Finset.sum_range_succ _ _
      rw [← Nat.add_assoc, hnext, ih (by omega), indexBytes_eq (k := k) (by omega) (by omega),
        Nat.add_mul, Nat.one_mul, Nat.add_assoc]

/-- Three bytes for each index from the third group on. -/
theorem allBytes_eq {n : ℕ} (h : 16384 + n ≤ 128 ^ 3) : allBytes (16384 + n) = 32640 + n * 3 := by
  have hone : allBytes 128 = 128 := by
    have hsum : allBytes (1 + 127) = allBytes 1 + 127 * (0 + 1) :=
      allBytes_add (by norm_num) (by norm_num)
    simpa [allBytes, indexBytes] using hsum
  have htwo : allBytes (128 + 16256) = allBytes 128 + 16256 * (1 + 1) :=
    allBytes_add (by norm_num) (by norm_num)
  rw [allBytes_add (k := 2) (by norm_num) h, htwo, hone]

theorem sum_map_range (n : ℕ) : ((List.range n).map indexBytes).sum = allBytes n := by
  induction n with
  | zero => rfl
  | succ n ih =>
      rw [List.range_succ, List.map_append, List.sum_append, ih, List.map_singleton,
        List.sum_singleton]
      exact (Finset.sum_range_succ _ _).symm

theorem sum_map_toNat (held : List UInt32) : (held.map fun i => indexBytes i.toNat).sum =
    ((held.map UInt32.toNat).map indexBytes).sum := by
  rw [List.map_map]
  rfl

theorem sum_le_allBytes {held : List UInt32} (h : held.Nodup) {total : ℕ}
    (hheld : ∀ i ∈ held, i.toNat < total) :
    (held.map fun i => indexBytes i.toNat).sum ≤ allBytes total := by
  have hsub : (held.map UInt32.toNat).toFinset ⊆ Finset.range total := by
    intro i hi
    obtain ⟨n, hn, rfl⟩ := List.mem_map.1 (List.mem_toFinset.1 hi)
    exact Finset.mem_range.2 (hheld n hn)
  calc (held.map fun i => indexBytes i.toNat).sum
      = ((held.map UInt32.toNat).map indexBytes).sum := sum_map_toNat held
    _ = ∑ i ∈ (held.map UInt32.toNat).toFinset, indexBytes i :=
        (List.sum_toFinset _ (toNat_nodup h)).symm
    _ ≤ allBytes total := Finset.sum_le_sum_of_subset hsub

/-- All chunks of a payload of 27349. -/
def tooMany : List UInt32 := (List.range 27349).map UInt32.ofNat

theorem map_toNat_tooMany : tooMany.map UInt32.toNat = List.range 27349 := by
  rw [tooMany, List.map_map]
  refine (List.map_congr_left fun i hi => ?_).trans (List.map_id _)
  have hlt := List.mem_range.1 hi
  exact UInt32.toNat_ofNat_of_lt' (by simp [UInt32.size]; omega)

theorem written_tooMany : Written (.relayHas tooMany) := by
  have hnodup : (tooMany.map UInt32.toNat).Nodup := by
    rw [map_toNat_tooMany]
    exact List.nodup_range
  exact hnodup.of_map _

theorem not_fits_tooMany : ¬ Fits (.relayHas tooMany) := by
  have hcount : tooMany.length = 27349 := by rw [tooMany, List.length_map, List.length_range]
  have hsum : (tooMany.map fun i => indexBytes i.toNat).sum = allBytes 27349 := by
    rw [sum_map_toNat, map_toNat_tooMany, sum_map_range]
  have hall : allBytes 27349 = 65535 := allBytes_eq (n := 10965) (by norm_num)
  rw [Fits, hcount, hsum, hall, indexBytes, maxFrame]
  omega

/-- Of a payload of up to 27348 chunks, whatever the relay holds of it can be said; of a larger
one, that the relay holds all of it can not. -/
theorem forall_readMsg_iff {total : ℕ} :
    (∀ msg, About total msg → ∀ rest, readMsg (writeMsg msg ++ rest) = some (msg, rest)) ↔
      total ≤ 27348 := by
  constructor
  · intro h
    by_contra hlarge
    have habout : About total (.relayHas tooMany) := by
      refine ⟨written_tooMany, fun i hi => ?_⟩
      have hmem : i.toNat ∈ tooMany.map UInt32.toNat := List.mem_map_of_mem hi
      rw [map_toNat_tooMany, List.mem_range] at hmem
      omega
    have hread := h _ habout []
    rw [readMsg_writeMsg written_tooMany.good, fits_iff written_tooMany] at hread
    exact not_fits_tooMany hread
  · intro htotal msg habout rest
    have hwritten : Written msg := by
      cases msg with
      | relayHas held => exact habout.1
      | hello | ping | have_ _ | abort => trivial
    rw [readMsg_writeMsg hwritten.good, fits_iff hwritten]
    cases msg with
    | relayHas held =>
        have hcount := length_le_of_nodup habout.1 habout.2
        have hsum := sum_le_allBytes habout.1 fun i hi => (habout.2 i hi).trans_le htotal
        have hall : allBytes 27348 = 65532 := allBytes_eq (n := 10964) (by norm_num)
        have hbytes : indexBytes held.length ≤ 3 := by
          have hlog := Nat.log_mono_right (b := 128) (hcount.trans htotal)
          have htop : indexBytes 27348 = 3 := indexBytes_eq (k := 2) (by norm_num) (by norm_num)
          rw [indexBytes] at htop ⊢
          omega
        rw [Fits, maxFrame]
        omega
    | hello | ping | have_ _ | abort => trivial

theorem not_readMsg_tooMany : ¬ ∀ msg, Written msg → ∀ rest,
    readMsg (writeMsg msg ++ rest) = some (msg, rest) := by
  intro h
  have hread := h _ written_tooMany []
  rw [readMsg_writeMsg written_tooMany.good, fits_iff written_tooMany] at hread
  exact not_fits_tooMany hread

end Arvolo.Control.Wire
