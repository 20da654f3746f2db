import Arvolo.Lib.Codec
import Arvolo.Sync.State

/-!
The encoding of a snapshot in the local sidecar, `encode_snapshot` and
`decode_snapshot` of `core/src/sync.rs`, and the shapes it has had.

The encoding is positional and carries no version, so the decoder tries the shapes,
newest first, and counts on a shorter encoding running out of input. That holds of the
two shapes that lack fields at the end. The oldest lacks one inside its rows, and is
told apart only by what its bytes happen to spell in the next.
-/

namespace Arvolo.Sync

open Lib

/-! ### Rows -/

def lamportCodec : Codec Lamport :=
  (Codec.u64.pair (Codec.bytes 16)).xmap (fun p => ⟨p.1, p.2⟩) (fun c => (c.counter, c.device))
    (fun _ => rfl) fun _ => rfl

/-- The end of most rows. -/
def markTail : Codec (Lamport × Bool) := lamportCodec.pair Codec.bool

def contactCodec : Codec (Entry ContactReg) :=
  (Codec.text.pair (Codec.text.pair markTail)).xmap (fun p => ⟨p.1, p.2.1, p.2.2.1, p.2.2.2⟩)
    (fun e => (e.key, e.reg.pubkey, e.reg.clock, e.reg.deleted)) (fun _ => rfl) fun _ => rfl

def markCodec : Codec (Entry MarkReg) :=
  (Codec.text.pair (markTail.pair Codec.u64)).xmap (fun p => ⟨p.1, p.2.1.1, p.2.1.2, p.2.2⟩)
    (fun e => (e.key, (e.reg.clock, e.reg.deleted), e.reg.since)) (fun _ => rfl) fun _ => rfl

def seenCodec : Codec (Entry SeenReg) :=
  (Codec.text.pair (Codec.u64.pair Codec.u64)).xmap (fun p => ⟨p.1, p.2.1, p.2.2⟩)
    (fun e => (e.key, e.reg.count, e.reg.last)) (fun _ => rfl) fun _ => rfl

def nameCodec : Codec (Entry NameReg) :=
  (Codec.text.pair (Codec.text.pair (Codec.text.option.pair markTail))).xmap
    (fun p => ⟨p.1, p.2.1, p.2.2.1, p.2.2.2.1, p.2.2.2.2⟩)
    (fun e => (e.key, e.reg.pinned, e.reg.pending, e.reg.clock, e.reg.deleted))
    (fun _ => rfl) fun _ => rfl

def relayCodec : Codec (Entry RelayReg) :=
  (Codec.text.pair (Codec.text.pair markTail)).xmap (fun p => ⟨p.1, p.2.1, p.2.2.1, p.2.2.2⟩)
    (fun e => (e.key, e.reg.relay, e.reg.clock, e.reg.deleted)) (fun _ => rfl) fun _ => rfl

def deviceCodec : Codec (Entry DeviceReg) :=
  (Codec.text.pair (Codec.text.pair (Codec.text.pair (Codec.u64.pair markTail)))).xmap
    (fun p => ⟨p.1, p.2.1, p.2.2.1, p.2.2.2.1, p.2.2.2.2.1, p.2.2.2.2.2⟩)
    (fun e => (e.key, e.reg.name, e.reg.platform, e.reg.lastSeen, e.reg.clock, e.reg.deleted))
    (fun _ => rfl) fun _ => rfl

def selfNameCodec : Codec SelfName :=
  (Codec.text.pair lamportCodec).xmap (fun p => ⟨p.1, p.2⟩) (fun n => (n.name, n.clock))
    (fun _ => rfl) fun _ => rfl

/-! ### Shapes -/

structure SeenEntryV0 where
  pubkey : String
  count : ℕ
  deriving DecidableEq

structure SyncSnapshotV0 where
  lamport : ℕ
  device : DeviceId
  contacts : List (Entry ContactReg)
  verified : List (Entry MarkReg)
  trusted : List (Entry MarkReg)
  seen : List SeenEntryV0
  names : List (Entry NameReg)
  blocked : List (Entry MarkReg)
  devices : List (Entry DeviceReg)
  deriving DecidableEq

structure SyncSnapshotV1 where
  lamport : ℕ
  device : DeviceId
  contacts : List (Entry ContactReg)
  verified : List (Entry MarkReg)
  trusted : List (Entry MarkReg)
  seen : List (Entry SeenReg)
  names : List (Entry NameReg)
  blocked : List (Entry MarkReg)
  devices : List (Entry DeviceReg)
  deriving DecidableEq

structure SyncSnapshotV2 where
  lamport : ℕ
  device : DeviceId
  contacts : List (Entry ContactReg)
  verified : List (Entry MarkReg)
  trusted : List (Entry MarkReg)
  seen : List (Entry SeenReg)
  names : List (Entry NameReg)
  blocked : List (Entry MarkReg)
  devices : List (Entry DeviceReg)
  relays : List (Entry RelayReg)
  deriving DecidableEq

/-- `From<SyncSnapshotV0>`. -/
def SyncSnapshotV0.into (v : SyncSnapshotV0) : SyncSnapshot where
  lamport := v.lamport
  device := v.device
  contacts := v.contacts
  verified := v.verified
  trusted := v.trusted
  seen := v.seen.map fun e => ⟨e.pubkey, e.count, 0⟩
  names := v.names
  blocked := v.blocked
  devices := v.devices
  relays := []
  selfName := none

/-- `From<SyncSnapshotV1>`. -/
def SyncSnapshotV1.into (v : SyncSnapshotV1) : SyncSnapshot where
  lamport := v.lamport
  device := v.device
  contacts := v.contacts
  verified := v.verified
  trusted := v.trusted
  seen := v.seen
  names := v.names
  blocked := v.blocked
  devices := v.devices
  relays := []
  selfName := none

/-- `From<SyncSnapshotV2>`. -/
def SyncSnapshotV2.into (v : SyncSnapshotV2) : SyncSnapshot where
  lamport := v.lamport
  device := v.device
  contacts := v.contacts
  verified := v.verified
  trusted := v.trusted
  seen := v.seen
  names := v.names
  blocked := v.blocked
  devices := v.devices
  relays := v.relays
  selfName := none

/-- The fields before `seen`. -/
def headCodec : Codec (ℕ × DeviceId × List (Entry ContactReg) × List (Entry MarkReg) ×
    List (Entry MarkReg)) :=
  Codec.u64.pair ((Codec.bytes 16).pair
    (contactCodec.vec.pair (markCodec.vec.pair markCodec.vec)))

/-- The fields after `seen` that every shape has. -/
def tailCodec : Codec (List (Entry NameReg) × List (Entry MarkReg) × List (Entry DeviceReg)) :=
  nameCodec.vec.pair (markCodec.vec.pair deviceCodec.vec)

def seenV0Codec : Codec SeenEntryV0 :=
  (Codec.text.pair Codec.u64).xmap (fun p => ⟨p.1, p.2⟩) (fun e => (e.pubkey, e.count))
    (fun _ => rfl) fun _ => rfl

def snapshotV0Codec : Codec SyncSnapshotV0 :=
  (headCodec.pair (seenV0Codec.vec.pair tailCodec)).xmap
    (fun p => ⟨p.1.1, p.1.2.1, p.1.2.2.1, p.1.2.2.2.1, p.1.2.2.2.2, p.2.1, p.2.2.1, p.2.2.2.1,
      p.2.2.2.2⟩)
    (fun v => ((v.lamport, v.device, v.contacts, v.verified, v.trusted), v.seen, v.names,
      v.blocked, v.devices))
    (fun _ => rfl) fun _ => rfl

def snapshotV1Codec : Codec SyncSnapshotV1 :=
  (headCodec.pair (seenCodec.vec.pair tailCodec)).xmap
    (fun p => ⟨p.1.1, p.1.2.1, p.1.2.2.1, p.1.2.2.2.1, p.1.2.2.2.2, p.2.1, p.2.2.1, p.2.2.2.1,
      p.2.2.2.2⟩)
    (fun v => ((v.lamport, v.device, v.contacts, v.verified, v.trusted), v.seen, v.names,
      v.blocked, v.devices))
    (fun _ => rfl) fun _ => rfl

/-- The fields of the next shape, and one more. -/
def snapshotV2Codec : Codec SyncSnapshotV2 :=
  (snapshotV1Codec.pair relayCodec.vec).xmap
    (fun p => ⟨p.1.lamport, p.1.device, p.1.contacts, p.1.verified, p.1.trusted, p.1.seen,
      p.1.names, p.1.blocked, p.1.devices, p.2⟩)
    (fun v => (⟨v.lamport, v.device, v.contacts, v.verified, v.trusted, v.seen, v.names, v.blocked,
      v.devices⟩, v.relays))
    (fun _ => rfl) fun _ => rfl

def snapshotCodec : Codec SyncSnapshot :=
  (snapshotV2Codec.pair selfNameCodec.option).xmap
    (fun p => ⟨p.1.lamport, p.1.device, p.1.contacts, p.1.verified, p.1.trusted, p.1.seen,
      p.1.names, p.1.blocked, p.1.devices, p.1.relays, p.2⟩)
    (fun s => (⟨s.lamport, s.device, s.contacts, s.verified, s.trusted, s.seen, s.names, s.blocked,
      s.devices, s.relays⟩, s.selfName))
    (fun _ => rfl) fun _ => rfl

/-! ### Reading and writing -/

/-- `postcard::from_bytes`: what is left over is ignored. -/
def fromBytes {α : Type} (c : Codec α) (bytes : List UInt8) : Option α :=
  (c.read bytes).map Prod.fst

def encodeSnapshot (snap : SyncSnapshot) : List UInt8 := snapshotCodec.write snap

def decodeSnapshot (bytes : List UInt8) : Except String SyncSnapshot :=
  match fromBytes snapshotCodec bytes with
  | some snap => .ok snap
  | none =>
      match fromBytes snapshotV2Codec bytes with
      | some v2 => .ok v2.into
      | none =>
          match fromBytes snapshotV1Codec bytes with
          | some v1 => .ok v1.into
          | none =>
              match fromBytes snapshotV0Codec bytes with
              | some v0 => .ok v0.into
              | none => .error "deserialize sync snapshot"

/-! ### The shapes with fields at the end -/

theorem fromBytes_write {α : Type} {c : Codec α} {a : α} (h : c.Good a) :
    fromBytes c (c.write a) = some a := by
  have hread := c.read_write [] h
  rw [List.append_nil] at hread
  rw [fromBytes, hread, Option.map_some]

theorem fromBytes_eq_none {α : Type} {c : Codec α} {bytes : List UInt8} :
    fromBytes c bytes = none ↔ c.read bytes = none := Option.map_eq_none_iff

section

variable {bytes : List UInt8}

theorem snapshotV2_eq_none (h : snapshotV1Codec.read bytes = none) :
    snapshotV2Codec.read bytes = none :=
  Option.map_eq_none_iff.2 (Codec.read_pair_of_none h)

theorem snapshot_eq_none (h : snapshotV2Codec.read bytes = none) :
    snapshotCodec.read bytes = none :=
  Option.map_eq_none_iff.2 (Codec.read_pair_of_none h)

end

theorem snapshotV2_write_v1 {v : SyncSnapshotV1} (h : snapshotV1Codec.Good v) :
    snapshotV2Codec.read (snapshotV1Codec.write v) = none :=
  Option.map_eq_none_iff.2 (Codec.read_pair_write h (Codec.read_vec_nil _))

theorem snapshot_write_v2 {v : SyncSnapshotV2} (h : snapshotV2Codec.Good v) :
    snapshotCodec.read (snapshotV2Codec.write v) = none :=
  Option.map_eq_none_iff.2 (Codec.read_pair_write h (Codec.read_option_nil _))

theorem decode_current {s : SyncSnapshot} (h : snapshotCodec.Good s) :
    decodeSnapshot (encodeSnapshot s) = .ok s := by
  rw [decodeSnapshot, encodeSnapshot, fromBytes_write h]

theorem decode_v2 {v : SyncSnapshotV2} (h : snapshotV2Codec.Good v) :
    decodeSnapshot (snapshotV2Codec.write v) = .ok v.into := by
  rw [decodeSnapshot, fromBytes_eq_none.2 (snapshot_write_v2 h), fromBytes_write h]

theorem decode_v1 {v : SyncSnapshotV1} (h : snapshotV1Codec.Good v) :
    decodeSnapshot (snapshotV1Codec.write v) = .ok v.into := by
  have hv2 := snapshotV2_write_v1 h
  rw [decodeSnapshot, fromBytes_eq_none.2 (snapshot_eq_none hv2), fromBytes_eq_none.2 hv2,
    fromBytes_write h]

/-! ### The shape with shorter rows -/

/-- The fields of `SyncSnapshotV1`. -/
def SyncSnapshot.toV1 (s : SyncSnapshot) : SyncSnapshotV1 :=
  ⟨s.lamport, s.device, s.contacts, s.verified, s.trusted, s.seen, s.names, s.blocked, s.devices⟩

theorem decode_v0_of_none {v : SyncSnapshotV0} (h : snapshotV0Codec.Good v)
    (hv1 : snapshotV1Codec.read (snapshotV0Codec.write v) = none) :
    decodeSnapshot (snapshotV0Codec.write v) = .ok v.into := by
  have hv2 := snapshotV2_eq_none hv1
  rw [decodeSnapshot, fromBytes_eq_none.2 (snapshot_eq_none hv2), fromBytes_eq_none.2 hv2,
    fromBytes_eq_none.2 hv1, fromBytes_write h]

/-- Without rows the oldest shape is the next one. -/
theorem decode_v0_of_nil {v : SyncSnapshotV0} (h : snapshotV0Codec.Good v) (hseen : v.seen = []) :
    decodeSnapshot (snapshotV0Codec.write v) = .ok v.into := by
  have hbytes : snapshotV0Codec.write v = snapshotV1Codec.write v.into.toV1 := by
    obtain ⟨lamport, device, contacts, verified, trusted, seen, names, blocked, devices⟩ := v
    obtain rfl : seen = [] := hseen
    rfl
  have hgood : snapshotV1Codec.Good v.into.toV1 := by
    obtain ⟨lamport, device, contacts, verified, trusted, seen, names, blocked, devices⟩ := v
    obtain rfl : seen = [] := hseen
    exact ⟨h.1, ⟨h.2.1.1, nofun⟩, h.2.2⟩
  rw [hbytes, decode_v1 hgood]
  rfl

/-- A row of the next shape is one byte longer. -/
theorem length_seen (es : List SeenEntryV0) :
    (seenCodec.vec.write (es.map fun e => ⟨e.pubkey, e.count, 0⟩)).length =
      (seenV0Codec.vec.write es).length + es.length := by
  have hrow : ∀ e : SeenEntryV0, (seenCodec.write ⟨e.pubkey, e.count, 0⟩).length =
      (seenV0Codec.write e).length + 1 := by
    intro e
    change (Codec.text.write e.pubkey ++ (Codec.u64.write e.count ++ [0])).length =
      (Codec.text.write e.pubkey ++ Codec.u64.write e.count).length + 1
    simp only [List.length_append, List.length_cons, List.length_nil]
    omega
  have hrows : ((es.map fun e => (⟨e.pubkey, e.count, 0⟩ : Entry SeenReg)).flatMap
      seenCodec.write).length = (es.flatMap seenV0Codec.write).length + es.length := by
    induction es with
    | nil => rfl
    | cons e es ih =>
        simp only [List.map_cons, List.flatMap_cons, List.length_append, List.length_cons, hrow, ih]
        omega
  change (Codec.u64.write _ ++ _).length = (Codec.u64.write _ ++ _).length + _
  rw [List.length_append, List.length_append, hrows, List.length_map, Nat.add_assoc]

theorem length_v0 (v : SyncSnapshotV0) : (snapshotV1Codec.write v.into.toV1).length =
    (snapshotV0Codec.write v).length + v.seen.length := by
  have hseen := length_seen v.seen
  change (headCodec.write (v.lamport, v.device, v.contacts, v.verified, v.trusted) ++
      (seenCodec.vec.write (v.seen.map fun e => ⟨e.pubkey, e.count, 0⟩) ++
        tailCodec.write (v.names, v.blocked, v.devices))).length =
    (headCodec.write (v.lamport, v.device, v.contacts, v.verified, v.trusted) ++
      (seenV0Codec.vec.write v.seen ++ tailCodec.write (v.names, v.blocked, v.devices))).length + _
  simp only [List.length_append]
  omega

/-- What is read in a shape with full rows takes as many bytes as its full rows. -/
theorem length_le_of_decode {bytes : List UInt8} {s : SyncSnapshot}
    (hv1 : snapshotV1Codec.read bytes ≠ none) (h : decodeSnapshot bytes = .ok s) :
    (snapshotV1Codec.write s.toV1).length ≤ bytes.length := by
  unfold decodeSnapshot fromBytes at h
  cases hc : snapshotCodec.read bytes with
  | some r =>
      rw [hc, Option.map_some] at h
      obtain rfl : r.1 = s := Except.ok.inj h
      have hle := Codec.length_write_le hc
      change ((snapshotV1Codec.write r.1.toV1 ++ relayCodec.vec.write _) ++
        selfNameCodec.option.write _).length ≤ _ at hle
      rw [List.length_append, List.length_append] at hle
      omega
  | none =>
      rw [hc, Option.map_none] at h
      cases h2 : snapshotV2Codec.read bytes with
      | some r =>
          rw [h2, Option.map_some] at h
          obtain rfl : r.1.into = s := Except.ok.inj h
          have hle := Codec.length_write_le h2
          change (snapshotV1Codec.write r.1.into.toV1 ++ relayCodec.vec.write _).length ≤ _ at hle
          rw [List.length_append] at hle
          omega
      | none =>
          rw [h2, Option.map_none] at h
          obtain ⟨r, h1⟩ := Option.ne_none_iff_exists'.1 hv1
          rw [h1, Option.map_some] at h
          obtain rfl : r.1.into = s := Except.ok.inj h
          exact Codec.length_write_le h1

/-! ### Every shape -/

/-- A sidecar as one of the builds wrote it. -/
inductive Written
  | current (s : SyncSnapshot)
  | v2 (v : SyncSnapshotV2)
  | v1 (v : SyncSnapshotV1)
  | v0 (v : SyncSnapshotV0)

namespace Written

def bytes : Written → List UInt8
  | current s => encodeSnapshot s
  | v2 v => snapshotV2Codec.write v
  | v1 v => snapshotV1Codec.write v
  | v0 v => snapshotV0Codec.write v

/-- The state with what its shape lacks at the default. -/
def upgraded : Written → SyncSnapshot
  | current s => s
  | v2 v => v.into
  | v1 v => v.into
  | v0 v => v.into

/-- Numbers and lengths fit their words. -/
def Good : Written → Prop
  | current s => snapshotCodec.Good s
  | v2 v => snapshotV2Codec.Good v
  | v1 v => snapshotV1Codec.Good v
  | v0 v => snapshotV0Codec.Good v

/-- The bytes of the oldest shape, if it has rows, do not begin with an encoding of a
snapshot with full rows. -/
def Apart : Written → Prop
  | v0 v => v.seen ≠ [] → ∀ x, ¬ snapshotV1Codec.Starts (snapshotV0Codec.write v) x
  | _ => True

end Written

/-- A sidecar decodes to its own state, upgraded, exactly if it cannot be taken for one
of the next shape. -/
theorem decode_iff_apart (w : Written) (h : w.Good) :
    decodeSnapshot w.bytes = .ok w.upgraded ↔ w.Apart := by
  cases w with
  | current s => exact iff_of_true (decode_current h) trivial
  | v2 v => exact iff_of_true (decode_v2 h) trivial
  | v1 v => exact iff_of_true (decode_v1 h) trivial
  | v0 v =>
      constructor
      · intro hdec hseen x hx
        obtain ⟨rest, hread⟩ := Codec.starts_iff.1 hx
        have hne : snapshotV1Codec.read (snapshotV0Codec.write v) ≠ none := by
          rw [hread]
          exact nofun
        have hle := length_le_of_decode hne hdec
        have hlen := length_v0 v
        have hpos := List.length_pos_iff.2 hseen
        change (snapshotV1Codec.write v.into.toV1).length ≤ (snapshotV0Codec.write v).length at hle
        omega
      · intro hapart
        by_cases hseen : v.seen = []
        · exact decode_v0_of_nil h hseen
        · refine decode_v0_of_none h (Option.eq_none_iff_forall_ne_some.2 fun r hr => ?_)
          exact hapart hseen r.1 (Codec.starts_iff.2 ⟨r.2, hr⟩)

/-! ### Runs -/

def zeroDevice : DeviceId := ⟨List.replicate 16 0, List.length_replicate⟩

/-- One identity seen, and a row of the oldest shape with nothing in it. -/
def emptyName : Written :=
  .v0 ⟨7, zeroDevice, [], [], [], [⟨"k", 3⟩], [⟨"", ⟨"", none, ⟨0, zeroDevice⟩, false⟩⟩], [], []⟩

/-- It is read in the current shape: the row of the name is gone, and its number of rows
is when the identity was last seen. -/
theorem not_decode_emptyName : decodeSnapshot emptyName.bytes ≠ .ok emptyName.upgraded := by
  have hdec : decodeSnapshot emptyName.bytes =
      .ok ⟨7, zeroDevice, [], [], [], [⟨"k", 3, 1⟩], [], [], [], [], none⟩ := by rfl
  rw [hdec]
  intro h
  exact absurd (Except.ok.inj h) (by decide)

/-- One identity seen, and nothing else. -/
def oneSeen : Written := .v0 ⟨7, zeroDevice, [], [], [], [⟨"k", 3⟩], [], [], []⟩

theorem good_oneSeen : oneSeen.Good := by
  have hword : ∀ n, n < 2 ^ 64 → Codec.u64.Good n := fun _ h => h
  have hnil : ∀ {α : Type} (c : Codec α), c.vec.Good [] := fun c => ⟨hword 0 (by decide), nofun⟩
  have hseen : seenV0Codec.vec.Good [⟨"k", 3⟩] := by
    refine ⟨hword 1 (by decide), fun e he => ?_⟩
    obtain rfl := List.mem_singleton.1 he
    exact ⟨hword 1 (by decide), hword 3 (by decide)⟩
  exact ⟨⟨hword 7 (by decide), trivial, hnil _, hnil _, hnil _⟩, hseen, hnil _, hnil _, hnil _⟩

theorem decode_oneSeen : decodeSnapshot oneSeen.bytes = .ok oneSeen.upgraded ↔ oneSeen.Apart :=
  decode_iff_apart oneSeen good_oneSeen

end Arvolo.Sync
