import Arvolo.Lib.KeyedMap

/-!
The address-book CRDT of `core/src/sync.rs`: its registers, the canonical
state, the wire snapshot and the merge.

Counters and times are natural numbers: the source keeps them in `u64` and
only ever adds one or takes a maximum. A `BTreeMap` is an `ExtTreeMap`, whose
equality is equality of the bindings, as the derived `PartialEq` of the source
is.
-/

namespace Arvolo.Sync

open Std

/-- A local, per-device random id: sixteen bytes. -/
def DeviceId := { bytes : List UInt8 // bytes.length = 16 }
  deriving DecidableEq

/-- Byte arrays compare lexicographically. -/
instance : LinearOrder DeviceId :=
  LinearOrder.lift' (fun d => d.val.map UInt8.toNat) (by
    intro a b h
    exact Subtype.ext ((List.map_injective_iff.mpr fun _ _ => UInt8.toNat.inj) h))

/-- A Lamport timestamp: by counter, ties broken by device. -/
@[ext]
structure Lamport where
  counter : ℕ
  device : DeviceId
  deriving DecidableEq

def Lamport.key (c : Lamport) : ℕ ×ₗ DeviceId := toLex (c.counter, c.device)

theorem Lamport.key_injective : Function.Injective Lamport.key := by
  intro a b h
  have hp : (a.counter, a.device) = (b.counter, b.device) := toLex.injective h
  exact Lamport.ext (congrArg Prod.fst hp) (congrArg Prod.snd hp)

instance : LinearOrder Lamport := LinearOrder.lift' Lamport.key Lamport.key_injective

theorem Lamport.counter_le {a b : Lamport} (h : a ≤ b) : a.counter ≤ b.counter := by
  have hk : toLex (a.counter, a.device) ≤ toLex (b.counter, b.device) := h
  rw [Prod.Lex.toLex_le_toLex] at hk
  rcases hk with hlt | ⟨heq, _⟩
  · exact hlt.le
  · exact heq.le

/-- A `BTreeMap<String, _>`. -/
abbrev Map (β : Type) := ExtTreeMap String β

structure ContactReg where
  pubkey : String
  clock : Lamport
  deleted : Bool
  deriving DecidableEq

structure MarkReg where
  clock : Lamport
  deleted : Bool
  since : ℕ
  deriving DecidableEq

structure NameReg where
  pinned : String
  pending : Option String
  clock : Lamport
  deleted : Bool
  deriving DecidableEq

structure RelayReg where
  relay : String
  clock : Lamport
  deleted : Bool
  deriving DecidableEq

structure SeenReg where
  count : ℕ := 0
  last : ℕ := 0
  deriving DecidableEq

structure SelfName where
  name : String
  clock : Lamport
  deriving DecidableEq

structure DeviceReg where
  name : String
  platform : String
  lastSeen : ℕ
  clock : Lamport
  deleted : Bool
  deriving DecidableEq

def hexDigit (n : ℕ) : Char :=
  if n < 10 then Char.ofNat ('0'.toNat + n) else Char.ofNat ('a'.toNat + (n - 10))

/-- A device id as it keys the device register: lowercase hex. -/
def deviceKey (id : DeviceId) : String :=
  String.ofList (id.val.flatMap fun b => [hexDigit (b.toNat / 16), hexDigit (b.toNat % 16)])

/-- The canonical, in-memory CRDT state. -/
@[ext]
structure SyncState where
  contacts : Map ContactReg := ∅
  verified : Map MarkReg := ∅
  trusted : Map MarkReg := ∅
  seen : Map SeenReg := ∅
  names : Map NameReg := ∅
  blocked : Map MarkReg := ∅
  relays : Map RelayReg := ∅
  devices : Map DeviceReg := ∅
  selfName : Option SelfName := none
  deriving DecidableEq

/-! ### The wire snapshot

Every entry of the snapshot is a register with its key repeated in the row;
`Entry` is that pair, one for all the entry types of the source. -/

structure Entry (R : Type) where
  key : String
  reg : R
  deriving DecidableEq

structure SyncSnapshot where
  lamport : ℕ
  device : DeviceId
  contacts : List (Entry ContactReg)
  verified : List (Entry MarkReg)
  trusted : List (Entry MarkReg)
  seen : List (Entry SeenReg)
  names : List (Entry NameReg)
  blocked : List (Entry MarkReg)
  devices : List (Entry DeviceReg)
  relays : List (Entry RelayReg)
  selfName : Option SelfName
  deriving DecidableEq

def toEntries {R : Type} (m : Map R) : List (Entry R) :=
  m.toList.map fun e => ⟨e.1, e.2⟩

def ofEntries {R : Type} (es : List (Entry R)) : Map R :=
  es.foldl (fun m e => m.insert e.key e.reg) ∅

@[simp] theorem ofEntries_toEntries {R : Type} (m : Map R) : ofEntries (toEntries m) = m := by
  unfold ofEntries toEntries
  rw [List.foldl_map]
  exact Lib.foldl_insert_toList m

def SyncState.fromSnapshot (s : SyncSnapshot) : SyncState where
  contacts := ofEntries s.contacts
  verified := ofEntries s.verified
  trusted := ofEntries s.trusted
  seen := ofEntries s.seen
  names := ofEntries s.names
  blocked := ofEntries s.blocked
  relays := ofEntries s.relays
  devices := ofEntries s.devices
  selfName := s.selfName

def SyncState.toSnapshot (s : SyncState) (lamport : ℕ) (device : DeviceId) : SyncSnapshot where
  lamport := lamport
  device := device
  contacts := toEntries s.contacts
  verified := toEntries s.verified
  trusted := toEntries s.trusted
  seen := toEntries s.seen
  names := toEntries s.names
  blocked := toEntries s.blocked
  devices := toEntries s.devices
  relays := toEntries s.relays
  selfName := s.selfName

/-- Publishing a state and reading it back loses nothing. -/
@[simp] theorem SyncState.fromSnapshot_toSnapshot (s : SyncState) (lamport : ℕ)
    (device : DeviceId) : fromSnapshot (s.toSnapshot lamport device) = s := by
  simp [fromSnapshot, toSnapshot]

/-! ### Merge -/

/-- Last writer wins: what is held stays unless the incoming clock is higher. -/
def takeNewer {R : Type} (clock : R → Lamport) (cur : Option R) (incoming : R) : Option R :=
  match cur with
  | some c => if clock c ≥ clock incoming then none else some incoming
  | none => some incoming

/-- Last writer wins, and on an exact clock tie a tombstone wins. -/
def takeNewerOrDeleted {R : Type} (clock : R → Lamport) (deleted : R → Bool)
    (cur : Option R) (incoming : R) : Option R :=
  match cur with
  | some c =>
      if clock c > clock incoming then none
      else if clock c = clock incoming then
        if deleted incoming && !deleted c then some incoming else none
      else some incoming
  | none => some incoming

def mergeContacts (into other : Map ContactReg) : Map ContactReg :=
  Lib.foldInto (fun _ => takeNewer ContactReg.clock) into other

def mergeNames (into other : Map NameReg) : Map NameReg :=
  Lib.foldInto (fun _ => takeNewer NameReg.clock) into other

def mergeRelays (into other : Map RelayReg) : Map RelayReg :=
  Lib.foldInto (fun _ => takeNewer RelayReg.clock) into other

def mergeMarks (into other : Map MarkReg) : Map MarkReg :=
  Lib.foldInto (fun _ => takeNewerOrDeleted MarkReg.clock MarkReg.deleted) into other

/-- Last writer wins, and a live row is only taken from the machine it
describes. -/
def mergeDevices (into other : Map DeviceReg) : Map DeviceReg :=
  Lib.foldInto (fun id cur incoming =>
    if !incoming.deleted && deviceKey incoming.clock.device != id then none
    else takeNewerOrDeleted DeviceReg.clock DeviceReg.deleted cur incoming) into other

def mergeSeen (into other : Map SeenReg) : Map SeenReg :=
  Lib.foldInto (fun _ cur incoming =>
    let e := cur.getD {}
    some { count := max e.count incoming.count, last := max e.last incoming.last }) into other

def mergeSelfName (cur incoming : Option SelfName) : Option SelfName :=
  match incoming with
  | some i => (takeNewer SelfName.clock cur i).or cur
  | none => cur

/-- Merge `other` into `s`. -/
def SyncState.merge (s other : SyncState) : SyncState where
  contacts := mergeContacts s.contacts other.contacts
  verified := mergeMarks s.verified other.verified
  trusted := mergeMarks s.trusted other.trusted
  blocked := mergeMarks s.blocked other.blocked
  seen := mergeSeen s.seen other.seen
  names := mergeNames s.names other.names
  relays := mergeRelays s.relays other.relays
  devices := mergeDevices s.devices other.devices
  selfName := mergeSelfName s.selfName other.selfName

/-- The highest counter among the values of one map, from `m` up. -/
def maxOver {R : Type} (clock : R → Lamport) (regs : Map R) (m : ℕ) : ℕ :=
  regs.foldl (fun m _ r => max m (clock r).counter) m

/-- The highest Lamport counter observed anywhere in the state. -/
def SyncState.maxCounter (s : SyncState) : ℕ :=
  let m := maxOver ContactReg.clock s.contacts 0
  let m := maxOver MarkReg.clock s.verified m
  let m := maxOver MarkReg.clock s.trusted m
  let m := maxOver NameReg.clock s.names m
  let m := maxOver MarkReg.clock s.blocked m
  let m := maxOver RelayReg.clock s.relays m
  let m := maxOver DeviceReg.clock s.devices m
  match s.selfName with
  | some r => max m r.clock.counter
  | none => m

end Arvolo.Sync
