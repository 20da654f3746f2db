import Arvolo.Sync.State

/-!
The bridge between the address book and the CRDT, `engine/src/book/sync_bridge.rs`.

A device keeps its address book in TOML ledgers and, beside them, a sidecar: the
CRDT state with the running Lamport counter. `buildLocalSnapshot` folds whatever
the ledgers say into the sidecar under fresh clocks, `applyMergedState` merges an
incoming snapshot and projects the result back to the ledgers.
-/

namespace Arvolo.Sync

/-! ### Text -/

/-- The Unicode `White_Space` property. -/
def isWhitespace (c : Char) : Bool :=
  let n := c.toNat
  (0x9 ≤ n && n ≤ 0xd) || n == 0x20 || n == 0x85 || n == 0xa0 || n == 0x1680 ||
    (0x2000 ≤ n && n ≤ 0x200a) || n == 0x2028 || n == 0x2029 || n == 0x202f || n == 0x205f ||
    n == 0x3000

/-- `str::trim`. -/
def trim (s : String) : String :=
  String.ofList ((s.toList.dropWhile isWhitespace).reverse.dropWhile isWhitespace).reverse

def isControl (c : Char) : Bool :=
  c.toNat ≤ 0x1f || (0x7f ≤ c.toNat && c.toNat ≤ 0x9f)

def isBidiOverride (c : Char) : Bool :=
  let n := c.toNat
  n == 0x200e || n == 0x200f || n == 0x61c || (0x202a ≤ n && n ≤ 0x202e) ||
    (0x2066 ≤ n && n ≤ 0x2069)

def sanitizeDisplay (s : String) : String :=
  String.ofList ((s.toList.filter fun c => !isControl c && !isBidiOverride c).take 256)

/-! ### The ledgers -/

structure NameRow where
  pinned : String := ""
  pending : Option String := none
  first : String := ""
  deriving DecidableEq

structure DeviceRow where
  name : String
  platform : String
  lastSeen : ℕ
  deriving DecidableEq

/-- The TOML files the bridge reads and writes, with the display name an older
install left in `config.toml`. -/
structure Ledgers where
  contacts : Map String := ∅
  verified : Map ℕ := ∅
  trusted : Map ℕ := ∅
  blocked : Map ℕ := ∅
  seen : Map ℕ := ∅
  last : Map ℕ := ∅
  names : Map NameRow := ∅
  relays : Map String := ∅
  devices : Map DeviceRow := ∅
  me : String := ""
  configDisplayName : Option String := none

/-- What the machine says about itself when the bridge runs. -/
structure Env where
  now : ℕ
  defaultDeviceName : String
  platform : String

/-- The CRDT state with the counter it was last stamped with. -/
structure Sidecar where
  state : SyncState := {}
  lamport : ℕ := 0

/-- One device: its address book and the sidecar file, if there is one yet. -/
structure Device where
  metaFile : Option SyncSnapshot := none
  ledgers : Ledgers := {}

def Device.loadMeta (dev : Device) : Sidecar :=
  match dev.metaFile with
  | some snap => { state := .fromSnapshot snap, lamport := snap.lamport }
  | none => {}

def Device.saveMeta (dev : Device) (device : DeviceId) (side : Sidecar) : Device :=
  { dev with metaFile := some (side.state.toSnapshot side.lamport device) }

@[simp] theorem Device.loadMeta_saveMeta (dev : Device) (device : DeviceId) (side : Sidecar) :
    (dev.saveMeta device side).loadMeta = side := by
  unfold loadMeta saveMeta
  simp only [SyncState.fromSnapshot_toSnapshot]
  rfl

@[simp] theorem Device.loadMeta_ledgers (dev : Device) (ledgers : Ledgers) :
    ({ dev with ledgers } : Device).loadMeta = dev.loadMeta := rfl

/-! ### Folding one ledger -/

/-- How the rows of one ledger are turned into registers. -/
structure LedgerRule (V R : Type) where
  /-- Whether a row of the ledger counts as being there. -/
  present : V → Bool
  /-- Whether a register already says what the row says. -/
  agrees : V → R → Bool
  live : V → Lamport → R
  /-- What a live register becomes when its row is gone. -/
  tomb : R → Lamport → R
  deleted : R → Bool

section Reconcile

variable {V R : Type} (rule : LedgerRule V R) (device : DeviceId)

/-- Write a register at `k` under the next counter. -/
def mint (acc : Map R × ℕ) (k : String) (reg : Lamport → R) : Map R × ℕ :=
  (acc.1.insert k (reg ⟨acc.2 + 1, device⟩), acc.2 + 1)

def addRow (acc : Map R × ℕ) (k : String) (v : V) : Map R × ℕ :=
  if rule.present v && !(acc.1[k]?.any fun r => !rule.deleted r && rule.agrees v r) then
    mint device acc k (rule.live v)
  else acc

/-- The live registers whose row is no longer in the ledger. -/
def staleRows (ledger : Map V) (regs : Map R) : List (String × R) :=
  regs.toList.filter fun e => !rule.deleted e.2 && !(ledger[e.1]?.any rule.present)

/-- First the rows that are new or changed, then the tombstones. -/
def reconcile (ledger : Map V) (acc : Map R × ℕ) : Map R × ℕ :=
  let added := ledger.foldl (addRow rule device) acc
  (staleRows rule ledger added.1).foldl (fun acc e => mint device acc e.1 (rule.tomb e.2)) added

end Reconcile

def contactRule : LedgerRule String ContactReg where
  present _ := true
  agrees pubkey r := r.pubkey == pubkey
  live pubkey clock := { pubkey, clock, deleted := false }
  tomb r clock := { pubkey := r.pubkey, clock, deleted := true }
  deleted := ContactReg.deleted

/-- A live mark agrees with any row: the stamp of a mark already set is not
compared. -/
def markRule : LedgerRule ℕ MarkReg where
  present _ := true
  agrees _ _ := true
  live since clock := { clock, deleted := false, since }
  tomb _ clock := { clock, deleted := true, since := 0 }
  deleted := MarkReg.deleted

def nameRule : LedgerRule NameRow NameReg where
  present row := !row.pinned.isEmpty || row.pending.isSome
  agrees row r := r.pinned == row.pinned && r.pending == row.pending
  live row clock := { pinned := row.pinned, pending := row.pending, clock, deleted := false }
  tomb r clock := { r with deleted := true, clock }
  deleted := NameReg.deleted

def relayRule : LedgerRule String RelayReg where
  present _ := true
  agrees relay r := r.relay == relay
  live relay clock := { relay, clock, deleted := false }
  tomb r clock := { r with deleted := true, clock }
  deleted := RelayReg.deleted

def tombstoneMarks (state : Map MarkReg) (present : Map ℕ) (lamport : ℕ) (device : DeviceId) :
    Map MarkReg × ℕ :=
  reconcile markRule device present (state, lamport)

/-! ### The stages of `build_local_snapshot` -/

def foldContacts (device : DeviceId) (contacts : Map String) (c : Sidecar) : Sidecar :=
  let out := reconcile contactRule device contacts (c.state.contacts, c.lamport)
  { state := { c.state with contacts := out.1 }, lamport := out.2 }

def foldVerified (device : DeviceId) (marks : Map ℕ) (c : Sidecar) : Sidecar :=
  let out := tombstoneMarks c.state.verified marks c.lamport device
  { state := { c.state with verified := out.1 }, lamport := out.2 }

def foldTrusted (device : DeviceId) (marks : Map ℕ) (c : Sidecar) : Sidecar :=
  let out := tombstoneMarks c.state.trusted marks c.lamport device
  { state := { c.state with trusted := out.1 }, lamport := out.2 }

def foldBlocked (device : DeviceId) (marks : Map ℕ) (c : Sidecar) : Sidecar :=
  let out := tombstoneMarks c.state.blocked marks c.lamport device
  { state := { c.state with blocked := out.1 }, lamport := out.2 }

def raiseCount (_ : String) (cur : Option SeenReg) (cnt : ℕ) : Option SeenReg :=
  let e := cur.getD {}
  some { e with count := max e.count cnt }

def raiseLast (_ : String) (cur : Option SeenReg) (when_ : ℕ) : Option SeenReg :=
  let e := cur.getD {}
  some { e with last := max e.last when_ }

def foldSeen (seen last : Map ℕ) (c : Sidecar) : Sidecar :=
  let counted := Lib.foldInto raiseCount c.state.seen seen
  { c with state := { c.state with seen := Lib.foldInto raiseLast counted last } }

def foldNames (device : DeviceId) (names : Map NameRow) (c : Sidecar) : Sidecar :=
  let out := reconcile nameRule device names (c.state.names, c.lamport)
  { state := { c.state with names := out.1 }, lamport := out.2 }

def foldRelays (device : DeviceId) (relays : Map String) (c : Sidecar) : Sidecar :=
  let out := reconcile relayRule device relays (c.state.relays, c.lamport)
  { state := { c.state with relays := out.1 }, lamport := out.2 }

def lastSeenGranularity : ℕ := 60

def quantizeLastSeen (now : ℕ) : ℕ := now - now % lastSeenGranularity

/-- The name this machine goes by: the one in its ledger, unless that is blank. -/
def deviceName (env : Env) (key : String) (ledger : Map DeviceRow) : String :=
  ((ledger[key]?.map DeviceRow.name).filter fun n => !(trim n).isEmpty).getD env.defaultDeviceName

/-- Announce this machine in the device register, or decline to: a machine that
finds its own row tombstoned has been retired. -/
def registerThisDevice (env : Env) (device : DeviceId) (c : Sidecar) (ledger : Map DeviceRow) :
    Sidecar × Map DeviceRow :=
  let key := deviceKey device
  if c.state.devices[key]?.any DeviceReg.deleted then (c, ledger)
  else
    let now := quantizeLastSeen env.now
    let name := deviceName env key ledger
    if c.state.devices[key]?.any fun r =>
        !r.deleted && r.name == name && r.platform == env.platform && r.lastSeen ≥ now then
      (c, ledger)
    else
      let reg (clock : Lamport) : DeviceReg :=
        { name, platform := env.platform, lastSeen := now, clock, deleted := false }
      let out := mint device (c.state.devices, c.lamport) key reg
      ({ state := { c.state with devices := out.1 }, lamport := out.2 },
        ledger.insert key { name, platform := env.platform, lastSeen := now })

def legacyDisplayName (config : Option String) : String :=
  ((config.map trim).filter fun s => !s.isEmpty).getD ""

/-- Stamp a name into the self-name register under the next counter. -/
def mintSelfName (device : DeviceId) (c : Sidecar) (name : String) : Sidecar :=
  { state := { c.state with selfName := some { name, clock := ⟨c.lamport + 1, device⟩ } },
    lamport := c.lamport + 1 }

/-- Reconcile the identity's name between `me.toml` and the register. Where
neither has one, the name an older install left in `config.toml` is adopted. -/
def registerMyName (device : DeviceId) (c : Sidecar) (ledgers : Ledgers) : Sidecar × Ledgers :=
  let ledger := trim ledgers.me
  match c.state.selfName with
  | some cur =>
      if cur.name = ledger then (c, ledgers) else (mintSelfName device c ledger, ledgers)
  | none =>
      if !ledger.isEmpty then (mintSelfName device c ledger, ledgers)
      else
        let legacy := legacyDisplayName ledgers.configDisplayName
        if legacy.isEmpty then (c, ledgers)
        else
          (mintSelfName device c legacy, { ledgers with me := legacy, configDisplayName := none })

/-- The part of `build_local_snapshot` that only reads the ledgers. -/
def foldLedgers (device : DeviceId) (ledgers : Ledgers) (c : Sidecar) : Sidecar :=
  let c := foldContacts device ledgers.contacts c
  let c := foldVerified device ledgers.verified c
  let c := foldTrusted device ledgers.trusted c
  let c := foldBlocked device ledgers.blocked c
  let c := foldSeen ledgers.seen ledgers.last c
  let c := foldNames device ledgers.names c
  foldRelays device ledgers.relays c

/-- Reconcile the sidecar with the ledgers and return a full snapshot. -/
def Device.buildLocalSnapshot (env : Env) (device : DeviceId) (dev : Device) :
    Device × SyncSnapshot :=
  let c := foldLedgers device dev.ledgers dev.loadMeta
  let (c, devices) := registerThisDevice env device c dev.ledgers.devices
  let (c, ledgers) := registerMyName device c { dev.ledgers with devices }
  ({ dev with ledgers }.saveMeta device c, c.state.toSnapshot c.lamport device)

/-! ### Edits that write the sidecar directly -/

def stampMyName (device : DeviceId) (dev : Device) (name : String) : Device :=
  let c := dev.loadMeta
  if c.state.selfName.any fun r => r.name == name then dev
  else dev.saveMeta device (mintSelfName device c name)

def Device.setMyDisplayName (device : DeviceId) (dev : Device) (name : String) : Device :=
  let name := sanitizeDisplay (trim name)
  stampMyName device { dev with ledgers := { dev.ledgers with me := name } } name

/-- The tombstone keeps what the row said. -/
def tombstoneReg (prev : Option DeviceReg) (clock : Lamport) : DeviceReg where
  name := (prev.map DeviceReg.name).getD ""
  platform := (prev.map DeviceReg.platform).getD ""
  lastSeen := (prev.map DeviceReg.lastSeen).getD 0
  clock := clock
  deleted := true

def tombstoneDevice (device : DeviceId) (dev : Device) (id : DeviceId) : Device :=
  let c := dev.loadMeta
  let key := deviceKey id
  let out := mint device (c.state.devices, c.lamport) key (tombstoneReg c.state.devices[key]?)
  dev.saveMeta device { state := { c.state with devices := out.1 }, lamport := out.2 }

def Device.forgetDevice (device : DeviceId) (dev : Device) (id : DeviceId) : Device :=
  let devices := dev.ledgers.devices.erase (deviceKey id)
  tombstoneDevice device { dev with ledgers := { dev.ledgers with devices } } id

/-! ### Merging a snapshot in -/

/-- The live registers of one map, as ledger rows. -/
def liveRows {R V : Type} (deleted : R → Bool) (row : String → R → V) (regs : Map R) : Map V :=
  regs.foldl (fun m k r => if deleted r then m else m.insert k (row k r)) ∅

/-- The names ledger after a merge: live registers, each with the first claim
this device had recorded, and the rows that are nothing but a first claim. -/
def projectNames (names : Map NameReg) (old : Map NameRow) : Map NameRow :=
  let live := liveRows NameReg.deleted (fun id r =>
    ({ pinned := r.pinned, pending := r.pending,
       first := (old[id]?.map NameRow.first).getD "" } : NameRow)) names
  old.foldl (fun n id row =>
    if !row.first.isEmpty && !n.contains id && !(names[id]?.any NameReg.deleted) then
      n.insert id { first := row.first }
    else n) live

/-- The counters of the seen registers that are not zero. -/
def positiveRows (field : SeenReg → ℕ) (seen : Map SeenReg) : Map ℕ :=
  seen.foldl (fun m k r => if field r > 0 then m.insert k (field r) else m) ∅

/-- Project the merged state into the ledgers: a live register becomes a row, a
tombstone becomes absence. -/
def projectToLedgers (state : SyncState) (ledgers : Ledgers) : Ledgers where
  contacts := liveRows ContactReg.deleted (fun _ r => r.pubkey) state.contacts
  verified := liveRows MarkReg.deleted (fun _ r => r.since) state.verified
  trusted := liveRows MarkReg.deleted (fun _ r => r.since) state.trusted
  blocked := liveRows MarkReg.deleted (fun _ r => r.since) state.blocked
  devices := liveRows DeviceReg.deleted (fun _ r =>
    { name := r.name, platform := r.platform, lastSeen := r.lastSeen }) state.devices
  seen := positiveRows SeenReg.count state.seen
  last := positiveRows SeenReg.last state.seen
  names := projectNames state.names ledgers.names
  relays := liveRows RelayReg.deleted (fun _ r => r.relay) state.relays
  me := match state.selfName with
    | some r => if trim ledgers.me ≠ r.name then r.name else ledgers.me
    | none => ledgers.me
  configDisplayName := ledgers.configDisplayName

/-- What the merge leaves in the sidecar: the joined state, and a counter past
everything in it. -/
def Sidecar.absorb (c : Sidecar) (incoming : SyncSnapshot) : Sidecar :=
  let state := c.state.merge (.fromSnapshot incoming)
  { state, lamport := max (max c.lamport incoming.lamport) state.maxCounter }

/-- Merge an incoming snapshot. Local edits are folded in first, so that the
merge never reverts one that was not published. -/
def Device.applyMergedState (env : Env) (device : DeviceId) (dev : Device)
    (incoming : SyncSnapshot) : Device :=
  let dev := (dev.buildLocalSnapshot env device).1
  let c := dev.loadMeta.absorb incoming
  let dev := dev.saveMeta device c
  { dev with ledgers := projectToLedgers c.state dev.ledgers }

end Arvolo.Sync
