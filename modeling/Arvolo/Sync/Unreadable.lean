import Arvolo.Sync.Cut

/-!
The loaders of the ledgers (`load_contacts`, `load_names` and their like in
`engine/src/book`), and what the fold makes of a file they cannot read.

A loader reads a missing file, one that cannot be read and one that does not parse
alike, as an empty ledger, and the fold takes what is not in a ledger for deleted.
-/

namespace Arvolo.Sync

open Std

/-- What is at the path of a ledger. -/
inductive LedgerFile
  | absent
  /-- There is a file, and reading it fails, or does not give UTF-8. -/
  | refused
  | text (s : String)

/-- `toml::from_str` at the type of each ledger. The marks are read from either of their
two shapes, the display name from a configuration that need not have one. -/
structure Toml where
  contacts : String → Option (Map String)
  verified : String → Option (Map ℕ)
  trusted : String → Option (Map ℕ)
  blocked : String → Option (Map ℕ)
  seen : String → Option (Map ℕ × Map ℕ)
  names : String → Option (Map NameRow)
  relays : String → Option (Map String)
  devices : String → Option (Map DeviceRow)
  me : String → Option String
  config : String → Option (Option String)

structure LedgerFiles where
  contacts : LedgerFile
  verified : LedgerFile
  trusted : LedgerFile
  blocked : LedgerFile
  seen : LedgerFile
  names : LedgerFile
  relays : LedgerFile
  devices : LedgerFile
  me : LedgerFile
  config : LedgerFile

namespace LedgerFile

variable {α : Type} (parse : String → Option α) (file : LedgerFile)

/-- `read_to_string(..).ok().and_then(from_str).unwrap_or_default()` -/
def load (dflt : α) : α :=
  match file with
  | .text s => (parse s).getD dflt
  | .absent | .refused => dflt

/-- The file exists, and cannot be read or parsed. -/
def Broken : Prop :=
  match file with
  | .absent => False
  | .refused => True
  | .text s => parse s = none

theorem load_of_broken {parse : String → Option α} {file : LedgerFile} (h : file.Broken parse)
    (dflt : α) : file.load parse dflt = dflt := by
  cases file with
  | absent => exact h.elim
  | refused => rfl
  | text s =>
      have hs : parse s = none := h
      simp only [load, hs, Option.getD_none]

end LedgerFile

namespace Toml

variable (toml : Toml) (files : LedgerFiles)

def loadContacts : Map String := files.contacts.load toml.contacts ∅
def loadVerified : Map ℕ := files.verified.load toml.verified ∅
def loadTrusted : Map ℕ := files.trusted.load toml.trusted ∅
def loadBlocked : Map ℕ := files.blocked.load toml.blocked ∅
def loadSeen : Map ℕ × Map ℕ := files.seen.load toml.seen (∅, ∅)
def loadNames : Map NameRow := files.names.load toml.names ∅
def loadRelays : Map String := files.relays.load toml.relays ∅
def loadDevices : Map DeviceRow := files.devices.load toml.devices ∅
def loadMe : String := files.me.load toml.me ""
def loadConfig : Option String := files.config.load toml.config none

/-- A device as it stands on its disk. -/
def device (metaFile : Option SyncSnapshot) : Device where
  metaFile := metaFile
  ledgers :=
    { contacts := toml.loadContacts files
      verified := toml.loadVerified files
      trusted := toml.loadTrusted files
      blocked := toml.loadBlocked files
      seen := (toml.loadSeen files).1
      last := (toml.loadSeen files).2
      names := toml.loadNames files
      relays := toml.loadRelays files
      devices := toml.loadDevices files
      me := toml.loadMe files
      configDisplayName := toml.loadConfig files }

end Toml

/-! ### An empty ledger -/

section

variable {V R S : Type} {rule : LedgerRule V R} {d : DeviceId} {n : ℕ} {regs : Map R}

/-- Every tombstone that is there after was there before. -/
def NoTombstone (deleted : R → Bool) (before after : Map R) : Prop :=
  ∀ (k : String) r, after[k]? = some r → deleted r = true → before[k]? = some r

/-- Nothing is live. -/
def AllDeleted (deleted : R → Bool) (regs : Map R) : Prop :=
  ∀ (k : String) r, regs[k]? = some r → deleted r = true

theorem inStep_empty (view : LedgerView rule S) (h : AllDeleted rule.deleted regs) :
    InStep view ∅ regs := by
  intro k
  rw [ExtTreeMap.getElem?_empty, Option.bind_none]
  cases hk : regs[k]? with
  | none => rfl
  | some r =>
      have hdel := h k r hk
      rw [view.deleted_eq] at hdel
      exact Option.isNone_iff_eq_none.1 hdel

/-- Folding an empty ledger adds no tombstone exactly if there is nothing to delete. -/
theorem noTombstone_reconcile_empty (view : LedgerView rule S) {clock : R → Lamport}
    (hr : rule.Stamps clock) : NoTombstone rule.deleted regs (reconcile rule d ∅ (regs, n)).1 ↔
      AllDeleted rule.deleted regs := by
  constructor
  · intro h k r hk
    cases hdel : rule.deleted r with
    | true => rfl
    | false =>
        obtain ⟨s, hs⟩ : ∃ s, view.reg r = some s := by
          rw [view.deleted_eq, Option.isNone_eq_false_iff] at hdel
          exact Option.isSome_iff_exists.1 hdel
        have hstep : InStep view ∅ (reconcile rule d ∅ (regs, n)).1 := inStep_reconcile hr _
        have hgone := hstep k
        rw [ExtTreeMap.getElem?_empty, Option.bind_none] at hgone
        rcases (mapExtends_reconcile hr d ∅ (regs, n)).reg k with hsame | ⟨x, hx, -⟩
        · rw [hsame, hk, Option.bind_some, hs] at hgone
          cases hgone
        · rw [hx, Option.bind_some] at hgone
          have hxdel : rule.deleted x = true := by rw [view.deleted_eq, hgone, Option.isNone_none]
          obtain rfl := Option.some.inj (hk.symm.trans (h k x hx hxdel))
          exact hdel.symm.trans hxdel
  · intro h k r hk hdel
    rw [reconcile_of_inStep (inStep_empty view h)] at hk
    exact hk

end

/-! ### The fold of a device -/

/-- No ledger that cannot be read has a tombstone added to its map. The seen counters have
no tombstones. -/
structure Unharmed (toml : Toml) (files : LedgerFiles) (before after : SyncState) : Prop where
  contacts : files.contacts.Broken toml.contacts →
    NoTombstone ContactReg.deleted before.contacts after.contacts
  verified : files.verified.Broken toml.verified →
    NoTombstone MarkReg.deleted before.verified after.verified
  trusted : files.trusted.Broken toml.trusted →
    NoTombstone MarkReg.deleted before.trusted after.trusted
  blocked : files.blocked.Broken toml.blocked →
    NoTombstone MarkReg.deleted before.blocked after.blocked
  names : files.names.Broken toml.names → NoTombstone NameReg.deleted before.names after.names
  relays : files.relays.Broken toml.relays →
    NoTombstone RelayReg.deleted before.relays after.relays
  devices : files.devices.Broken toml.devices →
    NoTombstone DeviceReg.deleted before.devices after.devices

/-- The sidecar has nothing live in the map of a ledger that cannot be read; the device
register may have. -/
structure Bare (toml : Toml) (files : LedgerFiles) (before : SyncState) : Prop where
  contacts : files.contacts.Broken toml.contacts → AllDeleted ContactReg.deleted before.contacts
  verified : files.verified.Broken toml.verified → AllDeleted MarkReg.deleted before.verified
  trusted : files.trusted.Broken toml.trusted → AllDeleted MarkReg.deleted before.trusted
  blocked : files.blocked.Broken toml.blocked → AllDeleted MarkReg.deleted before.blocked
  names : files.names.Broken toml.names → AllDeleted NameReg.deleted before.names
  relays : files.relays.Broken toml.relays → AllDeleted RelayReg.deleted before.relays

section

variable {toml : Toml} {files : LedgerFiles}

theorem noTombstone_devices (env : Env) (d : DeviceId) (dev : Device) :
    NoTombstone DeviceReg.deleted dev.loadMeta.state.devices
      (dev.buildLocalSnapshot env d).1.loadMeta.state.devices := by
  intro k r hk hdel
  have hcell : (dev.buildLocalSnapshot env d).1.loadMeta.state.cell (.device k) =
      some (.device r) := by simp [SyncState.cell, hk]
  rcases device_buildLocalSnapshot env d dev k with hsame | ⟨-, ⟨x, hx, hlive⟩, -⟩
  · rw [hsame] at hcell
    simpa [SyncState.cell] using hcell
  · obtain rfl : x = r := by simpa using hx.symm.trans hcell
    exact absurd hdel (by simp [hlive])

theorem noTombstone_of_broken {V R S : Type} {rule : LedgerRule V R} (view : LedgerView rule S)
    {clock : R → Lamport} (hr : rule.Stamps clock) (d : DeviceId) (acc : Map R × ℕ)
    (parse : String → Option (Map V)) (file : LedgerFile) :
    (file.Broken parse →
        NoTombstone rule.deleted acc.1 (reconcile rule d (file.load parse ∅) acc).1) ↔
      (file.Broken parse → AllDeleted rule.deleted acc.1) := by
  refine forall_congr' fun hbroken => ?_
  rw [LedgerFile.load_of_broken hbroken]
  exact noTombstone_reconcile_empty view hr

/-- A fold leaves the maps of unreadable ledgers without new tombstones exactly if there is
nothing live in them. -/
theorem unharmed_iff_bare (toml : Toml) (env : Env) (d : DeviceId) (metaFile : Option SyncSnapshot)
    (files : LedgerFiles) :
    Unharmed toml files (toml.device files metaFile).loadMeta.state
        ((toml.device files metaFile).buildLocalSnapshot env d).1.loadMeta.state ↔
      Bare toml files (toml.device files metaFile).loadMeta.state := by
  have hdevices := noTombstone_devices env d (toml.device files metaFile)
  obtain ⟨devices, name, hstate⟩ := maps_buildLocalSnapshot env d (toml.device files metaFile)
  rw [hstate] at hdevices ⊢
  have hcontacts (n : ℕ) := noTombstone_of_broken contactView contactRule_stamps d
    ((toml.device files metaFile).loadMeta.state.contacts, n) toml.contacts files.contacts
  have hmarks (regs : Map MarkReg) (n : ℕ) :=
    noTombstone_of_broken markView markRule_stamps d (regs, n)
  have hnames (n : ℕ) := noTombstone_of_broken nameView nameRule_stamps d
    ((toml.device files metaFile).loadMeta.state.names, n) toml.names files.names
  have hrelays (n : ℕ) := noTombstone_of_broken relayView relayRule_stamps d
    ((toml.device files metaFile).loadMeta.state.relays, n) toml.relays files.relays
  constructor
  · intro h
    exact
      { contacts := (hcontacts _).1 h.contacts
        verified := (hmarks _ _ _ _).1 h.verified
        trusted := (hmarks _ _ _ _).1 h.trusted
        blocked := (hmarks _ _ _ _).1 h.blocked
        names := (hnames _).1 h.names
        relays := (hrelays _).1 h.relays }
  · intro h
    exact
      { contacts := (hcontacts _).2 h.contacts
        verified := (hmarks _ _ _ _).2 h.verified
        trusted := (hmarks _ _ _ _).2 h.trusted
        blocked := (hmarks _ _ _ _).2 h.blocked
        names := (hnames _).2 h.names
        relays := (hrelays _).2 h.relays
        devices := fun _ => hdevices }

end

section

/-- No text is read here, so that it does not matter what would parse. -/
def anyToml : Toml where
  contacts _ := none
  verified _ := none
  trusted _ := none
  blocked _ := none
  seen _ := none
  names _ := none
  relays _ := none
  devices _ := none
  me _ := none
  config _ := none

/-- Only `contacts.toml` is there, and cannot be read. -/
def lockedContacts : LedgerFiles where
  contacts := .refused
  verified := .absent
  trusted := .absent
  blocked := .absent
  seen := .absent
  names := .absent
  relays := .absent
  devices := .absent
  me := .absent
  config := .absent

/-- The sidecar of a laptop that has published its one contact. -/
def withBob : SyncSnapshot :=
  SyncState.toSnapshot
    { contacts := ExtTreeMap.ofList [("bob",
        ({ pubkey := "pk-bob", clock := ⟨1, Fleet.pairOfDevices.1⟩, deleted := false } :
          ContactReg))] }
    1 Fleet.pairOfDevices.1

/-- A fold that cannot read `contacts.toml` deletes every contact. -/
theorem not_unharmed_lockedContacts : ¬ ∀ (toml : Toml) (env : Env) (d : DeviceId)
    (metaFile : Option SyncSnapshot) (files : LedgerFiles),
    Unharmed toml files (toml.device files metaFile).loadMeta.state
      ((toml.device files metaFile).buildLocalSnapshot env d).1.loadMeta.state := by
  intro h
  have hbob := (h anyToml { now := 600, defaultDeviceName := "laptop", platform := "linux" }
    Fleet.pairOfDevices.1 (some withBob) lockedContacts).contacts trivial "bob"
    ⟨"pk-bob", ⟨2, Fleet.pairOfDevices.1⟩, true⟩ (by decide +kernel) rfl
  exact absurd hbob (by decide +kernel)

end

end Arvolo.Sync
