import Arvolo.Book.Contacts
import Arvolo.Sync.Cut

/-!
How a key introduced itself.

The first name a key was ever seen to claim stands in its row of `names.toml` and nowhere
else: it is in no register. The edits of the address book keep it, also when they drop what
else the row says. A merge rebuilds the ledger from the registers, and brings the first claim
over for every id whose register is not a tombstone.
-/

namespace Arvolo.Book

open Lib Sync
open Std (ExtTreeMap)

/-- The first claim on record, empty if there is none. -/
def firstOf (names : Map NameRow) (id : String) : String := (names[id]?.map NameRow.first).getD ""

/-- Every first claim is still there, and still the same. -/
def KeepsFirst (a b : Map NameRow) : Prop := ∀ id, firstOf a id ≠ "" → firstOf b id = firstOf a id

instance : Std.Refl KeepsFirst := ⟨fun _ _ _ => rfl⟩

instance : IsTrans (Map NameRow) KeepsFirst where
  trans a b c hab hbc id ha := by
    have hb : firstOf b id ≠ "" := by rwa [hab id ha]
    exact (hbc id hb).trans (hab id ha)

section

variable {names : Map NameRow} {id : String} {row : NameRow}

theorem keepsFirst_insert (h : firstOf names id ≠ "" → row.first = firstOf names id) :
    KeepsFirst names (names.insert id row) := by
  intro id' hid'
  by_cases heq : id = id'
  · subst heq
    simpa [firstOf] using h hid'
  · simp [firstOf, ExtTreeMap.getElem?_insert, heq]

theorem keepsFirst_erase (h : firstOf names id = "") : KeepsFirst names (names.erase id) := by
  intro id' hid'
  have hne : id ≠ id' := by
    rintro rfl
    exact hid' h
  simp [firstOf, ExtTreeMap.getElem?_erase, hne]

theorem firstOf_of_getElem? (h : names[id]? = some row) : firstOf names id = row.first := by
  simp [firstOf, h]

end

/-! ### The edits -/

/-- On a disk. -/
def DiskKeeps (a b : Disk) : Prop := KeepsFirst a.ledgers.names b.ledgers.names

instance : Std.Refl DiskKeeps := ⟨fun a => refl_of KeepsFirst a.ledgers.names⟩

instance : IsTrans Disk DiskKeeps where
  trans a _ c hab hbc :=
    show KeepsFirst a.ledgers.names c.ledgers.names from trans_of KeepsFirst hab hbc

section

variable {α : Type} {t : IdText}

theorem keeps_load {f : Ledgers → BookM α}
    (h : ∀ disk, DiskKeeps disk ((f disk.ledgers).after disk)) : Keeps DiskKeeps (load f) :=
  Keeps.get_bind h

theorem after_save (context : String) (f : Ledgers → Ledgers) (disk : Disk) :
    (save context f).after disk = disk ∨
      ((save context f).after disk).ledgers = f disk.ledgers := by
  obtain ⟨ledgers, left⟩ := disk
  cases left with
  | zero => exact .inl rfl
  | succ left => exact .inr rfl

/-- A save that leaves the names alone. -/
theorem keeps_save {f : Ledgers → Ledgers} (h : ∀ L, (f L).names = L.names) (context : String) :
    Keeps DiskKeeps (save context f) := by
  intro disk
  rcases after_save context f disk with hsame | hdone
  · rw [hsame]
    exact refl_of DiskKeeps disk
  · rw [DiskKeeps, hdone, h]
    exact refl_of KeepsFirst _

theorem keeps_saveContacts (m : Map String) : Keeps DiskKeeps (saveContacts m) := by
  refine keeps_save (fun L => ?_) _
  rfl

theorem keeps_saveVerified (m : Map ℕ) : Keeps DiskKeeps (saveVerified m) := by
  refine keeps_save (fun L => ?_) _
  rfl

theorem keeps_saveTrusted (m : Map ℕ) : Keeps DiskKeeps (saveTrusted m) := by
  refine keeps_save (fun L => ?_) _
  rfl

theorem keeps_saveRelays (m : Map String) : Keeps DiskKeeps (saveRelays m) := by
  refine keeps_save (fun L => ?_) _
  rfl

theorem kept_saveIf {m : BookM Unit} {disk : Disk} (h : DiskKeeps disk (m.after disk)) (c : Bool) :
    DiskKeeps disk ((saveIf c m).after disk) := by
  cases c with
  | true => exact h
  | false => exact refl_of DiskKeeps disk

theorem kept_bestEffort {m : BookM Unit} {disk : Disk} (h : DiskKeeps disk (m.after disk)) :
    DiskKeeps disk ((bestEffort m).after disk) := by
  rw [bestEffort, Effect.after_tryCatch]
  cases m.result disk with
  | ok a => exact h
  | error e => exact h

theorem kept_saveNames {disk : Disk} {names : Map NameRow}
    (h : KeepsFirst disk.ledgers.names names) : DiskKeeps disk ((saveNames names).after disk) := by
  rcases after_save "write names" (fun L => { L with names }) disk with hsame | hdone
  · rw [saveNames, hsame]
    exact refl_of DiskKeeps disk
  · rw [saveNames, DiskKeeps, hdone]
    exact h

/-- A computation that starts with a step that keeps. -/
theorem kept_bind {β : Type} {m : BookM α} {f : α → BookM β} {disk : Disk}
    (hm : DiskKeeps disk (m.after disk)) (hf : ∀ a, Keeps DiskKeeps (f a)) :
    DiskKeeps disk ((m >>= f).after disk) := by
  rw [Effect.after_bind]
  cases m.result disk with
  | ok a => exact trans_of DiskKeeps hm (hf a _)
  | error e => exact hm

theorem keeps_context (what : String) (r : Except String α) :
    Keeps DiskKeeps (context what r) := by
  cases r with
  | ok a => exact .pure a
  | error e => exact .throw what

theorem keeps_setRelay (idB32 relay : String) : Keeps DiskKeeps (setRelay t idB32 relay) := by
  unfold setRelay
  dsimp only
  split
  · exact .throw _
  · exact keeps_load fun disk => keeps_saveRelays _ disk

theorem keeps_clearRelay (idB32 : String) : Keeps DiskKeeps (clearRelay t idB32) := by
  refine keeps_load fun disk => ?_
  split
  · exact kept_bind (keeps_saveRelays _ disk) fun _ => .pure _
  · exact refl_of DiskKeeps disk

theorem keeps_resolveRecipientId (who : String) : Keeps DiskKeeps (resolveRecipientId t who) := by
  refine keeps_load fun disk => ?_
  split
  · exact refl_of DiskKeeps disk
  · exact kept_bind (keeps_context _ _ disk) fun _ => .pure _

/-- The row is written with the first claim it had, or with its first one. -/
theorem keeps_observe (idB32 advertised : String) :
    Keeps DiskKeeps (observeAdvertisedName idB32 advertised) := by
  unfold observeAdvertisedName
  dsimp only
  split
  · exact .pure _
  · refine keeps_load fun disk => ?_
    set found := disk.ledgers.names[idB32]?.getD {} with hfound
    have hfirst : found.first = firstOf disk.ledgers.names idB32 := by
      rw [hfound, firstOf]
      cases disk.ledgers.names[idB32]? <;> rfl
    set row := if found.first.isEmpty then { found with first := trim advertised } else found
      with hrow
    have hrecord (c : Bool) (r : NameRow) (hr : r.first = row.first) : DiskKeeps disk
        ((saveIf c (bestEffort (saveNames (disk.ledgers.names.insert idB32 r)))).after disk) := by
      refine kept_saveIf (kept_bestEffort (kept_saveNames (keepsFirst_insert fun hne => ?_))) c
      rw [← hfirst] at hne ⊢
      rw [hr, hrow, if_neg (by simpa using hne)]
    split
    · exact kept_bind (hrecord _ _ rfl) fun _ => .pure _
    · split
      · exact kept_bind (hrecord _ _ rfl) fun _ => .pure _
      · exact kept_bind (hrecord _ _ rfl) fun _ => .pure _

theorem keeps_accept (who : String) : Keeps DiskKeeps (acceptName t who) := by
  refine .bind (keeps_resolveRecipientId who) fun idB32 => keeps_load fun disk => ?_
  split
  next pinned approved first hrow =>
    refine kept_bind (kept_saveNames (keepsFirst_insert fun _ => ?_)) fun _ => .pure _
    rw [firstOf_of_getElem? hrow]
  next => exact refl_of DiskKeeps disk

theorem keeps_dropOldKey (oldId newId : String) : Keeps DiskKeeps (dropOldKey t oldId newId) := by
  refine .bind (keeps_load fun disk => ?_) fun _ => .bind (keeps_load fun disk => ?_) fun _ =>
    .bind (keeps_clearRelay _) fun _ => .pure _
  · exact kept_saveIf (keeps_saveVerified _ disk) _
  · exact kept_saveIf (keeps_saveTrusted _ disk) _

theorem keeps_replaceKey (newId : String) (found : Option String) :
    Keeps DiskKeeps (replaceKey t newId found) := by
  cases found with
  | none => exact .pure _
  | some oldId =>
      rw [replaceKey]
      split
      · rw [map_eq_pure_bind]
        exact .bind (keeps_dropOldKey _ _) fun _ => .pure _
      · exact .pure _

theorem keeps_recordRelay (newId : String) (relay : Option String) :
    Keeps DiskKeeps (recordRelay t newId relay) := by
  cases relay with
  | none => exact .pure _
  | some relay =>
      rw [recordRelay]
      exact keeps_setRelay newId relay

theorem keeps_add (name id : String) : Keeps DiskKeeps (contactAdd t name id) := by
  rw [contactAdd]
  obtain ⟨id, relay⟩ := splitIdAndRelay id
  refine .bind (keeps_context _ _) fun _ => keeps_load fun disk => ?_
  refine kept_bind (keeps_replaceKey _ _ disk) fun keyChange => ?_
  exact .bind (keeps_saveContacts _) fun _ => .bind (keeps_recordRelay _ _) fun _ => .pure _

theorem keeps_forgetNameRow (idB32 : String) : Keeps DiskKeeps (forgetNameRow idB32) := by
  refine keeps_load fun disk => ?_
  split
  next => exact refl_of DiskKeeps disk
  next row hrow =>
    have hfirst := firstOf_of_getElem? hrow
    split
    next hempty =>
      exact kept_saveNames (keepsFirst_erase (hfirst.trans (String.isEmpty_iff.1 hempty)))
    next => exact kept_saveNames (keepsFirst_insert fun _ => hfirst.symm)

theorem keeps_remove (name : String) : Keeps DiskKeeps (contactRemove t name) := by
  refine keeps_load fun disk => ?_
  split
  · exact refl_of DiskKeeps disk
  · refine kept_bind (keeps_saveContacts _ disk) fun _ => ?_
    split
    · exact .pure _
    · exact .bind (keeps_forgetNameRow _) fun _ => .bind (keeps_clearRelay _) fun _ => .pure _

theorem keeps_rename (old new : String) : Keeps DiskKeeps (contactRename old new) := by
  refine keeps_load fun disk => ?_
  split
  · exact refl_of DiskKeeps disk
  · split
    · exact refl_of DiskKeeps disk
    · exact keeps_saveContacts _ disk

/-- A row that goes has no first claim. -/
theorem keepsFirst_prune (L : Ledgers) : KeepsFirst L.names (Sync.pruneOrphanNames L).names := by
  intro id hid
  simp only [firstOf, Sync.pruneOrphanNames, ExtTreeMap.getElem?_filter'] at hid ⊢
  cases hrow : L.names[id]? with
  | none => simp [hrow] at hid
  | some row =>
      have hfirst : row.first ≠ "" := by simpa [hrow] using hid
      simp [Option.filter_some, hfirst]

theorem keeps_prune : Keeps DiskKeeps pruneOrphanNames := by
  refine keeps_load fun disk => kept_bind ?_ fun _ => .pure _
  exact kept_saveIf (kept_saveNames (keepsFirst_prune disk.ledgers)) _

end

/-! ### The merge -/

/-- The ledger after a merge has the first claims of the ids that are not tombstoned. -/
theorem firstOf_projectNames (names : Map NameReg) (old : Map NameRow) (id : String) :
    firstOf (projectNames names old) id =
      if names[id]?.any NameReg.deleted then "" else firstOf old id := by
  rw [firstOf, getElem?_projectNames]
  cases hreg : names[id]? with
  | none =>
      cases hrow : old[id]? with
      | none => simp [firstOf, hrow]
      | some row => by_cases hfirst : row.first = "" <;> simp [firstOf, hrow, hfirst]
  | some r => cases hdel : r.deleted <;> simp [hdel, firstOf, projectedName]

/-- Of the register held for an id and the one that comes in, the one that stands is a
tombstone: the later one, and the one held where neither is later. -/
def Retired : Option NameReg → Option NameReg → Bool
  | none, none => false
  | some held, none => held.deleted
  | none, some incoming => incoming.deleted
  | some held, some incoming =>
      if held.clock ≥ incoming.clock then held.deleted else incoming.deleted

theorem any_deleted_mergeNames (into other : Map NameReg) (id : String) :
    (mergeNames into other)[id]?.any NameReg.deleted = Retired into[id]? other[id]? := by
  rw [mergeNames, getElem?_foldInto]
  cases into[id]? with
  | none => cases other[id]? <;> rfl
  | some held =>
      cases other[id]? with
      | none => rfl
      | some incoming => by_cases hclock : held.clock ≥ incoming.clock <;>
          simp [takeNewer, Retired, hclock]

/-! ### Runs -/

/-- The second half of `apply_merged_state`, on a device that has folded its edits in: merge,
and write the files in their order. The last of its writes may be missing. -/
def mergeCut (d : DeviceId) (dev : Device) (incoming : SyncSnapshot) (n : ℕ) : Device :=
  let c := dev.loadMeta.absorb incoming
  (mergeFiles.take n).foldl (Device.writeFile d c (projectToLedgers c.state dev.ledgers)) dev

/-- `apply_merged_state` is a fold and then a merge. -/
theorem mergeCut_buildLocalSnapshot (env : Env) (d : DeviceId) (dev : Device)
    (incoming : SyncSnapshot) : mergeCut d (dev.buildLocalSnapshot env d).1 incoming
      mergeFiles.length = dev.applyMergedState env d incoming :=
  applyCut_length env d dev incoming

inductive Edit
  | observe (idB32 advertised : String)
  | accept (who : String)
  | add (name id : String)
  | rename (old new : String)
  | remove (name : String)
  | prune

def Edit.run (t : IdText) : Edit → BookM Unit
  | .observe idB32 advertised => discard (observeAdvertisedName idB32 advertised)
  | .accept who => discard (acceptName t who)
  | .add name id => discard (contactAdd t name id)
  | .rename old new => contactRename old new
  | .remove name => discard (contactRemove t name)
  | .prune => discard pruneOrphanNames

inductive BookEvent
  /-- An edit, of which `left` saves succeed. -/
  | edit (e : Edit) (left : ℕ)
  /-- A fold; the sidecar may fail to be saved. -/
  | build (env : Env) (saved : Bool)
  | merge (incoming : SyncSnapshot) (n : ℕ)

variable (t : IdText) (d : DeviceId)

def step (dev : Device) : BookEvent → Device
  | .edit e left => { dev with ledgers := ((e.run t).after ⟨dev.ledgers, left⟩).ledgers }
  | .build env saved =>
      let next := (dev.buildLocalSnapshot env d).1
      if saved then next else { next with metaFile := dev.metaFile }
  | .merge incoming n => mergeCut d dev incoming n

/-- A merge that gets as far as the names finds no first claim under a register that is, or
becomes, a tombstone. -/
def Spares (dev : Device) : BookEvent → Prop
  | .merge incoming n => MergeFile.names ∈ mergeFiles.take n →
      ∀ id, firstOf dev.ledgers.names id ≠ "" →
        Retired dev.loadMeta.state.names[id]? (SyncState.fromSnapshot incoming).names[id]? = false
  | .edit _ _ | .build _ _ => True

theorem keeps_edit (e : Edit) : Keeps DiskKeeps (e.run t) := by
  have hdiscard {α : Type} {m : BookM α} (h : Keeps DiskKeeps m) : Keeps DiskKeeps (discard m) := by
    rw [show discard m = (fun _ => PUnit.unit) <$> m from rfl, map_eq_pure_bind]
    exact .bind h fun _ => .pure _
  cases e with
  | observe idB32 advertised => exact hdiscard (keeps_observe idB32 advertised)
  | accept who => exact hdiscard (keeps_accept who)
  | add name id => exact hdiscard (keeps_add name id)
  | rename old new => exact keeps_rename old new
  | remove name => exact hdiscard (keeps_remove name)
  | prune => exact hdiscard keeps_prune

theorem names_buildLocalSnapshot (env : Env) (dev : Device) :
    (dev.buildLocalSnapshot env d).1.ledgers.names = dev.ledgers.names := by
  simp only [Device.buildLocalSnapshot, Device.saveMeta]
  rw [registerMyName_ledgers]

theorem names_mergeCut (dev : Device) (incoming : SyncSnapshot) (n : ℕ) :
    (mergeCut d dev incoming n).ledgers.names =
      if MergeFile.names ∈ mergeFiles.take n then
        projectNames (mergeNames dev.loadMeta.state.names
          (SyncState.fromSnapshot incoming).names) dev.ledgers.names
      else dev.ledgers.names := by
  refine (ledger_foldl_writeFile Ledgers.names .names (fun dev w => ?_) _).trans rfl
  cases w <;> rfl

theorem keepsFirst_step (dev : Device) (e : BookEvent) :
    KeepsFirst dev.ledgers.names (step t d dev e).ledgers.names ↔ Spares dev e := by
  cases e with
  | edit e left => exact iff_of_true (keeps_edit t e ⟨dev.ledgers, left⟩) trivial
  | build env saved =>
      refine iff_of_true ?_ trivial
      have hnames : (step t d dev (.build env saved)).ledgers.names = dev.ledgers.names := by
        cases saved <;> exact names_buildLocalSnapshot d env dev
      rw [hnames]
      exact refl_of KeepsFirst dev.ledgers.names
  | merge incoming n =>
      rw [step, names_mergeCut, Spares]
      split
      next hmem =>
        rw [KeepsFirst, imp_iff_right hmem]
        refine forall_congr' fun id => forall_congr' fun hid => ?_
        rw [firstOf_projectNames, any_deleted_mergeNames]
        cases Retired dev.loadMeta.state.names[id]? (SyncState.fromSnapshot incoming).names[id]? with
        | true => simpa using hid.symm
        | false => simp
      next hmem => exact iff_of_true (refl_of KeepsFirst dev.ledgers.names) fun h => absurd h hmem

/-- Along a run no first claim is changed or lost exactly if every merge spares them. -/
theorem keepsFirst_run_iff (dev : Device) (es : List BookEvent) :
    (∀ i j, i ≤ j → KeepsFirst ((es.take i).foldl (step t d) dev).ledgers.names
        ((es.take j).foldl (step t d) dev).ledgers.names) ↔
      Along (step t d) Spares dev es := by
  let R (a b : Device) : Prop := KeepsFirst a.ledgers.names b.ledgers.names
  have hrefl : Std.Refl R := ⟨fun a => refl_of KeepsFirst a.ledgers.names⟩
  have htrans : IsTrans Device R := ⟨fun _ _ _ hab hbc => trans_of KeepsFirst hab hbc⟩
  exact forall_le_iff_along (R := R) (keepsFirst_step t d) dev es

/-! ### Removing a contact -/

/-- Only texts that are not decoded are used below. -/
def noIds : IdText where
  Ed := Unit
  X := Unit
  toUppercase := id
  toLowercase := id
  base32 _ := none
  ed _ := none
  torsionFree _ := false
  x _ := none
  fingerprint _ := ""

def laptop : Env := { now := 600, defaultDeviceName := "laptop", platform := "linux" }

/-- A contact introduces itself, is removed, and then the laptop merges a snapshot that says
nothing at all. -/
def removedRun : List BookEvent :=
  [.edit (.observe "k" "Giulia") 1, .build laptop true, .edit (.remove "giulia") 3,
    .build laptop true,
    .merge (SyncState.toSnapshot {} 0 Fleet.pairOfDevices.2) mergeFiles.length]

def withGiulia : Device := { ledgers := { contacts := ExtTreeMap.ofList [("giulia", "k")] } }

theorem not_keepsFirst_run : ¬ ∀ (t : IdText) (d : DeviceId) (dev : Device) (es : List BookEvent)
    (i j : ℕ), i ≤ j → KeepsFirst ((es.take i).foldl (step t d) dev).ledgers.names
      ((es.take j).foldl (step t d) dev).ledgers.names := by
  intro h
  have hkept := h noIds Fleet.pairOfDevices.1 withGiulia removedRun 4 5 (by decide) "k"
    (by decide +kernel)
  exact absurd hkept (by decide +kernel)

example : ((List.range 6).map fun i => firstOf
      ((removedRun.take i).foldl (step noIds Fleet.pairOfDevices.1) withGiulia).ledgers.names "k") =
      ["", "Giulia", "Giulia", "Giulia", "Giulia", ""] := by
  decide +kernel

end Arvolo.Book
