import Arvolo.Sync.Cut

/-!
A merge, and the fold or the second merge after it.

A merge projects every register into a ledger and the next fold reads the ledgers back. What a
register shows comes back as it was, unless it is one of three things that a ledger cannot
say: a live name register without a name, a display name with blanks around it, and a row for
this machine that gives it another platform or no name.
-/

namespace Arvolo.Sync

open Lib
open Std (ExtTreeMap)

/-! ### The property -/

/-- The machine's own row, last seen at `now`, under the next counter. -/
def Sidecar.refresh (d : DeviceId) (c : Sidecar) (row : DeviceReg) (now : ℕ) : Sidecar :=
  let out := mint d (c.state.devices, c.lamport) (deviceKey d) fun clock =>
    { row with lastSeen := now, clock }
  { state := { c.state with devices := out.1 }, lamport := out.2 }

/-- The same in the register and in the ledger. -/
def Device.refresh (d : DeviceId) (dev : Device) (row : DeviceReg) (now : ℕ) : Device :=
  let devices := dev.ledgers.devices.insert (deviceKey d)
    { name := row.name, platform := row.platform, lastSeen := now }
  ({ dev with ledgers := { dev.ledgers with devices } } : Device).saveMeta d
    (dev.loadMeta.refresh d row now)

/-- Nothing has changed, or only when this machine was last seen. -/
def Unmoved (d : DeviceId) (dev dev' : Device) : Prop :=
  dev' = dev ∨ ∃ row now, dev.loadMeta.state.devices[deviceKey d]? = some row ∧
    row.deleted = false ∧ row.lastSeen < now ∧ dev' = dev.refresh d row now

/-- What the fold takes for the name of a machine that the ledger calls `name`. -/
def deviceNameOf (env : Env) (name : String) : String :=
  if (trim name).isEmpty then env.defaultDeviceName else name

/-- Everything the state says can be said in the ledgers. -/
structure Sayable (env : Env) (d : DeviceId) (s : SyncState) : Prop extends Tidy s where
  own : ∀ r, s.devices[deviceKey d]? = some r → r.deleted = false →
    r.platform = env.platform ∧ deviceNameOf env r.name = r.name

/-! ### Merging twice -/

section Merge

variable {R : Type} (clock : R → Lamport) (deleted : R → Bool)

theorem takeNewer_again (cur : Option R) (v : R) :
    (takeNewer clock ((takeNewer clock cur v).or cur) v).or ((takeNewer clock cur v).or cur) =
      (takeNewer clock cur v).or cur := by
  cases cur with
  | none => simp [takeNewer]
  | some c => by_cases h : clock c ≥ clock v <;> simp [takeNewer, h]

theorem takeNewerOrDeleted_again (cur : Option R) (v : R) :
    (takeNewerOrDeleted clock deleted ((takeNewerOrDeleted clock deleted cur v).or cur) v).or
        ((takeNewerOrDeleted clock deleted cur v).or cur) =
      (takeNewerOrDeleted clock deleted cur v).or cur := by
  cases cur with
  | none => simp [takeNewerOrDeleted]
  | some c =>
      rcases lt_trichotomy (clock c) (clock v) with hlt | heq | hgt
      · simp [takeNewerOrDeleted, hlt.not_gt, hlt.ne]
      · by_cases hd : deleted v = true ∧ deleted c = false <;> simp [takeNewerOrDeleted, heq, hd]
      · simp [takeNewerOrDeleted, hgt]

end Merge

/-- Merging the same state again changes nothing. -/
theorem merge_merge (s t : SyncState) : (s.merge t).merge t = s.merge t := by
  refine SyncState.ext ?_ ?_ ?_ ?_ ?_ ?_ ?_ ?_ ?_
  · exact foldInto_foldInto (fun _ => takeNewer_again ContactReg.clock) s.contacts t.contacts
  · exact foldInto_foldInto (fun _ => takeNewerOrDeleted_again _ _) s.verified t.verified
  · exact foldInto_foldInto (fun _ => takeNewerOrDeleted_again _ _) s.trusted t.trusted
  · refine foldInto_foldInto (fun _ cur v => ?_) s.seen t.seen
    simp
  · exact foldInto_foldInto (fun _ => takeNewer_again NameReg.clock) s.names t.names
  · exact foldInto_foldInto (fun _ => takeNewerOrDeleted_again _ _) s.blocked t.blocked
  · exact foldInto_foldInto (fun _ => takeNewer_again RelayReg.clock) s.relays t.relays
  · refine foldInto_foldInto (fun id cur v => ?_) s.devices t.devices
    split
    · rfl
    · exact takeNewerOrDeleted_again DeviceReg.clock DeviceReg.deleted cur v
  · show mergeSelfName (mergeSelfName s.selfName t.selfName) t.selfName =
      mergeSelfName s.selfName t.selfName
    cases t.selfName with
    | none => rfl
    | some v => exact takeNewer_again SelfName.clock s.selfName v

/-! ### A projected state -/

/-- A device whose ledgers are the projection of its sidecar. -/
def Device.projected (d : DeviceId) (c : Sidecar) (old : Ledgers) : Device :=
  ({ ledgers := projectToLedgers c.state old } : Device).saveMeta d c

theorem applyMergedState_eq (env : Env) (d : DeviceId) (dev : Device) (incoming : SyncSnapshot) :
    dev.applyMergedState env d incoming =
      .projected d ((dev.buildLocalSnapshot env d).1.loadMeta.absorb incoming)
        (dev.buildLocalSnapshot env d).1.ledgers := rfl

theorem getElem?_positiveRows (field : SeenReg → ℕ) (seen : Map SeenReg) (k : String) :
    (positiveRows field seen)[k]? = (seen[k]?.map field).filter (0 < ·) := by
  have hfold : positiveRows field seen =
      foldInto (fun _ _ r => if field r > 0 then some (field r) else none) ∅ seen := by
    unfold positiveRows foldInto
    congr 1
    funext m k r
    by_cases h : field r > 0 <;> simp [upsert, h]
  rw [hfold, getElem?_foldInto]
  cases seen[k]? with
  | none => simp
  | some r => by_cases h : 0 < field r <;> simp [Option.filter_some, h]

/-- The projected counters raise nothing. -/
theorem foldSeen_positiveRows (c : Sidecar) :
    foldSeen (positiveRows SeenReg.count c.state.seen) (positiveRows SeenReg.last c.state.seen) c =
      c := by
  have hcount : foldInto raiseCount c.state.seen (positiveRows SeenReg.count c.state.seen) =
      c.state.seen := by
    refine ExtTreeMap.ext_getElem? fun k => ?_
    rw [getElem?_foldInto, getElem?_positiveRows]
    cases c.state.seen[k]? with
    | none => rfl
    | some r => by_cases h : 0 < r.count <;> simp [Option.filter_some, h, raiseCount]
  have hlast : foldInto raiseLast c.state.seen (positiveRows SeenReg.last c.state.seen) =
      c.state.seen := by
    refine ExtTreeMap.ext_getElem? fun k => ?_
    rw [getElem?_foldInto, getElem?_positiveRows]
    cases c.state.seen[k]? with
    | none => rfl
    | some r => by_cases h : 0 < r.last <;> simp [Option.filter_some, h, raiseLast]
  simp only [foldSeen, hcount, hlast]

section Project

variable {s : SyncState} {old : Ledgers}

theorem projectNames_again (names : Map NameReg) (old : Map NameRow) :
    projectNames names (projectNames names old) = projectNames names old := by
  refine ExtTreeMap.ext_getElem? fun k => ?_
  rw [getElem?_projectNames names (projectNames names old)]
  cases hreg : names[k]? with
  | none =>
      simp only [getElem?_projectNames, hreg]
      cases old[k]? with
      | none => rfl
      | some row => by_cases hfirst : row.first = "" <;> simp [hfirst]
  | some r =>
      simp only [projectedName, getElem?_projectNames, hreg]
      cases r.deleted <;> rfl

/-- The rows of the device register in the ledger. -/
def deviceRows (devices : Map DeviceReg) : Map DeviceRow :=
  liveRows DeviceReg.deleted
    (fun _ r => { name := r.name, platform := r.platform, lastSeen := r.lastSeen }) devices

theorem deviceRows_insert (devices : Map DeviceReg) (k : String) {r : DeviceReg}
    (hr : r.deleted = false) : deviceRows (devices.insert k r) = (deviceRows devices).insert k
      { name := r.name, platform := r.platform, lastSeen := r.lastSeen } := by
  refine ExtTreeMap.ext_getElem? fun j => ?_
  simp only [deviceRows, getElem?_liveRows, ExtTreeMap.getElem?_insert]
  split <;> simp [Option.filter_some, hr]

/-- A second projection changes no ledger, and the device ledger only where the register has
changed. -/
theorem projectToLedgers_again (old : Ledgers)
    (h : ∀ r, s.selfName = some r → trim r.name = r.name) (devices : Map DeviceReg)
    (rows : Map DeviceRow) :
    projectToLedgers { s with devices := devices }
        { projectToLedgers s old with devices := rows } =
      { projectToLedgers s old with devices := deviceRows devices } := by
  have hme : (projectToLedgers { s with devices := devices }
      { projectToLedgers s old with devices := rows }).me = (projectToLedgers s old).me := by
    cases hs : s.selfName with
    | none => simp [projectToLedgers, hs]
    | some r =>
        have htrim := h r hs
        by_cases hold : trim old.me = r.name <;> simp [projectToLedgers, hs, hold, htrim]
  have hnames := projectNames_again s.names old.names
  simp only [projectToLedgers, Ledgers.mk.injEq] at hme ⊢
  exact ⟨trivial, trivial, trivial, trivial, trivial, trivial, hnames, trivial, rfl, hme, trivial⟩

end Project

/-! ### This machine's own row -/

section Own

variable {d : DeviceId} {c : Sidecar}

theorem deviceName_eq (env : Env) {key : String} {ledger : Map DeviceRow} {row : DeviceRow}
    (h : ledger[key]? = some row) : deviceName env key ledger = deviceNameOf env row.name := by
  rw [deviceName, deviceNameOf, h, Option.map_some, Option.filter_some]
  by_cases hblank : (trim row.name).isEmpty <;> simp [hblank]

/-- A live row of its own says, once the machine has registered, what the machine is called
and runs on. -/
theorem registerThisDevice_says (env : Env) (ledger : Map DeviceRow) {r : DeviceReg}
    (hr : (registerThisDevice env d c ledger).1.state.devices[deviceKey d]? = some r)
    (hlive : r.deleted = false) :
    r.name = deviceName env (deviceKey d) ledger ∧ r.platform = env.platform := by
  rw [registerThisDevice] at hr
  dsimp only at hr
  split at hr
  next hdel => simp [hr, hlive] at hdel
  next =>
    split at hr
    next hsame =>
      simp only [hr, Option.any_some, Bool.and_eq_true, beq_iff_eq] at hsame
      exact ⟨hsame.1.1.2, hsame.1.2⟩
    next =>
      rw [mint, ExtTreeMap.getElem?_insert_self] at hr
      obtain rfl := Option.some.inj hr
      exact ⟨rfl, rfl⟩

/-- There is a row after registering. -/
theorem registerThisDevice_isSome (env : Env) (ledger : Map DeviceRow) :
    (registerThisDevice env d c ledger).1.state.devices[deviceKey d]?.isSome := by
  rw [registerThisDevice]
  dsimp only
  split
  next hdel =>
    cases hr : c.state.devices[deviceKey d]? with
    | none => simp [hr] at hdel
    | some r => rfl
  next =>
    split
    next hsame =>
      cases hr : c.state.devices[deviceKey d]? with
      | none => simp [hr] at hsame
      | some r => rfl
    next => simp [mint]

theorem devices_buildLocalSnapshot (env : Env) (dev : Device) :
    (dev.buildLocalSnapshot env d).1.loadMeta.state.devices =
      (registerThisDevice env d (foldLedgers d dev.ledgers dev.loadMeta)
        dev.ledgers.devices).1.state.devices := by
  simp only [Device.buildLocalSnapshot, Device.loadMeta_saveMeta]
  rw [registerMyName_state]

end Own

/-! ### The fold after a merge -/

section Fold

variable {d : DeviceId} {c : Sidecar} {old : Ledgers} {env : Env}

theorem loadMeta_projected : (Device.projected d c old).loadMeta = c :=
  Device.loadMeta_saveMeta _ _ _

theorem ledgers_projected :
    (Device.projected d c old).ledgers = projectToLedgers c.state old := rfl

theorem getElem?_deviceRows {devices : Map DeviceReg} {k : String} {r : DeviceReg}
    (hr : devices[k]? = some r) (hlive : r.deleted = false) : (deviceRows devices)[k]? =
      some { name := r.name, platform := r.platform, lastSeen := r.lastSeen } := by
  simp [deviceRows, getElem?_liveRows, hr, Option.filter_some, hlive]

/-- Where everything can be said, a fold moves at most when this machine was last seen. -/
theorem unmoved_buildLocalSnapshot (hs : Sayable env d c.state)
    (hname : c.state.selfName = none → NameInStep old none)
    (hown : c.state.devices[deviceKey d]?.isSome) :
    Unmoved d (.projected d c old) ((Device.projected d c old).buildLocalSnapshot env d).1 := by
  have hsettled : Settled (projectToLedgers c.state old) c.state :=
    settled_projectToLedgers hs.toTidy hname
  have hfold : foldLedgers d (projectToLedgers c.state old) c = c := by
    rw [foldLedgers_of_settled hsettled]
    exact foldSeen_positiveRows c
  have hbuild : ((Device.projected d c old).buildLocalSnapshot env d).1 =
      ({ Device.projected d c old with ledgers := { projectToLedgers c.state old with
          devices := (registerThisDevice env d c (deviceRows c.state.devices)).2 } } :
        Device).saveMeta d (registerThisDevice env d c (deviceRows c.state.devices)).1 := by
    simp only [Device.buildLocalSnapshot, loadMeta_projected, ledgers_projected, hfold]
    rw [registerMyName_of_inStep]
    · rfl
    · rw [registerThisDevice_selfName]
      exact hsettled.selfName
  obtain ⟨r, hr⟩ := Option.isSome_iff_exists.1 hown
  have hkept (h : registerThisDevice env d c (deviceRows c.state.devices) =
      (c, deviceRows c.state.devices)) :
      ((Device.projected d c old).buildLocalSnapshot env d).1 = .projected d c old := by
    rw [hbuild, h]
    rfl
  cases hdel : r.deleted with
  | true =>
      refine .inl (hkept ?_)
      simp [registerThisDevice, hr, hdel]
  | false =>
      obtain ⟨hplatform, hcalled⟩ := hs.own r hr hdel
      have hsaid : deviceName env (deviceKey d) (deviceRows c.state.devices) = r.name := by
        rw [deviceName_eq env (getElem?_deviceRows hr hdel), hcalled]
      by_cases hseen : r.lastSeen ≥ quantizeLastSeen env.now
      · refine .inl (hkept ?_)
        simp [registerThisDevice, hr, hdel, hsaid, hplatform, hseen]
      · refine .inr ⟨r, quantizeLastSeen env.now, ?_, hdel, not_le.1 hseen, ?_⟩
        · rw [loadMeta_projected]
          exact hr
        · rw [hbuild]
          have hregister : registerThisDevice env d c (deviceRows c.state.devices) =
              (c.refresh d r (quantizeLastSeen env.now),
                (deviceRows c.state.devices).insert (deviceKey d)
                  ⟨r.name, r.platform, quantizeLastSeen env.now⟩) := by
            simp [registerThisDevice, hr, hdel, hsaid, hplatform, hseen, mint, Sidecar.refresh]
          rw [hregister, Device.refresh, loadMeta_projected]
          rfl

end Fold

/-! ### The second merge -/

section Again

variable {d : DeviceId} {c : Sidecar} {old : Ledgers} {env : Env} {incoming : SyncSnapshot}

/-- There is nothing left to take from the snapshot. -/
structure Taken (c : Sidecar) (incoming : SyncSnapshot) : Prop where
  state : c.state.merge (.fromSnapshot incoming) = c.state
  lamport_le : incoming.lamport ≤ c.lamport
  counter_le : c.state.maxCounter ≤ c.lamport

theorem taken_absorb (c : Sidecar) (incoming : SyncSnapshot) :
    Taken (c.absorb incoming) incoming where
  state := merge_merge c.state (.fromSnapshot incoming)
  lamport_le := (le_max_right _ _).trans (le_max_left _ _)
  counter_le := le_max_right _ _

theorem Taken.absorb_eq (h : Taken c incoming) : c.absorb incoming = c := by
  obtain ⟨state, lamport⟩ := c
  have hstate : state.merge (.fromSnapshot incoming) = state := h.state
  have hincoming : incoming.lamport ≤ lamport := h.lamport_le
  have hcounter : state.maxCounter ≤ lamport := h.counter_le
  simp only [Sidecar.absorb, hstate, Sidecar.mk.injEq, true_and]
  omega

/-- A row written under the next counter is newer than anything in the snapshot. -/
theorem Taken.refresh (h : Taken c incoming) {row : DeviceReg} (now : ℕ)
    (hrow : c.state.devices[deviceKey d]? = some row) : Taken (c.refresh d row now) incoming where
  state := by
    have hclock : row.clock.counter ≤ c.lamport :=
      (counter_le_maxCounter (l := .device (deviceKey d)) (x := .device row)
        (by simp [SyncState.cell, hrow])).trans h.counter_le
    have hdevices : mergeDevices (c.refresh d row now).state.devices
        (SyncState.fromSnapshot incoming).devices = (c.refresh d row now).state.devices := by
      refine foldInto_insert (congrArg SyncState.devices h.state) fun v hv => ?_
      split
      · rfl
      next hpass =>
        -- what the snapshot has there is no newer than the row before
        have hkept := congrArg (fun s => s.devices[deviceKey d]?) h.state
        simp only [SyncState.merge, mergeDevices, getElem?_foldInto, hv, hrow, hpass] at hkept
        have hle : v.clock ≤ row.clock := by
          by_contra hlt
          rw [not_le] at hlt
          simp [takeNewerOrDeleted, hlt.not_gt, hlt.ne] at hkept
          exact hlt.ne (congrArg DeviceReg.clock hkept.symm)
        have hlt : v.clock < ⟨c.lamport + 1, d⟩ := by
          refine lt_of_not_ge fun hge => ?_
          have hcounter : c.lamport + 1 ≤ row.clock.counter :=
            (Lamport.counter_le hge).trans (Lamport.counter_le hle)
          omega
        simp [takeNewerOrDeleted, hlt]
    have hrest := h.state
    rw [SyncState.ext_iff] at hrest ⊢
    obtain ⟨hcontacts, hverified, htrusted, hseen, hnames, hblocked, hrelays, -, hself⟩ := hrest
    exact ⟨hcontacts, hverified, htrusted, hseen, hnames, hblocked, hrelays, hdevices, hself⟩
  lamport_le := h.lamport_le.trans (Nat.le_succ _)
  counter_le := by
    refine maxCounter_le fun l x hx => ?_
    have hold (hcell : c.state.cell l = some x) : x.clock.counter ≤ c.lamport + 1 :=
      ((counter_le_maxCounter hcell).trans h.counter_le).trans (Nat.le_succ _)
    cases l with
    | device k =>
        by_cases hk : k = deviceKey d
        · subst hk
          have hx' : x = .device { row with lastSeen := now, clock := ⟨c.lamport + 1, d⟩ } := by
            simpa [SyncState.cell, Sidecar.refresh, mint] using hx.symm
          rw [hx']
          exact le_rfl
        · refine hold ?_
          have hne : compare (deviceKey d) k ≠ .eq := fun he =>
            hk (Std.LawfulEqCmp.eq_of_compare he).symm
          simpa [SyncState.cell, Sidecar.refresh, mint, ExtTreeMap.getElem?_insert, hne] using hx
    | _ => exact hold hx

theorem Unmoved.applyMergedState (h : Unmoved d (.projected d c old)
      ((Device.projected d c old).buildLocalSnapshot env d).1)
    (htrim : ∀ r, c.state.selfName = some r → trim r.name = r.name)
    (htaken : Taken c incoming) :
    Unmoved d (.projected d c old) ((Device.projected d c old).applyMergedState env d incoming) := by
  rw [applyMergedState_eq]
  rcases h with hsame | ⟨row, now, hrow, hlive, hnow, hmoved⟩
  · refine .inl ?_
    rw [hsame, loadMeta_projected, htaken.absorb_eq, ledgers_projected, Device.projected,
      Device.projected]
    have hagain := projectToLedgers_again old htrim c.state.devices
      (deviceRows c.state.devices)
    exact congrArg (fun L => ({ ledgers := L } : Device).saveMeta d c) hagain
  · refine .inr ⟨row, now, hrow, hlive, hnow, ?_⟩
    rw [loadMeta_projected] at hrow
    have hrefresh : (((Device.projected d c old).buildLocalSnapshot env d).1).loadMeta =
        c.refresh d row now := by
      rw [hmoved, Device.refresh, Device.loadMeta_saveMeta, loadMeta_projected]
    rw [hrefresh, (htaken.refresh now hrow).absorb_eq, hmoved]
    have hagain := projectToLedgers_again old htrim
      (c.refresh d row now).state.devices ((deviceRows c.state.devices).insert (deviceKey d)
        { name := row.name, platform := row.platform, lastSeen := now })
    have hrows : deviceRows (c.refresh d row now).state.devices =
        (deviceRows c.state.devices).insert (deviceKey d)
          { name := row.name, platform := row.platform, lastSeen := now } :=
      deviceRows_insert _ _ hlive
    rw [hrows] at hagain
    rw [Device.refresh, loadMeta_projected]
    exact congrArg (fun L => ({ ledgers := L } : Device).saveMeta d (c.refresh d row now)) hagain

/-- What comes back unmoved could be said. -/
theorem sayable_of_unmoved (h : Unmoved d (.projected d c old)
      ((Device.projected d c old).buildLocalSnapshot env d).1) : Sayable env d c.state := by
  set next := ((Device.projected d c old).buildLocalSnapshot env d).1 with hnext
  have hsettled : Tidy next.loadMeta.state := (settled_buildLocalSnapshot env d _).tidy
  have hsame : next.loadMeta.state.names = c.state.names ∧
      next.loadMeta.state.selfName = c.state.selfName ∧
      ∀ r, c.state.devices[deviceKey d]? = some r → r.deleted = false →
        ∃ r', next.loadMeta.state.devices[deviceKey d]? = some r' ∧ r'.deleted = false ∧
          r'.name = r.name ∧ r'.platform = r.platform := by
    rcases h with hsame | ⟨row, now, hrow, hlive, -, hmoved⟩
    · rw [hsame, loadMeta_projected]
      exact ⟨rfl, rfl, fun r hr hdel => ⟨r, hr, hdel, rfl, rfl⟩⟩
    · rw [loadMeta_projected] at hrow
      rw [hmoved, Device.refresh, Device.loadMeta_saveMeta, loadMeta_projected]
      refine ⟨rfl, rfl, fun r hr _ => ?_⟩
      obtain rfl := Option.some.inj (hrow.symm.trans hr)
      exact ⟨{ row with lastSeen := now, clock := ⟨c.lamport + 1, d⟩ },
        by simp [Sidecar.refresh, mint], hlive, rfl, rfl⟩
  obtain ⟨hnames, hself, hrow⟩ := hsame
  refine ⟨⟨hnames ▸ hsettled.names, hself ▸ hsettled.selfName⟩, fun r hr hdel => ?_⟩
  obtain ⟨r', hr', hlive, hname, hplatform⟩ := hrow r hr hdel
  rw [hnext, devices_buildLocalSnapshot] at hr'
  obtain ⟨hcalled, hruns⟩ := registerThisDevice_says env _ hr' hlive
  have hledger : (Device.projected d c old).ledgers.devices[deviceKey d]? =
      some { name := r.name, platform := r.platform, lastSeen := r.lastSeen } :=
    getElem?_deviceRows hr hdel
  rw [deviceName_eq env hledger] at hcalled
  exact ⟨hplatform.symm.trans hruns, hcalled.symm.trans hname⟩

end Again

theorem mergeDevices_isSome {into other : Map DeviceReg} {k : String} (h : into[k]?.isSome) :
    (mergeDevices into other)[k]?.isSome := by
  rw [mergeDevices, getElem?_foldInto]
  cases other[k]? with
  | none => exact h
  | some v => rw [Option.isSome_or, h, Bool.or_true]

/-- The name left in the ledger where a merge leaves none in the register. -/
theorem nameInStep_of_absorb {c : Sidecar} {L : Ledgers} {incoming : SyncSnapshot}
    (h : NameInStep L c.state.selfName) (hnone : (c.absorb incoming).state.selfName = none) :
    NameInStep L none := by
  have hold : c.state.selfName = none := by
    have hmerged : mergeSelfName c.state.selfName incoming.selfName = none := hnone
    cases hinc : incoming.selfName with
    | none => rwa [hinc] at hmerged
    | some v =>
        rw [hinc, mergeSelfName, Option.or_eq_none_iff] at hmerged
        exact hmerged.2
  rwa [hold] at h

/-- A snapshot whose display name has a blank before it. -/
def blankBefore : SyncSnapshot :=
  SyncState.toSnapshot
    { selfName := some { name := " Ann", clock := ⟨1, Fleet.pairOfDevices.2⟩ } } 1
    Fleet.pairOfDevices.2

end Arvolo.Sync
