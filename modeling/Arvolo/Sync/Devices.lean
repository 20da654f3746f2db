import Arvolo.Sync.RoundTrip

/-!
The device register, under whatever snapshots come in.

A live row is only taken from the machine it describes, which is checked against the clock in
the row and not against whoever handed the snapshot over. So a snapshot can replace the row of a
machine by a tombstone or by a later row of that machine's own, and by nothing else. The second
of these is how a machine that has been forgotten comes back; there is no other way.
-/

namespace Arvolo.Sync

open Lib
open Std (ExtTreeMap)

/-- What can happen on one device. The snapshots it merges are anybody's. -/
inductive DeviceEvent
  /-- Anything that rewrites the ledgers and leaves the sidecar alone. -/
  | edit (ledgers : Ledgers)
  | setMyDisplayName (name : String)
  | forgetDevice (id : DeviceId)
  | build (env : Env)
  | merge (env : Env) (incoming : SyncSnapshot)

namespace Device

/-- The row of the register for `id`. -/
def row (dev : Device) (id : DeviceId) : Option DeviceReg :=
  dev.loadMeta.state.devices[deviceKey id]?

def step (d : DeviceId) (dev : Device) : DeviceEvent → Device
  | .edit ledgers => { dev with ledgers }
  | .setMyDisplayName name => dev.setMyDisplayName d name
  | .forgetDevice id => dev.forgetDevice d id
  | .build env => (dev.buildLocalSnapshot env d).1
  | .merge env incoming => dev.applyMergedState env d incoming

/-- A run, from a device that has never synced. -/
def run (d : DeviceId) (es : List DeviceEvent) : Device := es.foldl (step d) {}

/-- The row for `id` is a tombstone. -/
def Forgotten (dev : Device) (id : DeviceId) : Prop := ∃ r, dev.row id = some r ∧ r.deleted = true

end Device

/-- The snapshot has a live row for `id`, written by `id`, later than what is held. -/
def Announces (id : DeviceId) (held : Option DeviceReg) (incoming : SyncSnapshot) : Prop :=
  ∃ r, (SyncState.fromSnapshot incoming).devices[deviceKey id]? = some r ∧ r.deleted = false ∧
    r.clock.device = id ∧ rank DeviceReg.clock held < (r.clock : WithBot Lamport)

/-- The event merges such a snapshot. -/
def DeviceEvent.Announces (id : DeviceId) (held : Option DeviceReg) : DeviceEvent → Prop
  | .merge _ incoming => Sync.Announces id held incoming
  | _ => False

/-! ### One merge -/

section Merge

variable (s t : SyncState) (id : DeviceId)

/-- What a merge can do to the row for `id`. -/
theorem getElem?_merge_devices : (s.merge t).devices[deviceKey id]? = s.devices[deviceKey id]? ∨
    ∃ r, t.devices[deviceKey id]? = some r ∧ (s.merge t).devices[deviceKey id]? = some r ∧
      (r.deleted = true ∨ r.clock.device = id ∧
        rank DeviceReg.clock s.devices[deviceKey id]? < (r.clock : WithBot Lamport)) := by
  have hrow : (s.merge t).devices[deviceKey id]? = _ :=
    getElem?_foldInto _ s.devices t.devices (deviceKey id)
  rw [hrow]
  cases ht : t.devices[deviceKey id]? with
  | none => exact .inl rfl
  | some r =>
      dsimp only
      split
      next => exact .inl rfl
      next hown =>
        have hauthor (hlive : r.deleted = false) : r.clock.device = id := by
          simp only [hlive, Bool.not_false, Bool.true_and, bne_iff_ne, ne_eq, not_not] at hown
          exact deviceKey_injective hown
        cases hs : s.devices[deviceKey id]? with
        | none =>
            refine .inr ⟨r, rfl, rfl, ?_⟩
            cases hlive : r.deleted with
            | true => exact .inl rfl
            | false => exact .inr ⟨hauthor hlive, WithBot.bot_lt_coe _⟩
        | some cur =>
            simp only [takeNewerOrDeleted]
            split_ifs with hlt heq hdel
            · exact .inl rfl
            · refine .inr ⟨r, rfl, rfl, .inl ?_⟩
              exact (Bool.and_eq_true _ _ ▸ hdel).1
            · exact .inl rfl
            · refine .inr ⟨r, rfl, rfl, ?_⟩
              cases hlive : r.deleted with
              | true => exact .inl rfl
              | false =>
                  have hnewer : cur.clock < r.clock := lt_of_le_of_ne (not_lt.1 hlt) heq
                  exact .inr ⟨hauthor hlive, WithBot.coe_lt_coe.2 hnewer⟩

/-- A later row of the machine's own is always taken. -/
theorem merge_devices_of_announces {snap : SyncSnapshot}
    (h : Announces id s.devices[deviceKey id]? snap) :
    ∃ r, (s.merge (.fromSnapshot snap)).devices[deviceKey id]? = some r ∧ r.deleted = false := by
  obtain ⟨r, hr, hlive, hauthor, hnewer⟩ := h
  refine ⟨r, ?_, hlive⟩
  have hrow : (s.merge (.fromSnapshot snap)).devices[deviceKey id]? = _ :=
    getElem?_foldInto _ s.devices _ (deviceKey id)
  rw [hrow, hr]
  dsimp only
  rw [if_neg (by simp [hauthor])]
  cases hs : s.devices[deviceKey id]? with
  | none => simp [takeNewerOrDeleted]
  | some cur =>
      rw [hs] at hnewer
      have hlt : cur.clock < r.clock := WithBot.coe_lt_coe.1 hnewer
      simp [takeNewerOrDeleted, hlt.not_gt, hlt.ne]

/-- Whatever is merged in, the live rows stay self-authored. -/
theorem SelfAuthored.merge_any (hs : SelfAuthored s.devices) :
    SelfAuthored (s.merge t).devices := by
  intro key r hr hlive
  have hrow : (s.merge t).devices[key]? = _ := getElem?_foldInto _ s.devices t.devices key
  rw [hrow] at hr
  cases ht : t.devices[key]? with
  | none =>
      rw [ht] at hr
      exact hs key r hr hlive
  | some inc =>
      simp only [ht] at hr
      split at hr
      next => exact hs key r hr hlive
      next hown =>
        rcases (picks_takeNewerOrDeleted DeviceReg.clock DeviceReg.deleted s.devices[key]?
          (some inc)).choice with hcur | hinc
        · exact hs key r (hcur ▸ hr) hlive
        · obtain rfl : inc = r := Option.some.inj (hinc.symm.trans hr)
          simpa [hlive] using hown

end Merge

/-! ### One event -/

section Step

variable {d id : DeviceId} {dev : Device}

theorem devices_foldLedgers (L : Ledgers) (c : Sidecar) :
    (foldLedgers d L c).state.devices = c.state.devices := rfl

/-- A machine announces itself in its own row, and only if that is not a tombstone. -/
theorem getElem?_registerThisDevice (env : Env) (c : Sidecar) (ledger : Map DeviceRow)
    (h : id ≠ d ∨ ∃ r, c.state.devices[deviceKey id]? = some r ∧ r.deleted = true) :
    (registerThisDevice env d c ledger).1.state.devices[deviceKey id]? =
      c.state.devices[deviceKey id]? := by
  rw [registerThisDevice]
  dsimp only
  split
  next => rfl
  next hlive =>
    split
    next => rfl
    next =>
      have hid : id ≠ d := by
        rcases h with hother | ⟨r, hr, hdel⟩
        · exact hother
        · rintro rfl
          simp [hr, hdel] at hlive
      have hkey : compare (deviceKey d) (deviceKey id) ≠ .eq := fun he =>
        hid (deviceKey_injective (Std.LawfulEqCmp.eq_of_compare he).symm)
      simp [mint, ExtTreeMap.getElem?_insert, hkey]

/-- A fold writes no row but this machine's own. -/
theorem row_build (env : Env) (h : id ≠ d ∨ dev.Forgotten id) :
    ((dev.buildLocalSnapshot env d).1).row id = dev.row id := by
  rw [Device.row, devices_buildLocalSnapshot]
  exact getElem?_registerThisDevice env (foldLedgers d dev.ledgers dev.loadMeta) _ h

theorem row_stampMyName (name : String) : (stampMyName d dev name).row id = dev.row id := by
  unfold stampMyName Device.row
  by_cases h : dev.loadMeta.state.selfName.any fun r => r.name == name
  · rw [if_pos h]
  · rw [if_neg h, Device.loadMeta_saveMeta]
    rfl

theorem row_setMyDisplayName (name : String) : (dev.setMyDisplayName d name).row id = dev.row id := by
  rw [Device.setMyDisplayName, row_stampMyName, Device.row, Device.loadMeta_ledgers, Device.row]

/-- Forgetting a machine leaves a tombstone in its row and touches no other. -/
theorem row_forgetDevice (gone : DeviceId) : (dev.forgetDevice d gone).row id = dev.row id ∨
    (dev.forgetDevice d gone).Forgotten id := by
  simp only [Device.Forgotten, Device.row, Device.forgetDevice, tombstoneDevice,
    Device.loadMeta_saveMeta, mint, ExtTreeMap.getElem?_insert]
  split
  next => exact .inr ⟨_, rfl, rfl⟩
  next => exact .inl rfl

theorem row_applyMergedState (env : Env) (incoming : SyncSnapshot) :
    (dev.applyMergedState env d incoming).row id =
      ((dev.buildLocalSnapshot env d).1.loadMeta.state.merge
        (.fromSnapshot incoming)).devices[deviceKey id]? := by
  rw [Device.row, loadMeta_applyMergedState]
  rfl

/-- What one event can do to the row for `id`: nothing; make it a tombstone; announce this
machine itself, if `id` is this machine and has not been forgotten; or take a later row that
`id` wrote. -/
theorem row_step (d id : DeviceId) (dev : Device) (e : DeviceEvent) :
    (dev.step d e).row id = dev.row id ∨ (dev.step d e).Forgotten id ∨
      (id = d ∧ ¬ dev.Forgotten id) ∨ e.Announces id (dev.row id) := by
  cases e with
  | edit ledgers => exact .inl rfl
  | setMyDisplayName name => exact .inl (row_setMyDisplayName name)
  | forgetDevice gone => exact (row_forgetDevice gone).imp_right .inl
  | build env =>
      by_cases hown : id = d ∧ ¬ dev.Forgotten id
      · exact .inr (.inr (.inl hown))
      · exact .inl (row_build env (by tauto))
  | merge env incoming =>
      by_cases hown : id = d ∧ ¬ dev.Forgotten id
      · exact .inr (.inr (.inl hown))
      · have hbuilt : ((dev.buildLocalSnapshot env d).1).row id = dev.row id :=
          row_build env (by tauto)
        simp only [Device.step, Device.Forgotten, row_applyMergedState]
        rcases getElem?_merge_devices (dev.buildLocalSnapshot env d).1.loadMeta.state
          (.fromSnapshot incoming) id with hsame | ⟨r, hinc, htaken, hdel | hlater⟩
        · exact .inl (hsame.trans hbuilt)
        · exact .inr (.inl ⟨r, htaken, hdel⟩)
        · cases hlive : r.deleted with
          | true => exact .inr (.inl ⟨r, htaken, hlive⟩)
          | false =>
              rw [← hbuilt]
              exact .inr (.inr (.inr ⟨r, hinc, hlive, hlater⟩))

/-- What is forgotten stays so exactly if no later row of its own is merged in. -/
theorem forgotten_step_iff (h : dev.Forgotten id) (e : DeviceEvent) :
    (dev.step d e).Forgotten id ↔ ¬ e.Announces id (dev.row id) := by
  constructor
  · rintro ⟨r, hr, hdel⟩ hann
    cases e with
    | merge env incoming =>
        rw [Device.step, row_applyMergedState] at hr
        rw [DeviceEvent.Announces, ← row_build env (.inr h)] at hann
        obtain ⟨r', hr', hlive⟩ := merge_devices_of_announces _ _ hann
        obtain rfl := Option.some.inj (hr.symm.trans hr')
        simp [hdel] at hlive
    | _ => exact hann
  · intro hnone
    rcases row_step d id dev e with hsame | hforgotten | ⟨-, hlive⟩ | hann
    · rwa [Device.Forgotten, hsame]
    · exact hforgotten
    · exact absurd h hlive
    · exact absurd hann hnone

theorem selfAuthored_step (e : DeviceEvent) (h : SelfAuthored dev.loadMeta.state.devices) :
    SelfAuthored (dev.step d e).loadMeta.state.devices := by
  cases e with
  | edit ledgers => exact h
  | setMyDisplayName name => exact (extends_setMyDisplayName d dev name).authored h
  | forgetDevice gone => exact (extends_forgetDevice d dev gone).authored h
  | build env => exact (extends_buildLocalSnapshot env d dev).authored h
  | merge env incoming =>
      rw [Device.step, loadMeta_applyMergedState]
      exact SelfAuthored.merge_any _ _ ((extends_buildLocalSnapshot env d dev).authored h)

end Step

/-! ### Whole runs -/

theorem selfAuthored_run (d : DeviceId) (es : List DeviceEvent) :
    SelfAuthored (Device.run d es).loadMeta.state.devices := by
  refine foldl_inv (fun dev : Device => SelfAuthored dev.loadMeta.state.devices)
    (fun dev e => selfAuthored_step e) ?_ es
  intro key r hr
  simp [Device.loadMeta] at hr

/-- Over any run on any device, whoever wrote the snapshots it merges: the live rows are
self-authored; a row changes only into a tombstone, by this machine announcing itself where it
has not been forgotten, or into a later row that the machine it is for wrote; and a forgotten
machine stays forgotten exactly as long as no such row is merged. -/
theorem register_run (d : DeviceId) (es : List DeviceEvent) :
    (∀ id r, (Device.run d es).row id = some r → r.deleted = false → r.clock.device = id) ∧
    (∀ id e, ((Device.run d es).step d e).row id = (Device.run d es).row id ∨
      ((Device.run d es).step d e).Forgotten id ∨ (id = d ∧ ¬ (Device.run d es).Forgotten id) ∨
      e.Announces id ((Device.run d es).row id)) ∧
    ∀ id es', (Device.run d es).Forgotten id →
      ((∀ n, ((es'.take n).foldl (Device.step d) (Device.run d es)).Forgotten id) ↔
        Along (Device.step d) (fun dev e => ¬ e.Announces id (dev.row id))
          (Device.run d es) es') := by
  refine ⟨fun id r hr hlive => ?_, fun id e => row_step d id _ e, fun id es' hgone => ?_⟩
  · exact deviceKey_injective (selfAuthored_run d es _ r hr hlive)
  · exact forall_take_iff_along (I := fun dev : Device => dev.Forgotten id)
      (fun dev e hdev => forgotten_step_iff hdev e) hgone es'

/-- A snapshot of the second machine with a live row of the first one's in it. -/
def passedOn : SyncSnapshot :=
  let row : DeviceReg :=
    { name := "laptop", platform := "linux", lastSeen := 480, clock := ⟨5, Fleet.pairOfDevices.1⟩,
      deleted := false }
  SyncState.toSnapshot { devices := ExtTreeMap.ofList [(deviceKey Fleet.pairOfDevices.1, row)] } 5
    Fleet.pairOfDevices.2

/-- Somebody else's snapshot can bring a forgotten machine back. -/
theorem not_forgotten_merge : ¬ ∀ (d id : DeviceId) (es : List DeviceEvent) (env : Env)
    (incoming : SyncSnapshot), incoming.device ≠ id → (Device.run d es).Forgotten id →
      ((Device.run d es).step d (.merge env incoming)).Forgotten id := by
  intro h
  have hgone : (Device.run Fleet.pairOfDevices.2
      [.forgetDevice Fleet.pairOfDevices.1]).Forgotten Fleet.pairOfDevices.1 :=
    ⟨tombstoneReg none ⟨1, Fleet.pairOfDevices.2⟩, by decide +kernel, rfl⟩
  obtain ⟨r, hr, hdel⟩ := h Fleet.pairOfDevices.2 Fleet.pairOfDevices.1
    [.forgetDevice Fleet.pairOfDevices.1] Watch.laptop passedOn (by decide) hgone
  have hback : ((Device.run Fleet.pairOfDevices.2 [.forgetDevice Fleet.pairOfDevices.1]).step
      Fleet.pairOfDevices.2 (.merge Watch.laptop passedOn)).row Fleet.pairOfDevices.1 =
      some { name := "laptop", platform := "linux", lastSeen := 480,
             clock := ⟨5, Fleet.pairOfDevices.1⟩, deleted := false } := by
    decide +kernel
  rw [hback] at hr
  obtain rfl := Option.some.inj hr
  cases hdel

end Arvolo.Sync
