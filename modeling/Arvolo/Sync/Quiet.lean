import Arvolo.Sync.Settled
import Arvolo.Sync.Slot

/-!
What sync rounds do once nobody edits any more.

A device whose ledgers are in step with its sidecar mints nothing but a refresh
of its own row, and merging keeps it in step. Two things the program does by
itself can put a device out of step again. Pruning drops name rows, and a row
dropped from the ledger is read as a deletion by the next fold; a row that
another device keeps because it saw the first claim has no first claim here. And
a display name that is not trimmed is not the name the fold reads back.
-/

namespace Arvolo.Sync

open Lib
open Std (ExtTreeMap)

def Cell.deleted : Cell → Bool
  | .contact r => r.deleted
  | .mark r => r.deleted
  | .name r => r.deleted
  | .relay r => r.deleted
  | .device r => r.deleted
  | .selfName _ => false

/-! ### The conditions -/

/-- Pruning would drop no row that shows a name. -/
def NoOrphans (ledgers : Ledgers) : Prop :=
  ∀ e ∈ ledgers.names.toList, nameRule.present e.2 = true →
    e.1 ∈ ledgers.contacts.values ∨ e.2.first ≠ ""

instance (ledgers : Ledgers) : Decidable (NoOrphans ledgers) :=
  inferInstanceAs (Decidable (∀ e ∈ ledgers.names.toList, _))

/-- The name that would be stored is trimmed: sanitising leaves no blank at
either end. -/
def CleanName (name : String) : Prop :=
  trim (sanitizeDisplay (trim name)) = sanitizeDisplay (trim name)

instance (name : String) : Decidable (CleanName name) := inferInstanceAs (Decidable (_ = _))

theorem inStep_pruneOrphanNames {ledgers : Ledgers} {names : Map NameReg}
    (h : InStep nameView ledgers.names names) (hno : NoOrphans ledgers) :
    InStep nameView (pruneOrphanNames ledgers).names names := by
  intro k
  rw [h k]
  simp only [pruneOrphanNames, ExtTreeMap.getElem?_filter']
  cases hk : ledgers.names[k]? with
  | none => rfl
  | some row =>
      rw [Option.filter_some]
      split
      · rfl
      next hdrop =>
        have hrow := hno (k, row) (ExtTreeMap.mem_toList_iff_getElem?_eq_some.mpr hk)
        cases hp : nameView.row row with
        | none => simp [hp]
        | some s =>
            have hpresent : nameRule.present row = true := by simp [nameView.present_eq, hp]
            rcases hrow hpresent with hmem | hfirst
            · exact absurd (by simp [hmem]) hdrop
            · exact absurd (by simp [hfirst]) hdrop

theorem Settled.prune {ledgers : Ledgers} {s : SyncState} (h : Settled ledgers s)
    (hno : NoOrphans ledgers) : Settled (pruneOrphanNames ledgers) s :=
  { h with names := inStep_pruneOrphanNames h.names hno }

theorem state_stampMyName (d : DeviceId) (dev : Device) (name : String) :
    ∃ r : SelfName, r.name = name ∧ (stampMyName d dev name).loadMeta.state =
      { dev.loadMeta.state with selfName := some r } := by
  unfold stampMyName
  by_cases h : dev.loadMeta.state.selfName.any fun r => r.name == name
  · rw [if_pos h]
    generalize dev.loadMeta.state = st at h
    cases hs : st.selfName with
    | none => simp [hs] at h
    | some r =>
        refine ⟨r, by simpa [hs] using h, ?_⟩
        rw [← hs]
  · rw [if_neg h, Device.loadMeta_saveMeta]
    exact ⟨⟨name, ⟨dev.loadMeta.lamport + 1, d⟩⟩, rfl, rfl⟩

/-- The state after the display name is set. -/
theorem state_setMyDisplayName (d : DeviceId) (dev : Device) (name : String) :
    ∃ r : SelfName, r.name = sanitizeDisplay (trim name) ∧
      (dev.setMyDisplayName d name).loadMeta.state =
        { dev.loadMeta.state with selfName := some r } := by
  obtain ⟨r, hr, hstate⟩ := state_stampMyName d
    { dev with ledgers := { dev.ledgers with me := sanitizeDisplay (trim name) } }
    (sanitizeDisplay (trim name))
  refine ⟨r, hr, ?_⟩
  rw [Device.setMyDisplayName, hstate]
  simp only [Device.loadMeta_ledgers]

theorem Tidy.setMyDisplayName {dev : Device} (h : Tidy dev.loadMeta.state) (d : DeviceId)
    {name : String} (hname : CleanName name) : Tidy (dev.setMyDisplayName d name).loadMeta.state := by
  obtain ⟨r, hr, hstate⟩ := state_setMyDisplayName d dev name
  rw [hstate]
  refine ⟨h.names, ?_⟩
  rintro _ ⟨⟩
  rw [hr]
  exact hname

/-! ### Rounds as events of the fleet -/

namespace Slot

/-- What a step of the slot is for the devices. -/
def fleetEvent (s : Slot) : SlotEvent → Option Event
  | .edit d ledgers => some (.edit d ledgers)
  | .setMyDisplayName d name => some (.setMyDisplayName d name)
  | .forgetDevice d id => some (.forgetDevice d id)
  | .start d => some (.edit d (pruneOrphanNames (s.fleet.devices d).ledgers))
  | .merge t env =>
      match s.rounds t with
      | some ⟨d, .merging (⟨_, .snapshot snap⟩ :: _) _ _⟩ =>
          some (.apply d env (s.fleet.posted.findIdx fun p => decide (p.snap = snap)))
      | _ => none
  | .publish t env _ _ =>
      match s.rounds t with
      | some ⟨d, .merging [] _ _⟩ => some (.publish d env)
      | _ => none
  | .finish t =>
      match s.rounds t with
      | some ⟨d, .clearing [] merged⟩ =>
          if merged > 0 then some (.edit d (pruneOrphanNames (s.fleet.devices d).ledgers))
          else none
      | _ => none
  | _ => none

theorem fleet_step (s : Slot) (e : SlotEvent) :
    (s.step e).fleet = (s.fleetEvent e).elim s.fleet s.fleet.step := by
  cases e with
  | edit d ledgers => rfl
  | setMyDisplayName d name => rfl
  | forgetDevice d id => rfl
  | stray body => cases body <;> rfl
  | start d => rfl
  | list t d ids => rfl
  | merge t env =>
      simp only [step, merge, fleetEvent]
      rcases s.rounds t with _ | ⟨d, ⟨_ | ⟨⟨id, body⟩, todo⟩, toClear, merged⟩ | ⟨_, merged⟩⟩
      · rfl
      · rfl
      · cases body <;> rfl
      · rfl
  | publish t env reached answered =>
      simp only [step, publish, fleetEvent]
      rcases s.rounds t with _ | ⟨d, ⟨_ | _, toClear, merged⟩ | ⟨_, merged⟩⟩
      · rfl
      · cases reached <;> rfl
      · rfl
      · rfl
  | ack t reached =>
      simp only [step, ack, fleetEvent]
      rcases s.rounds t with _ | ⟨d, ⟨_, toClear, merged⟩ | ⟨_ | ⟨id, toClear⟩, merged⟩⟩
      · rfl
      · rfl
      · rfl
      · cases reached <;> rfl
  | finish t =>
      simp only [step, finish, fleetEvent]
      rcases s.rounds t with _ | ⟨d, ⟨_, toClear, merged⟩ | ⟨_ | _, merged⟩⟩
      · rfl
      · rfl
      · simp only
        split <;> rfl
      · rfl
  | die t => rfl

end Slot

/-! ### Devices with nothing left to fold -/

/-- Every state held so far is tidy and still known to some device, and the
devices without an unfolded edit are in step. -/
structure Tended (f : Fleet) (unfolded : List DeviceId) : Prop where
  tidy : ∀ s ∈ f.held, Tidy s
  known : ∀ s ∈ f.held, ∃ d, s ≤ f.state d
  settled : ∀ d, d ∉ unfolded → Settled (f.devices d).ledgers (f.state d)

namespace Tended

variable {f : Fleet} {u u' : List DeviceId} {d : DeviceId}

theorem init : Tended {} [] where
  tidy s hs := by
    rw [List.mem_singleton.mp hs]
    exact tidy_empty
  known s hs := by
    rw [List.mem_singleton.mp hs]
    exact ⟨⟨List.replicate 16 0, rfl⟩, Fleet.empty_le _⟩
  settled d _ := by
    have hmap {V R S : Type} {rule : LedgerRule V R} (view : LedgerView rule S) :
        InStep view (∅ : Map V) (∅ : Map R) := fun k => by simp
    exact ⟨⟨hmap _, hmap _, hmap _, hmap _, hmap _, hmap _⟩, trim_empty, rfl⟩

/-- A device gets new files. -/
theorem put (h : Tended f u) {dev : Device} {taken : List SyncState}
    (hu : ∀ e, e ≠ d → e ∉ u' → e ∉ u) (htidy : Tidy dev.loadMeta.state)
    (hle : f.state d ≤ dev.loadMeta.state)
    (hset : d ∉ u' → Settled dev.ledgers dev.loadMeta.state) : Tended (f.put d dev taken) u' where
  tidy s hs := by
    rcases List.mem_cons.mp hs with rfl | hs
    · exact htidy
    · exact h.tidy s hs
  known s hs := by
    rcases List.mem_cons.mp hs with rfl | hs
    · exact ⟨d, by rw [Fleet.state_put_self]⟩
    · obtain ⟨e, he⟩ := h.known s hs
      exact ⟨e, he.trans (Fleet.state_le_put hle e)⟩
  settled e he := by
    by_cases hed : e = d
    · subst hed
      rw [Fleet.state_put_self, Fleet.put]
      simpa using hset he
    · rw [Fleet.state_put_of_ne hed, Fleet.put]
      simpa [Function.update_of_ne hed] using h.settled e (hu e hed he)

/-- A device gets new ledgers. -/
theorem edit (h : Tended f u) {ledgers : Ledgers} (hu : ∀ e, e ≠ d → e ∉ u' → e ∉ u)
    (hset : d ∉ u' → Settled ledgers (f.state d)) : Tended (f.edit d ledgers) u' where
  tidy := h.tidy
  known s hs := by
    obtain ⟨e, he⟩ := h.known s hs
    refine ⟨e, he.trans ?_⟩
    by_cases hed : e = d
    · subst hed
      simp [Fleet.state, Fleet.edit]
    · simp [Fleet.state, Fleet.edit, Function.update_of_ne hed]
  settled e he := by
    by_cases hed : e = d
    · subst hed
      simpa [Fleet.state, Fleet.edit] using hset he
    · simpa [Fleet.state, Fleet.edit, Function.update_of_ne hed] using h.settled e (hu e hed he)

theorem notMem_of_cons (e : DeviceId) (_ : e ≠ d) (h : e ∉ d :: u) : e ∉ u :=
  fun hu => h (List.mem_cons_of_mem _ hu)

theorem notMem_of_filter (e : DeviceId) (hed : e ≠ d) (h : e ∉ u.filter (· ≠ d)) : e ∉ u :=
  fun hu => h (List.mem_filter.mpr ⟨hu, by simpa using hed⟩)

theorem fold (h : Tended f u) (hf : f.Inv) (env : Env) :
    Tended (f.write d ((f.devices d).buildLocalSnapshot env d).1) (u.filter (· ≠ d)) := by
  have hset := settled_buildLocalSnapshot env d (f.devices d)
  exact h.put notMem_of_filter hset.tidy
    (Fleet.le_of_extends (extends_buildLocalSnapshot env d (f.devices d)) (hf.bounded d))
    fun _ => hset

theorem publish (h : Tended f u) (hf : f.Inv) (env : Env) :
    Tended (f.publish d env) (u.filter (· ≠ d)) := by
  have hfold := h.fold hf (d := d) env
  exact ⟨hfold.tidy, hfold.known, hfold.settled⟩

theorem apply (h : Tended f u) (hf : f.Inv) (env : Env) {n : ℕ} {p : Posting}
    (hn : f.posted[n]? = some p) : Tended (f.apply d env n) (u.filter (· ≠ d)) := by
  have hp : SyncState.fromSnapshot p.snap ∈ f.held := hf.held_posted p (List.mem_of_getElem? hn)
  have hauth := hf.coherent.authored _ hp
  have hset := settled_applyMergedState env d (f.devices d) hauth (h.tidy _ hp)
  simp only [Fleet.apply, hn]
  refine (h.fold hf (d := d) env).put (fun _ _ he => he) hset.tidy ?_ fun _ => hset
  rw [Fleet.write, Fleet.state_put_self, loadMeta_applyMergedState]
  exact le_merge_left hauth

theorem setMyDisplayName (h : Tended f u) (hf : f.Inv) {name : String} (hname : CleanName name) :
    Tended (f.write d ((f.devices d).setMyDisplayName d name)) (d :: u) :=
  h.put notMem_of_cons ((h.tidy _ (hf.held_state d)).setMyDisplayName d hname)
    (Fleet.le_of_extends (extends_setMyDisplayName d _ name) (hf.bounded d))
    fun hd => absurd List.mem_cons_self hd

theorem forgetDevice (h : Tended f u) (hf : f.Inv) (id : DeviceId) :
    Tended (f.write d ((f.devices d).forgetDevice d id)) (d :: u) := by
  refine h.put notMem_of_cons ?_
    (Fleet.le_of_extends (extends_forgetDevice d _ id) (hf.bounded d))
    fun hd => absurd List.mem_cons_self hd
  have htidy := h.tidy _ (hf.held_state d)
  simp only [Device.forgetDevice, tombstoneDevice, Device.loadMeta_saveMeta,
    Device.loadMeta_ledgers]
  exact ⟨htidy.names, htidy.selfName⟩

end Tended

/-! ### Runs -/

/-- The device whose user an event is an edit of. -/
def SlotEvent.userEdit : SlotEvent → Option DeviceId
  | .edit d _ => some d
  | .setMyDisplayName d _ => some d
  | .forgetDevice d _ => some d
  | _ => none

/-- A slot, with the devices whose last edit no fold has taken in yet. -/
structure Watch where
  slot : Slot := {}
  unfolded : List DeviceId := []

namespace Watch

def step (w : Watch) (e : SlotEvent) : Watch where
  slot := w.slot.step e
  unfolded :=
    match e.userEdit, w.slot.fleetEvent e with
    | some d, _ => d :: w.unfolded
    | none, some (.publish d _) => w.unfolded.filter (· ≠ d)
    | none, some (.apply d _ _) => w.unfolded.filter (· ≠ d)
    | none, _ => w.unfolded

def run (es : List SlotEvent) : Watch := es.foldl step {}

/-- The device that prunes when round `t` finishes. -/
def prunes (w : Watch) (t : ℕ) : Option DeviceId :=
  match w.slot.rounds t with
  | some ⟨d, .clearing [] merged⟩ => if merged > 0 then some d else none
  | _ => none

/-- What a run must keep to: no display name is set that sanitising leaves with
a blank at an end, and pruning never meets a name row without a contact and
without a first claim. -/
def Calm (w : Watch) : SlotEvent → Prop
  | .setMyDisplayName _ name => CleanName name
  | .start d => NoOrphans (w.slot.fleet.devices d).ledgers
  | .finish t => ∀ d ∈ w.prunes t, NoOrphans (w.slot.fleet.devices d).ledgers
  | _ => True

instance (w : Watch) : (e : SlotEvent) → Decidable (w.Calm e)
  | .setMyDisplayName _ name => inferInstanceAs (Decidable (CleanName name))
  | .start d => inferInstanceAs (Decidable (NoOrphans (w.slot.fleet.devices d).ledgers))
  | .finish t => inferInstanceAs
      (Decidable (∀ d ∈ w.prunes t, NoOrphans (w.slot.fleet.devices d).ledgers))
  | .edit _ _ | .forgetDevice _ _ | .stray _ | .list _ _ _ | .merge _ _ | .publish _ _ _ _
  | .ack _ _ | .die _ => .isTrue trivial

structure Inv (w : Watch) : Prop where
  slot : w.slot.Inv
  tended : Tended w.slot.fleet w.unfolded

theorem Inv.prune {w : Watch} (h : w.Inv) (d : DeviceId)
    (hno : NoOrphans (w.slot.fleet.devices d).ledgers) :
    Tended (w.slot.fleet.edit d (pruneOrphanNames (w.slot.fleet.devices d).ledgers))
      w.unfolded :=
  h.tended.edit (fun _ _ he => he) fun hd => (h.tended.settled d hd).prune hno

theorem Inv.step {w : Watch} (h : w.Inv) {e : SlotEvent} (hcalm : w.Calm e) :
    (w.step e).Inv := by
  refine ⟨h.slot.step e, ?_⟩
  have hfleet := Slot.fleet_step w.slot e
  simp only [Watch.step]
  rw [hfleet]
  cases e with
  | edit d ledgers =>
      exact h.tended.edit Tended.notMem_of_cons fun hd => absurd List.mem_cons_self hd
  | setMyDisplayName d name => exact h.tended.setMyDisplayName h.slot.fleet hcalm
  | forgetDevice d id => exact h.tended.forgetDevice h.slot.fleet id
  | stray body => exact h.tended
  | start d => exact h.prune d hcalm
  | list t d ids => exact h.tended
  | merge t env =>
      simp only [Slot.fleetEvent, SlotEvent.userEdit]
      split
      next d id snap todo toClear merged hr =>
        obtain ⟨htodo, -⟩ := h.slot.round t _ hr
        have hpub := h.slot.published _ (htodo _ List.mem_cons_self) snap rfl
        obtain ⟨p, hp, -⟩ := Slot.getElem?_findIdx_posted hpub
        exact h.tended.apply h.slot.fleet env hp
      · exact h.tended
  | publish t env reached answered =>
      simp only [Slot.fleetEvent, SlotEvent.userEdit]
      split
      · exact h.tended.publish h.slot.fleet env
      · exact h.tended
  | ack t reached => exact h.tended
  | finish t =>
      simp only [Slot.fleetEvent, SlotEvent.userEdit]
      split
      next d merged hr =>
        split
        next hm => exact h.prune d (hcalm d (by simp [prunes, hr, hm]))
        · exact h.tended
      · exact h.tended
  | die t => exact h.tended

theorem inv_init : Inv {} := ⟨Slot.inv_init, .init⟩

theorem inv_run {es : List SlotEvent} (h : Along step Calm {} es) : (run es).Inv :=
  h.foldl_inv Inv (fun _ _ hw hc => hw.step hc) inv_init

end Watch

/-! ### Nothing but rows of their own -/

/-- Registering this machine writes a live row, or nothing. -/
theorem registerThisDevice_own (env : Env) (d : DeviceId) (c : Sidecar) (devices : Map DeviceRow) :
    (registerThisDevice env d c devices).1.state.cell (.device (deviceKey d)) =
        c.state.cell (.device (deviceKey d)) ∨
      ∃ r, (registerThisDevice env d c devices).1.state.cell (.device (deviceKey d)) =
        some (.device r) ∧ r.deleted = false := by
  simp only [registerThisDevice]
  split
  · exact .inl rfl
  · split
    · exact .inl rfl
    · refine .inr ⟨_, by simp only [SyncState.cell, mint, ExtTreeMap.getElem?_insert_self]; rfl, ?_⟩
      rfl

/-- A device in step mints nothing but a live row of its own. -/
theorem buildLocalSnapshot_of_settled {dev : Device} {d : DeviceId}
    (h : Settled dev.ledgers dev.loadMeta.state) (env : Env) {l : Loc} {x : Cell}
    (hx : (dev.buildLocalSnapshot env d).1.loadMeta.state.cell l = some x)
    (hnew : dev.loadMeta.state.cell l ≠ some x) :
    l = .device (deviceKey d) ∧ ∃ r, x = .device r ∧ r.deleted = false := by
  have hl : l = .device (deviceKey d) := by
    by_contra hl
    rw [cell_buildLocalSnapshot_of_settled h env l hl] at hx
    exact hnew hx
  subst hl
  refine ⟨rfl, ?_⟩
  simp only [Device.buildLocalSnapshot, Device.loadMeta_saveMeta, foldLedgers_of_settled h] at hx
  rw [registerMyName_of_inStep (by rw [registerThisDevice_selfName]; exact h.selfName)] at hx
  rcases registerThisDevice_own env d (foldSeen dev.ledgers.seen dev.ledgers.last dev.loadMeta)
    dev.ledgers.devices with he | ⟨r, hr, hd⟩
  · rw [he, cell_foldSeen] at hx
    exact absurd hx hnew
  · exact ⟨r, Option.some.inj (hx.symm.trans hr), hd⟩

/-- A step that is no user edit prunes, publishes or merges. -/
theorem Slot.fleetEvent_cases {s : Slot} {e : SlotEvent} (huser : e.userEdit = none) {fe : Event}
    (hfe : s.fleetEvent e = some fe) : (∃ d ledgers, fe = .edit d ledgers) ∨
      (∃ d env, fe = .publish d env) ∨ ∃ d env n, fe = .apply d env n := by
  cases e with
  | edit d ledgers => cases huser
  | setMyDisplayName d name => cases huser
  | forgetDevice d id => cases huser
  | stray body => cases hfe
  | start d => exact .inl ⟨d, _, (Option.some.inj hfe).symm⟩
  | list t d ids => cases hfe
  | merge t env =>
      simp only [Slot.fleetEvent] at hfe
      split at hfe
      · exact .inr (.inr ⟨_, _, _, (Option.some.inj hfe).symm⟩)
      · cases hfe
  | publish t env reached answered =>
      simp only [Slot.fleetEvent] at hfe
      split at hfe
      · exact .inr (.inl ⟨_, _, (Option.some.inj hfe).symm⟩)
      · cases hfe
  | ack t reached => cases hfe
  | finish t =>
      simp only [Slot.fleetEvent] at hfe
      split at hfe
      · split at hfe
        · exact .inl ⟨_, _, (Option.some.inj hfe).symm⟩
        · cases hfe
      · cases hfe
  | die t => cases hfe

/-- A register in a newly held state was held before, or is minted by the step. -/
theorem Fleet.Inv.held_step {f : Fleet} (h : f.Inv) (fe : Event) {s : SyncState}
    (hs : s ∈ (f.step fe).held) {l : Loc} {x : Cell} (hx : s.cell l = some x) :
    (∃ t ∈ f.held, t.cell l = some x) ∨ f.Mints fe l x := by
  have hlocal (hx : (f.localPart fe).loadMeta.state.cell l = some x) :
      (∃ t ∈ f.held, t.cell l = some x) ∨ f.Mints fe l x := by
    by_cases hold : (f.state fe.device).cell l = some x
    · exact .inl ⟨_, h.held_state fe.device, hold⟩
    · exact .inr ⟨hx, hold⟩
  cases fe with
  | edit d ledgers => exact .inl ⟨s, hs, hx⟩
  | setMyDisplayName d name =>
      rcases List.mem_cons.mp hs with rfl | hs
      · exact hlocal hx
      · exact .inl ⟨s, hs, hx⟩
  | forgetDevice d id =>
      rcases List.mem_cons.mp hs with rfl | hs
      · exact hlocal hx
      · exact .inl ⟨s, hs, hx⟩
  | publish d env =>
      rcases List.mem_cons.mp hs with rfl | hs
      · exact hlocal hx
      · exact .inl ⟨s, hs, hx⟩
  | apply d env n =>
      simp only [Fleet.step, Fleet.apply] at hs
      cases hn : f.posted[n]? with
      | none =>
          rw [hn] at hs
          exact .inl ⟨s, hs, hx⟩
      | some p =>
          rw [hn] at hs
          have hlt : n < f.posted.length := (List.getElem?_eq_some_iff.mp hn).1
          rw [Fleet.localPart, if_pos hlt] at hlocal
          have hp := h.held_posted p (List.mem_of_getElem? hn)
          rcases List.mem_cons.mp hs with rfl | hs
          · rw [loadMeta_applyMergedState] at hx
            rcases (picks_merge (s := ((f.devices d).buildLocalSnapshot env d).1.loadMeta.state)
              (h.coherent.authored _ hp) l).choice with he | he
            · exact hlocal (he.symm.trans hx)
            · exact .inl ⟨_, hp, he.symm.trans hx⟩
          · rcases List.mem_cons.mp hs with rfl | hs
            · exact hlocal hx
            · exact .inl ⟨s, hs, hx⟩

namespace Watch

/-- What a step without a user edit mints, when nothing is left to fold. -/
theorem Inv.mints {w : Watch} (h : w.Inv) (hall : w.unfolded = []) {e : SlotEvent}
    (huser : e.userEdit = none) {fe : Event} (hfe : w.slot.fleetEvent e = some fe) {l : Loc}
    {x : Cell} (hx : w.slot.fleet.Mints fe l x) :
    l = .device (deviceKey fe.device) ∧ ∃ r, x = .device r ∧ r.deleted = false := by
  obtain ⟨d, ledgers, rfl⟩ | ⟨d, env, rfl⟩ | ⟨d, env, n, rfl⟩ :=
    Slot.fleetEvent_cases huser hfe
  · exact absurd hx.1 hx.2
  · exact buildLocalSnapshot_of_settled (h.tended.settled d (hall ▸ List.not_mem_nil)) env hx.1 hx.2
  · obtain ⟨hx, hnew⟩ := hx
    simp only [Fleet.localPart] at hx
    split at hx
    · exact buildLocalSnapshot_of_settled (h.tended.settled d (hall ▸ List.not_mem_nil)) env hx hnew
    · exact absurd hx hnew

/-- Since `w₀`: nothing is left to fold, and every register held was held then or
is a live device row. -/
structure Since (w₀ w : Watch) : Prop where
  folded : w.unfolded = []
  old : ∀ s ∈ w.slot.fleet.held, ∀ l x, s.cell l = some x →
    (∃ t ∈ w₀.slot.fleet.held, t.cell l = some x) ∨ ∃ r, x = .device r ∧ r.deleted = false

theorem Since.step {w₀ w : Watch} (h : Since w₀ w) (hw : w.Inv) {e : SlotEvent}
    (huser : e.userEdit = none) : Since w₀ (w.step e) where
  folded := by
    simp only [Watch.step, huser, h.folded]
    cases w.slot.fleetEvent e with
    | none => rfl
    | some fe => cases fe <;> rfl
  old s hs l x hx := by
    simp only [Watch.step, Slot.fleet_step] at hs
    cases hfe : w.slot.fleetEvent e with
    | none =>
        rw [hfe] at hs
        exact h.old s hs l x hx
    | some fe =>
        rw [hfe] at hs
        rcases hw.slot.fleet.held_step fe hs hx with ⟨t, ht, htx⟩ | hmint
        · exact h.old t ht l x htx
        · exact .inr (hw.mints h.folded huser hfe hmint).2

end Watch

/-! ### Quiescence -/

/-- The register the join of everything known has at `l`. -/
def Slot.Top (s : Slot) (l : Loc) (x : Cell) : Prop :=
  (∃ st ∈ s.knows, st.cell l = some x) ∧
    ∀ st ∈ s.knows, rank Cell.clock (st.cell l) ≤ x.clock

namespace Watch

/-- From event `i` on the run is quiet: if by then every edit has been folded and
no edit follows, the events from there on mint nothing but live rows of the
devices' own, and what is live in the join at `i` is live in the join from there
on. -/
def Quiescent (es : List SlotEvent) (i : ℕ) : Prop :=
  (run (es.take i)).unfolded = [] → (∀ e ∈ es.drop i, e.userEdit = none) →
  (∀ j e fe l x, i ≤ j → es[j]? = some e → (run (es.take j)).slot.fleetEvent e = some fe →
    (run (es.take j)).slot.fleet.Mints fe l x →
    l = .device (deviceKey fe.device) ∧ ∃ r, x = .device r ∧ r.deleted = false) ∧
  ∀ j l x y, i ≤ j → (run (es.take i)).slot.Top l x → x.deleted = false →
    (run (es.take j)).slot.Top l y → y.deleted = false

theorem slot_run (es : List SlotEvent) : (run es).slot = Slot.run es := by
  induction es using List.reverseRecOn with
  | nil => rfl
  | append_singleton es e ih =>
      rw [run, List.foldl_append, Slot.run, List.foldl_append]
      exact congrArg (Slot.step · e) ih

/-- The states of a later point of a quiet run. -/
theorem since_take {es : List SlotEvent} (h : Along step Calm {} es) {i j : ℕ} (hij : i ≤ j)
    (hall : (run (es.take i)).unfolded = [])
    (hquiet : ∀ e ∈ es.drop i, e.userEdit = none) :
    Since (run (es.take i)) (run (es.take j)) := by
  induction j, hij using Nat.le_induction with
  | base => exact ⟨hall, fun s hs l x hx => .inl ⟨s, hs, hx⟩⟩
  | succ j hij ih =>
      cases hj : es[j]? with
      | none =>
          rw [List.take_add_one, hj]
          simpa using ih
      | some e =>
          have hstep : run (es.take (j + 1)) = (run (es.take j)).step e := by
            rw [List.take_add_one, hj, run, List.foldl_append]
            rfl
          have he : e ∈ es.drop i := by
            refine List.mem_of_getElem? (i := j - i) ?_
            rw [List.getElem?_drop, Nat.add_sub_cancel' hij, hj]
          rw [hstep]
          exact ih.step (inv_run (h.take j)) (hquiet e he)

/-- Everything known has been held by some sidecar. -/
theorem held_of_knows {s : Slot} (h : s.Inv) {st : SyncState}
    (hst : st ∈ s.knows) : st ∈ s.fleet.held := by
  rcases hst with ⟨n, hn, snap, hsnap, rfl⟩ | ⟨d, rfl⟩
  · obtain ⟨p, hp, rfl⟩ := h.published n (h.live n hn) snap hsnap
    exact h.fleet.held_posted p hp
  · exact h.fleet.held_state d

/-- The join only gets newer registers along a run. -/
theorem top_le {es : List SlotEvent} {i j : ℕ} (hij : i ≤ j) {l : Loc} {x y : Cell}
    (hx : (Slot.run (es.take i)).Top l x) (hy : (Slot.run (es.take j)).Top l y) :
    x.clock ≤ y.clock := by
  obtain ⟨⟨st, hst, hcell⟩, -⟩ := hx
  have hsplit : Slot.run (es.take j) =
      ((es.take j).drop i).foldl Slot.step (Slot.run (es.take i)) := by
    have htake := List.take_append_drop i (es.take j)
    rw [List.take_take, min_eq_left hij] at htake
    rw [Slot.run, Slot.run, ← List.foldl_append, htake]
  have hi := Slot.inv_run (es.take i)
  obtain ⟨z, hz, hle⟩ := (hi.keeps_foldl _).knows hi (hsplit ▸ Slot.inv_run (es.take j)) hst
  have hrank := (hle.1 l).trans (hy.2 z (hsplit ▸ hz))
  rw [hcell] at hrank
  exact WithBot.coe_le_coe.mp hrank

/-- Sync comes to rest. In every run that sets no display name with a blank at an
end, and in which pruning never meets a name row that has neither a contact nor a
first claim, rounds after the last edit mint nothing but live rows of the devices'
own, and nothing that is live in the join turns into a tombstone. -/
theorem rounds_quiesce (es : List SlotEvent) (h : Along step Calm {} es) (i : ℕ) :
    Quiescent es i := by
  intro hall hquiet
  refine ⟨?_, ?_⟩
  · intro j e fe l x hij hj hfe hx
    have he : e ∈ es.drop i := by
      refine List.mem_of_getElem? (i := j - i) ?_
      rw [List.getElem?_drop, Nat.add_sub_cancel' hij, hj]
    exact (inv_run (h.take j)).mints (since_take h hij hall hquiet).folded (hquiet e he) hfe hx
  · intro j l x y hij hx hlive hy
    have hi := inv_run (h.take i)
    have hj := inv_run (h.take j)
    obtain ⟨⟨st, hst, hcell⟩, -⟩ := id hy
    rcases (since_take h hij hall hquiet).old st (held_of_knows hj.slot hst) l y hcell with
      ⟨t, ht, hty⟩ | ⟨r, rfl, hr⟩
    · -- an old register: both are at the top, so they are one register
      obtain ⟨d, hd⟩ := hi.tended.known t ht
      have hyx : y.clock ≤ x.clock := by
        have hrank := (hd.1 l).trans (hx.2 _ (.inr ⟨d, rfl⟩))
        rw [hty] at hrank
        exact WithBot.coe_le_coe.mp hrank
      obtain ⟨⟨sx, hsx, hxcell⟩, -⟩ := id hx
      have hxy : x.clock ≤ y.clock := by
        rw [slot_run] at hx
        have hy' := hy
        rw [slot_run] at hy'
        exact top_le hij hx hy'
      have heq : x = y := hi.slot.fleet.coherent.compatible sx (held_of_knows hi.slot hsx) t ht l x
        hxcell y hty (le_antisymm hxy hyx)
      rw [← heq]
      exact hlive
    · exact hr

/-- A round of `d` that takes in the notes `ids`, under the name `t`. -/
def wholeRound (t : ℕ) (d : DeviceId) (env : Env) (ids : List ℕ) : List SlotEvent :=
  .list t d ids :: (ids.map fun _ => .merge t env) ++ .publish t env true true ::
    (ids.map fun _ => .ack t true) ++ [.finish t]

def laptop : Env := { now := 600, defaultDeviceName := "laptop", platform := "linux" }

/-- One device has a stranger's claim on record, the other takes it in, and each
goes on to a further round. -/
def strangerRun (contacts : Map String) : List SlotEvent :=
  let (a, b) := Fleet.pairOfDevices
  let claim : NameRow := { pending := some "Bob", first := "Bob" }
  .edit a { contacts, names := ExtTreeMap.ofList [("pk-bob", claim)] } ::
    wholeRound 0 a laptop [] ++ wholeRound 1 b laptop [0] ++ wholeRound 2 b laptop [1]

/-- Where the sender is a contact the row stays. -/
theorem strangerRun_quiesces : Quiescent (strangerRun (ExtTreeMap.ofList [("bob", "pk-bob")])) 9 ∧
    (run ((strangerRun (ExtTreeMap.ofList [("bob", "pk-bob")])).take 9)).unfolded = [] := by
  have hcalm : Along step Calm {} (strangerRun (ExtTreeMap.ofList [("bob", "pk-bob")])) := by
    decide +kernel
  exact ⟨rounds_quiesce _ hcalm 9, by decide +kernel⟩

/-- The tombstone the second device writes in its second round. -/
def prunedClaim : Cell :=
  .name { pinned := "", pending := some "Bob", clock := ⟨3, Fleet.pairOfDevices.2⟩, deleted := true }

instance (f : Fleet) (e : Event) (l : Loc) (x : Cell) : Decidable (f.Mints e l x) :=
  inferInstanceAs (Decidable (_ ∧ _))

/-- Where the sender is nobody's contact, the second device prunes the claim, and
its next fold tombstones it for everybody. -/
theorem not_quiescent : ¬ ∀ es i, Quiescent es i := by
  intro h
  have hall : (run ((strangerRun ∅).take 9)).unfolded = [] := by decide +kernel
  have hquiet : ∀ e ∈ (strangerRun ∅).drop 9, e.userEdit = none := by decide +kernel
  obtain ⟨hmints, -⟩ := h (strangerRun ∅) 9 hall hquiet
  have hmint : ((run ((strangerRun ∅).take 10)).slot.fleetEvent (.merge 2 laptop)).any fun fe =>
      (run ((strangerRun ∅).take 10)).slot.fleet.Mints fe (.name "pk-bob") prunedClaim := by
    decide +kernel
  cases hfe : (run ((strangerRun ∅).take 10)).slot.fleetEvent (.merge 2 laptop) with
  | none => simp [hfe] at hmint
  | some fe =>
      rw [hfe, Option.any_some, decide_eq_true_iff] at hmint
      obtain ⟨hl, -⟩ := hmints 10 _ fe (.name "pk-bob") _ (by decide) rfl hfe hmint
      cases hl

end Watch

end Arvolo.Sync
