import Arvolo.Sync.Merge

/-!
What is read off a whole state: the highest counter, and whether another device has had a
hand in it.

Both go through the maps of the state one after another, each map by its name.
-/

namespace Arvolo.Sync

open Lib
open Std (ExtTreeMap)

/-- The clocks of one map, `values` of it under `map`. -/
def clocksOf {R : Type} (clock : R → Lamport) (regs : Map R) : List Lamport :=
  regs.toList.map fun e => clock e.2

/-- Those that are looked at, in the order of the source. -/
def SyncState.lookedAt (s : SyncState) : List Lamport :=
  let contacts := clocksOf ContactReg.clock s.contacts
  let names := clocksOf NameReg.clock s.names
  let marks := clocksOf MarkReg.clock s.verified ++ clocksOf MarkReg.clock s.trusted ++
    clocksOf MarkReg.clock s.blocked
  let devices := clocksOf DeviceReg.clock s.devices
  let selfName := s.selfName.toList.map SelfName.clock
  contacts ++ names ++ marks ++ devices ++ selfName

/-- Does any register here carry a clock stamped by a device other than `mine`? -/
def SyncState.authoredByAnotherDevice (s : SyncState) (mine : DeviceId) : Bool :=
  s.lookedAt.any fun c => c.device != mine

/-- The clocks of the state, wherever they are. -/
def SyncState.clocks (s : SyncState) : Set Lamport := {c | ∃ l x, s.cell l = some x ∧ x.clock = c}

/-- Both folds see every register. -/
def SyncState.SeesAll (s : SyncState) (mine : DeviceId) : Prop :=
  IsGreatest (insert 0 (Lamport.counter '' s.clocks)) s.maxCounter ∧
    (s.authoredByAnotherDevice mine = true ↔ ∃ c ∈ s.clocks, c.device ≠ mine)

/-! ### The highest counter -/

/-- The highest counter is the greatest of all, or nought where there is none. -/
theorem isGreatest_maxCounter (s : SyncState) :
    IsGreatest (insert 0 (Lamport.counter '' s.clocks)) s.maxCounter := by
  constructor
  · by_contra hout
    have hpos : s.maxCounter ≠ 0 := fun h => hout (.inl h)
    -- then every counter is lower, and so is the highest
    have hlower : s.maxCounter ≤ s.maxCounter - 1 := by
      refine maxCounter_le fun l x hx => ?_
      have hle := counter_le_maxCounter hx
      have hne : x.clock.counter ≠ s.maxCounter := fun h =>
        hout (.inr ⟨x.clock, ⟨l, x, hx, rfl⟩, h⟩)
      omega
    omega
  · rintro n (rfl | ⟨c, ⟨l, x, hx, rfl⟩, rfl⟩)
    · exact Nat.zero_le _
    · exact counter_le_maxCounter hx

/-! ### Another device's hand -/

section

variable {s : SyncState}

theorem mem_clocksOf {R : Type} {clock : R → Lamport} {regs : Map R} {c : Lamport} :
    c ∈ clocksOf clock regs ↔ ∃ (k : String) (r : R), regs[k]? = some r ∧ clock r = c := by
  rw [clocksOf, List.mem_map]
  constructor
  · rintro ⟨⟨k, r⟩, hmem, rfl⟩
    exact ⟨k, r, ExtTreeMap.mem_toList_iff_getElem?_eq_some.mp hmem, rfl⟩
  · rintro ⟨k, r, hr, rfl⟩
    exact ⟨(k, r), ExtTreeMap.mem_toList_iff_getElem?_eq_some.mpr hr, rfl⟩

/-- The positions of one map hold its clocks. -/
theorem mem_clocksOf_iff_cell {R : Type} (clock : R → Lamport) {regs : Map R}
    (loc : String → Loc) (wrap : R → Cell) (hcell : ∀ k, s.cell (loc k) = regs[k]?.map wrap)
    (hclock : ∀ r, (wrap r).clock = clock r) {c : Lamport} :
    c ∈ clocksOf clock regs ↔ ∃ k x, s.cell (loc k) = some x ∧ x.clock = c := by
  rw [mem_clocksOf]
  constructor
  · rintro ⟨k, r, hr, rfl⟩
    exact ⟨k, wrap r, by rw [hcell, hr, Option.map_some], hclock r⟩
  · rintro ⟨k, x, hx, rfl⟩
    rw [hcell] at hx
    obtain ⟨r, hr, rfl⟩ := Option.map_eq_some_iff.mp hx
    exact ⟨k, r, hr, (hclock r).symm⟩

/-- The relays are left out, and nothing else is. -/
theorem mem_lookedAt {c : Lamport} : c ∈ s.lookedAt ↔
    ∃ l x, s.cell l = some x ∧ (∀ k, l ≠ .relay k) ∧ x.clock = c := by
  have hself : c ∈ s.selfName.toList.map SelfName.clock ↔
      ∃ x, s.cell .selfName = some x ∧ x.clock = c := by
    cases hs : s.selfName with
    | none => simp [SyncState.cell, hs]
    | some r => simp [SyncState.cell, hs, Cell.clock, eq_comm]
  simp only [SyncState.lookedAt, List.mem_append, hself,
    mem_clocksOf_iff_cell (s := s) ContactReg.clock .contact .contact
      (fun _ => rfl) fun _ => rfl,
    mem_clocksOf_iff_cell (s := s) NameReg.clock .name .name (fun _ => rfl) fun _ => rfl,
    mem_clocksOf_iff_cell (s := s) MarkReg.clock .verified .mark
      (fun _ => rfl) fun _ => rfl,
    mem_clocksOf_iff_cell (s := s) MarkReg.clock .trusted .mark
      (fun _ => rfl) fun _ => rfl,
    mem_clocksOf_iff_cell (s := s) MarkReg.clock .blocked .mark
      (fun _ => rfl) fun _ => rfl,
    mem_clocksOf_iff_cell (s := s) DeviceReg.clock .device .device
      (fun _ => rfl) fun _ => rfl]
  constructor
  · have hlift {l : Loc} (hl : ∀ k, l ≠ .relay k) (h : ∃ x, s.cell l = some x ∧ x.clock = c) :
        ∃ l x, s.cell l = some x ∧ (∀ k, l ≠ .relay k) ∧ x.clock = c := by
      obtain ⟨x, hx, hc⟩ := h
      exact ⟨l, x, hx, hl, hc⟩
    rintro ((((⟨k, h⟩ | ⟨k, h⟩) | (⟨k, h⟩ | ⟨k, h⟩) | ⟨k, h⟩) | ⟨k, h⟩) | h)
    all_goals exact hlift (by simp) h
  · rintro ⟨l, x, hx, hl, hc⟩
    have hcell : ∃ x, s.cell l = some x ∧ x.clock = c := ⟨x, hx, hc⟩
    cases l with
    | contact k => exact .inl (.inl (.inl (.inl ⟨k, hcell⟩)))
    | name k => exact .inl (.inl (.inl (.inr ⟨k, hcell⟩)))
    | verified k => exact .inl (.inl (.inr (.inl (.inl ⟨k, hcell⟩))))
    | trusted k => exact .inl (.inl (.inr (.inl (.inr ⟨k, hcell⟩))))
    | blocked k => exact .inl (.inl (.inr (.inr ⟨k, hcell⟩)))
    | device k => exact .inl (.inr ⟨k, hcell⟩)
    | selfName => exact .inr hcell
    | relay k => exact absurd rfl (hl k)

theorem authoredByAnotherDevice_iff {mine : DeviceId} :
    s.authoredByAnotherDevice mine = true ↔
      ∃ l x, s.cell l = some x ∧ (∀ k, l ≠ .relay k) ∧ x.clock.device ≠ mine := by
  rw [SyncState.authoredByAnotherDevice, List.any_eq_true]
  constructor
  · rintro ⟨c, hc, hne⟩
    obtain ⟨l, x, hx, hl, rfl⟩ := mem_lookedAt.1 hc
    exact ⟨l, x, hx, hl, bne_iff_ne.1 hne⟩
  · rintro ⟨l, x, hx, hl, hne⟩
    exact ⟨x.clock, mem_lookedAt.2 ⟨l, x, hx, hl, rfl⟩, bne_iff_ne.2 hne⟩

end

/-- Another device's hand is missed where it shows in the relays alone. -/
theorem SyncState.seesAll_iff (s : SyncState) (mine : DeviceId) :
    s.SeesAll mine ↔
      ((∃ (k : String) (r : RelayReg), s.relays[k]? = some r ∧ r.clock.device ≠ mine) →
        ∃ l x, s.cell l = some x ∧ (∀ k, l ≠ .relay k) ∧ x.clock.device ≠ mine) := by
  constructor
  · rintro ⟨-, hiff⟩ ⟨k, r, hr, hne⟩
    refine authoredByAnotherDevice_iff.1 (hiff.2 ⟨r.clock, ?_, hne⟩)
    exact ⟨.relay k, .relay r, by rw [cell, hr, Option.map_some], rfl⟩
  · intro hrelays
    refine ⟨isGreatest_maxCounter s, fun h => ?_, ?_⟩
    · obtain ⟨l, x, hx, -, hne⟩ := authoredByAnotherDevice_iff.1 h
      exact ⟨x.clock, ⟨l, x, hx, rfl⟩, hne⟩
    · rintro ⟨c, ⟨l, x, hx, rfl⟩, hne⟩
      refine authoredByAnotherDevice_iff.2 ?_
      by_cases hl : ∀ k, l ≠ .relay k
      · exact ⟨l, x, hx, hl, hne⟩
      · obtain ⟨k, hk⟩ := not_forall.1 hl
        obtain rfl := not_not.1 hk
        obtain ⟨r, hr, rfl⟩ := Option.map_eq_some_iff.mp hx
        exact hrelays ⟨k, r, hr, hne⟩

/-- This machine and another. -/
def machine (b : UInt8) : DeviceId := ⟨List.replicate 16 b, rfl⟩

def twoMachines : DeviceId × DeviceId := (machine 0, machine 1)

/-- A contact added here, whose relay the other machine has written down. -/
def relayedState : SyncState where
  contacts := (∅ : Map ContactReg).insert "bob" ⟨"kb", ⟨1, twoMachines.1⟩, false⟩
  relays := (∅ : Map RelayReg).insert "kb" ⟨"https://r", ⟨2, twoMachines.2⟩, false⟩

theorem not_seesAll_relayedState : ¬ relayedState.SeesAll twoMachines.1 := by
  rw [SyncState.seesAll_iff]
  intro h
  obtain ⟨l, x, hx, hl, hne⟩ := h ⟨"kb", _, ExtTreeMap.getElem?_insert_self, by decide⟩
  cases l with
  | contact k =>
      obtain ⟨r, hr, rfl⟩ := Option.map_eq_some_iff.mp hx
      rw [relayedState, ExtTreeMap.getElem?_insert] at hr
      split_ifs at hr
      · obtain rfl := Option.some.inj hr
        exact hne rfl
      · cases hr
  | relay k => exact hl k rfl
  | _ => cases hx

end Arvolo.Sync
