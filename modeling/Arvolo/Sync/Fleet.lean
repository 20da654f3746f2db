import Arvolo.Sync.Extends

/-!
A fleet: the devices of one identity, exchanging snapshots.

A run is a list of events. Any device may edit its ledgers, publish a snapshot,
or apply any snapshot published so far, any number of times and in any order.
Beside the devices the fleet records its history: every state a sidecar has
held, and for each device which states it has taken in, its own writes and what
came with the snapshots it applied.

The invariant behind convergence is that one clock names one register in
everything ever held. It rests on two bounds: a device's counter is above every
clock it has minted, wherever that clock has travelled, and above every counter
in its own sidecar.
-/

namespace Arvolo.Sync

open Lib

/-- A published snapshot, with the states its publisher had taken in. -/
structure Posting where
  snap : SyncSnapshot
  merged : List SyncState

structure Fleet where
  devices : DeviceId → Device := fun _ => {}
  posted : List Posting := []
  merged : DeviceId → List SyncState := fun _ => []
  held : List SyncState := [{}]

namespace Fleet

def state (f : Fleet) (d : DeviceId) : SyncState := (f.devices d).loadMeta.state

def lamport (f : Fleet) (d : DeviceId) : ℕ := (f.devices d).loadMeta.lamport

/-- Device `d` becomes `dev`, having taken in the states `taken`. -/
def put (f : Fleet) (d : DeviceId) (dev : Device) (taken : List SyncState) : Fleet :=
  { f with
    devices := Function.update f.devices d dev
    merged := Function.update f.merged d taken
    held := dev.loadMeta.state :: f.held }

/-- A write of the device's own counts as something it has taken in. -/
def write (f : Fleet) (d : DeviceId) (dev : Device) : Fleet :=
  f.put d dev (dev.loadMeta.state :: f.merged d)

end Fleet

inductive Event
  /-- Anything that rewrites the ledgers and leaves the sidecar alone. -/
  | edit (d : DeviceId) (ledgers : Ledgers)
  | setMyDisplayName (d : DeviceId) (name : String)
  | forgetDevice (d : DeviceId) (id : DeviceId)
  /-- Build a snapshot and publish it. -/
  | publish (d : DeviceId) (env : Env)
  /-- Apply the `n`-th snapshot published so far. -/
  | apply (d : DeviceId) (env : Env) (n : ℕ)

namespace Fleet

def edit (f : Fleet) (d : DeviceId) (ledgers : Ledgers) : Fleet :=
  { f with devices := Function.update f.devices d { f.devices d with ledgers } }

def publish (f : Fleet) (d : DeviceId) (env : Env) : Fleet :=
  let built := (f.devices d).buildLocalSnapshot env d
  let f := f.write d built.1
  { f with posted := f.posted ++ [⟨built.2, f.merged d⟩] }

def apply (f : Fleet) (d : DeviceId) (env : Env) (n : ℕ) : Fleet :=
  match f.posted[n]? with
  | none => f
  | some p =>
      let folded := f.write d ((f.devices d).buildLocalSnapshot env d).1
      folded.put d ((f.devices d).applyMergedState env d p.snap) (folded.merged d ++ p.merged)

def step (f : Fleet) : Event → Fleet
  | .edit d ledgers => f.edit d ledgers
  | .setMyDisplayName d name => f.write d ((f.devices d).setMyDisplayName d name)
  | .forgetDevice d id => f.write d ((f.devices d).forgetDevice d id)
  | .publish d env => f.publish d env
  | .apply d env n => f.apply d env n

/-- A run, from devices that have never synced. -/
def run (es : List Event) : Fleet := es.foldl step {}

/-! ### The invariant -/

structure Inv (f : Fleet) : Prop where
  coherent : Coherent { s | s ∈ f.held }
  held_state : ∀ d, f.state d ∈ f.held
  held_posted : ∀ p ∈ f.posted, SyncState.fromSnapshot p.snap ∈ f.held
  /-- A device's counter is above every clock it has minted. -/
  owned : ∀ s ∈ f.held, ∀ l x, s.cell l = some x → x.clock.counter ≤ f.lamport x.clock.device
  /-- A device's counter is above everything in its sidecar. -/
  bounded : ∀ d l x, (f.state d).cell l = some x → x.clock.counter ≤ f.lamport d
  lub : ∀ d, IsLUB { s | s ∈ f.merged d } (f.state d)
  lub_posted : ∀ p ∈ f.posted, IsLUB { s | s ∈ p.merged } (SyncState.fromSnapshot p.snap)

theorem empty_cell (l : Loc) : ({} : SyncState).cell l = none := by
  cases l <;> simp [SyncState.cell]

/-- The empty state knows nothing. -/
theorem empty_le (s : SyncState) : ({} : SyncState) ≤ s := by
  refine ⟨fun l => ?_, fun k => ?_⟩
  · rw [empty_cell]
    exact bot_le
  · simp [seenLe]

theorem inv_init : Inv {} where
  coherent := by
    refine ⟨?_, ?_⟩
    · intro s hs id r hr
      rw [List.mem_singleton.mp hs] at hr
      simp at hr
    · intro s hs t ht
      rw [List.mem_singleton.mp hs, List.mem_singleton.mp ht]
      exact .refl _
  held_state _ := List.mem_singleton.mpr rfl
  held_posted _ hp := absurd hp List.not_mem_nil
  owned s hs l x hx := by
    rw [List.mem_singleton.mp hs, empty_cell] at hx
    cases hx
  bounded d l x hx := by
    change ({} : SyncState).cell l = some x at hx
    rw [empty_cell] at hx
    cases hx
  lub d := ⟨fun _ hs => absurd hs List.not_mem_nil, fun s _ => empty_le s⟩
  lub_posted _ hp := absurd hp List.not_mem_nil

section Put

variable {f : Fleet} {d : DeviceId} {dev : Device} {taken : List SyncState}

@[simp] theorem state_put_self : (f.put d dev taken).state d = dev.loadMeta.state := by
  simp [state, put]

@[simp] theorem lamport_put_self : (f.put d dev taken).lamport d = dev.loadMeta.lamport := by
  simp [lamport, put]

@[simp] theorem merged_put_self : (f.put d dev taken).merged d = taken := by
  simp [put]

theorem state_put_of_ne {e : DeviceId} (h : e ≠ d) : (f.put d dev taken).state e = f.state e := by
  simp [state, put, Function.update_of_ne h]

theorem lamport_put_of_ne {e : DeviceId} (h : e ≠ d) :
    (f.put d dev taken).lamport e = f.lamport e := by
  simp [lamport, put, Function.update_of_ne h]

theorem merged_put_of_ne {e : DeviceId} (h : e ≠ d) :
    (f.put d dev taken).merged e = f.merged e := by
  simp [put, Function.update_of_ne h]

theorem lamport_le_put (hl : f.lamport d ≤ dev.loadMeta.lamport) (e : DeviceId) :
    f.lamport e ≤ (f.put d dev taken).lamport e := by
  by_cases he : e = d
  · subst he
    rwa [lamport_put_self]
  · rw [lamport_put_of_ne he]

/-- What a new sidecar has to satisfy for the invariant to go on. -/
theorem Inv.put (h : f.Inv) (hl : f.lamport d ≤ dev.loadMeta.lamport)
    (hauth : SelfAuthored dev.loadMeta.state.devices)
    (hcompat : ∀ t ∈ f.held, Compatible dev.loadMeta.state t)
    (howned : ∀ l x, dev.loadMeta.state.cell l = some x →
      x.clock.device = d ∨ x.clock.counter ≤ f.lamport x.clock.device)
    (hbounded : ∀ l x, dev.loadMeta.state.cell l = some x →
      x.clock.counter ≤ dev.loadMeta.lamport)
    (hlub : IsLUB { s | s ∈ taken } dev.loadMeta.state) : (f.put d dev taken).Inv where
  coherent := by
    have hK := h.coherent.insert hauth hcompat
    refine hK.mono ?_
    intro s hs
    exact List.mem_cons.mp hs
  held_state e := by
    by_cases he : e = d
    · subst he
      rw [state_put_self]
      exact List.mem_cons_self
    · rw [state_put_of_ne he]
      exact List.mem_cons_of_mem _ (h.held_state e)
  held_posted p hp := List.mem_cons_of_mem _ (h.held_posted p hp)
  owned s hs l x hx := by
    rcases List.mem_cons.mp hs with rfl | hs'
    · rcases howned l x hx with hd | hc
      · rw [hd, lamport_put_self]
        exact hbounded l x hx
      · exact hc.trans (lamport_le_put hl _)
    · exact (h.owned s hs' l x hx).trans (lamport_le_put hl _)
  bounded e l x hx := by
    by_cases he : e = d
    · subst he
      rw [state_put_self] at hx
      rw [lamport_put_self]
      exact hbounded l x hx
    · rw [state_put_of_ne he] at hx
      rw [lamport_put_of_ne he]
      exact h.bounded e l x hx
  lub e := by
    by_cases he : e = d
    · subst he
      rwa [merged_put_self, state_put_self]
    · rw [merged_put_of_ne he, state_put_of_ne he]
      exact h.lub e
  lub_posted p hp := h.lub_posted p hp

end Put

/-! ### One event -/

/-- A sidecar only grows by its device's own writes. -/
theorem le_of_extends {d : DeviceId} {c c' : Sidecar} (hext : Extends d c c')
    (hb : ∀ l x, c.state.cell l = some x → x.clock.counter ≤ c.lamport) : c.state ≤ c'.state := by
  refine ⟨fun l => ?_, hext.seen⟩
  rcases hext.cell l with hl | ⟨x, hx, hf⟩
  · rw [hl]
  · rw [hx]
    cases hold : c.state.cell l with
    | none => exact bot_le
    | some y =>
        refine WithBot.coe_le_coe.mpr (le_of_not_ge fun hge => ?_)
        have hyx : x.clock.counter ≤ y.clock.counter := Lamport.counter_le hge
        exact absurd (hyx.trans (hb l y hold)) (not_le.mpr hf.above)

variable {f : Fleet}

theorem Inv.write (h : f.Inv) {d : DeviceId} {dev : Device}
    (hext : Extends d (f.devices d).loadMeta dev.loadMeta) : (f.write d dev).Inv := by
  have hle : f.state d ≤ dev.loadMeta.state := le_of_extends hext (h.bounded d)
  refine h.put hext.lamport_le (hext.authored (h.coherent.authored _ (h.held_state d))) ?_ ?_ ?_ ?_
  · intro t ht l x hx y hy hc
    rcases hext.cell l with hl | ⟨z, hz, hf⟩
    · exact h.coherent.compatible _ (h.held_state d) t ht l x (hl ▸ hx) y hy hc
    · -- the register is new, so its clock is above every clock of `d` seen so far
      have hxz : x = z := Option.some.inj (hx.symm.trans hz)
      subst hxz
      have hown := h.owned t ht l y hy
      rw [← hc, hf.device] at hown
      exact absurd hown (not_le.mpr hf.above)
  · intro l x hx
    rcases hext.cell l with hl | ⟨z, hz, hf⟩
    · exact .inr (h.owned _ (h.held_state d) l x (hl ▸ hx))
    · obtain rfl : x = z := Option.some.inj (hx.symm.trans hz)
      exact .inl hf.device
  · intro l x hx
    rcases hext.cell l with hl | ⟨z, hz, hf⟩
    · exact (h.bounded d l x (hl ▸ hx)).trans hext.lamport_le
    · obtain rfl : x = z := Option.some.inj (hx.symm.trans hz)
      exact hf.below
  · constructor
    · intro s hs
      rcases List.mem_cons.mp hs with rfl | hs'
      · exact le_rfl
      · exact ((h.lub d).1 hs').trans hle
    · intro u hu
      exact hu List.mem_cons_self

/-- Merging a published snapshot into a device's sidecar. -/
theorem Inv.absorb (h : f.Inv) {d : DeviceId} {dev : Device} {p : Posting} (hp : p ∈ f.posted)
    (hdev : dev.loadMeta = (f.devices d).loadMeta.absorb p.snap) :
    (f.put d dev (f.merged d ++ p.merged)).Inv := by
  have hheld := h.held_posted p hp
  have hauth := h.coherent.authored _ hheld
  have hstate : dev.loadMeta.state = (f.state d).merge (.fromSnapshot p.snap) := by
    rw [hdev]; rfl
  have hchoice (l : Loc) : dev.loadMeta.state.cell l = (f.state d).cell l ∨
      dev.loadMeta.state.cell l = (SyncState.fromSnapshot p.snap).cell l := by
    rw [hstate]
    exact (picks_merge hauth l).choice
  refine h.put ?_ ?_ ?_ ?_ ?_ ?_
  · rw [hdev]
    exact (le_max_left _ _).trans (le_max_left _ _)
  · rw [hstate]
    exact (h.coherent.authored _ (h.held_state d)).merge hauth
  · intro t ht
    rw [hstate]
    exact .merge_left hauth (h.coherent.compatible _ (h.held_state d) t ht)
      (h.coherent.compatible _ hheld t ht)
  · intro l x hx
    rcases hchoice l with hl | hl
    · exact .inr (h.owned _ (h.held_state d) l x (hl ▸ hx))
    · exact .inr (h.owned _ hheld l x (hl ▸ hx))
  · intro l x hx
    rw [hdev] at hx ⊢
    exact (counter_le_maxCounter hx).trans (le_max_right _ _)
  · have hset : { s | s ∈ f.merged d ++ p.merged } =
        { s | s ∈ f.merged d } ∪ { s | s ∈ p.merged } := by
      ext s
      exact List.mem_append
    rw [hset, hstate]
    exact isLUB_merge hauth (h.lub d) (h.lub_posted p hp)

theorem Inv.edit (h : f.Inv) (d : DeviceId) (ledgers : Ledgers) : (f.edit d ledgers).Inv := by
  have hmeta (e : DeviceId) : ((f.edit d ledgers).devices e).loadMeta = (f.devices e).loadMeta := by
    by_cases he : e = d
    · subst he
      simp [Fleet.edit]
    · simp [Fleet.edit, Function.update_of_ne he]
  have hs (e : DeviceId) : (f.edit d ledgers).state e = f.state e := by
    rw [state, hmeta]; rfl
  have hl (e : DeviceId) : (f.edit d ledgers).lamport e = f.lamport e := by
    rw [lamport, hmeta]; rfl
  exact ⟨h.coherent, fun e => hs e ▸ h.held_state e, h.held_posted,
    fun s hsm l x hx => hl _ ▸ h.owned s hsm l x hx,
    fun e l x hx => hl e ▸ h.bounded e l x (hs e ▸ hx), fun e => hs e ▸ h.lub e, h.lub_posted⟩

theorem Inv.publish (h : f.Inv) (d : DeviceId) (env : Env) : (f.publish d env).Inv := by
  have hw : (f.write d ((f.devices d).buildLocalSnapshot env d).1).Inv :=
    h.write (extends_buildLocalSnapshot env d _)
  have hstate : SyncState.fromSnapshot ((f.devices d).buildLocalSnapshot env d).2 =
      (f.write d ((f.devices d).buildLocalSnapshot env d).1).state d := by
    rw [buildLocalSnapshot_snd, Fleet.write, state_put_self]
  refine { hw with held_posted := ?_, lub_posted := ?_ }
  · intro p hp
    rcases List.mem_append.mp hp with hp | hp
    · exact hw.held_posted p hp
    · rw [List.mem_singleton.mp hp, hstate]
      exact hw.held_state d
  · intro p hp
    rcases List.mem_append.mp hp with hp | hp
    · exact hw.lub_posted p hp
    · rw [List.mem_singleton.mp hp, hstate]
      exact hw.lub d

theorem Inv.apply (h : f.Inv) (d : DeviceId) (env : Env) (n : ℕ) : (f.apply d env n).Inv := by
  unfold Fleet.apply
  cases hn : f.posted[n]? with
  | none => exact h
  | some p =>
      have hw : (f.write d ((f.devices d).buildLocalSnapshot env d).1).Inv :=
        h.write (extends_buildLocalSnapshot env d _)
      refine hw.absorb (List.mem_of_getElem? hn) ?_
      rw [loadMeta_applyMergedState]
      simp [Fleet.write, Fleet.put]

theorem Inv.step (h : f.Inv) (e : Event) : (f.step e).Inv := by
  cases e with
  | edit d ledgers => exact h.edit d ledgers
  | setMyDisplayName d name => exact h.write (extends_setMyDisplayName d _ name)
  | forgetDevice d id => exact h.write (extends_forgetDevice d _ id)
  | publish d env => exact h.publish d env
  | apply d env n => exact h.apply d env n

/-! ### Whole runs -/

theorem inv_run (es : List Event) : (run es).Inv := by
  induction es using List.reverseRecOn with
  | nil => exact inv_init
  | append_singleton es e ih =>
      rw [run, List.foldl_append]
      exact ih.step e

theorem held_subset_step (f : Fleet) (e : Event) : f.held ⊆ (f.step e).held := by
  cases e with
  | edit d ledgers => exact List.Subset.refl _
  | setMyDisplayName d name => exact List.subset_cons_self _ _
  | forgetDevice d id => exact List.subset_cons_self _ _
  | publish d env => exact List.subset_cons_self _ _
  | apply d env n =>
      simp only [step, apply]
      split
      · exact List.Subset.refl _
      · exact List.Subset.trans (List.subset_cons_self _ _) (List.subset_cons_self _ _)

/-- What was held at some point of a run is in its history. -/
theorem held_take_subset (es : List Event) (i : ℕ) : (run (es.take i)).held ⊆ (run es).held := by
  have hsplit : run es = (es.drop i).foldl step (run (es.take i)) := by
    rw [run, run, ← List.foldl_append, List.take_append_drop]
  rw [hsplit]
  exact foldl_rel (fun f f' : Fleet => f.held ⊆ f'.held) (fun _ => List.Subset.refl _)
    List.Subset.trans step held_subset_step _ _

/-- The address book converges. On everything the sidecars of a run have held,
the merge is commutative, associative and idempotent; and two devices that have
taken in the same states, at whatever points of the run and in whatever order,
hold the same state. -/
theorem strong_convergence (es : List Event) :
    (∀ s ∈ (run es).held, ∀ t ∈ (run es).held, s.merge t = t.merge s) ∧
    (∀ s ∈ (run es).held, ∀ t ∈ (run es).held, ∀ u ∈ (run es).held,
      (s.merge t).merge u = s.merge (t.merge u)) ∧
    (∀ s ∈ (run es).held, s.merge s = s) ∧
    ∀ (i j : ℕ) (d e : DeviceId),
      (∀ s, s ∈ (run (es.take i)).merged d ↔ s ∈ (run (es.take j)).merged e) →
      (run (es.take i)).state d = (run (es.take j)).state e := by
  have hK := (inv_run es).coherent
  refine ⟨fun s hs t ht => hK.merge_comm hs ht, fun s hs t ht u hu => hK.merge_assoc hs ht hu,
    fun s hs => hK.merge_self hs, ?_⟩
  intro i j d e hsame
  have hi := inv_run (es.take i)
  have hj := inv_run (es.take j)
  have hset : { s | s ∈ (run (es.take i)).merged d } = { s | s ∈ (run (es.take j)).merged e } :=
    Set.ext hsame
  have hlub := hset ▸ hi.lub d
  exact hK.eq_of_le_of_le (held_take_subset es i (hi.held_state d))
    (held_take_subset es j (hj.held_state e)) (hlub.2 (hj.lub e).1) ((hj.lub e).2 hlub.1)

/-- Two machines, the first with a contact and the second with a mark. -/
def pairOfDevices : DeviceId × DeviceId :=
  (⟨List.replicate 16 1, rfl⟩, ⟨List.replicate 16 2, rfl⟩)

/-- Each publishes once, and each applies what the other published. -/
def pairRun : List Event :=
  let env : Env := { now := 600, defaultDeviceName := "laptop", platform := "linux" }
  let (a, b) := pairOfDevices
  [.edit a { contacts := Std.ExtTreeMap.ofList [("bob", "pk-bob")] }, .publish a env,
    .edit b { verified := Std.ExtTreeMap.ofList [("pk-bob", 7)], me := "Ann" },
    .apply b env 0, .publish b env, .apply a env 1, .apply b env 0]

theorem pairRun_converges :
    (run pairRun).state pairOfDevices.1 = (run pairRun).state pairOfDevices.2 ∧
      (run pairRun).state pairOfDevices.1 ≠ {} := by
  refine ⟨(strong_convergence pairRun).2.2.2 7 7 pairOfDevices.1 pairOfDevices.2 fun s => ?_, ?_⟩
  · have hab : ∀ s ∈ (run (pairRun.take 7)).merged pairOfDevices.1,
        s ∈ (run (pairRun.take 7)).merged pairOfDevices.2 := by decide +kernel
    have hba : ∀ s ∈ (run (pairRun.take 7)).merged pairOfDevices.2,
        s ∈ (run (pairRun.take 7)).merged pairOfDevices.1 := by decide +kernel
    exact ⟨hab s, hba s⟩
  · decide +kernel

end Fleet

end Arvolo.Sync
