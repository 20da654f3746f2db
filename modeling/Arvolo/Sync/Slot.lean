import Arvolo.Lib.Machine
import Arvolo.Sync.Fleet

/-!
Sync rounds over one inbox slot, `sync_round` of `engine/src/sync.rs`.

The devices of one identity share a slot on the relay. A round lists the notes
in it, merges the snapshots it can open, publishes a snapshot of its own and
acknowledges the notes it merged. Rounds of any devices interleave, one request
or one merge at a time, and any request may fail.

What keeps an update from being lost is the order of the round: a note is only
acknowledged after a later note has been posted that says at least as much, and
that later note can itself only go the same way. So for every note there is at
all times a live one, posted no earlier, that says at least as much.
-/

namespace Arvolo.Sync

open Lib
open Std (ExtTreeMap)

/-! ### Pruning -/

/-- Drop the advertised names of ids no contact points at, except those that
carry the first claim this device saw. -/
def pruneOrphanNames (ledgers : Ledgers) : Ledgers :=
  let known := ledgers.contacts.values
  { ledgers with
    names := ledgers.names.filter fun id row => known.contains id || !row.first.isEmpty }

/-! ### The slot -/

/-- What a row of the inbox turns out to be once decoded. -/
inductive Body
  | snapshot (snap : SyncSnapshot)
  /-- Tagged as a sync note, but our key does not open it. -/
  | undecryptable
  /-- An offer, or junk: not a sync note. -/
  | other
  deriving DecidableEq

structure Note where
  id : ℕ
  body : Body
  deriving DecidableEq

inductive Phase
  /-- Going through the listed notes; `toClear` are the ids to acknowledge. -/
  | merging (todo : List Note) (toClear : List ℕ) (merged : ℕ)
  /-- The snapshot is out; the acknowledgements are being sent. -/
  | clearing (toClear : List ℕ) (merged : ℕ)

/-- A round under way on a device. -/
structure Round where
  device : DeviceId
  phase : Phase

/-- The devices, the relay's slot and the rounds under way. `arrived` is the
history of the slot: every note that ever reached it. -/
structure Slot where
  fleet : Fleet := {}
  notes : List Note := []
  next : ℕ := 0
  arrived : List Note := []
  rounds : ℕ → Option Round := fun _ => none

inductive SlotEvent
  | edit (d : DeviceId) (ledgers : Ledgers)
  | setMyDisplayName (d : DeviceId) (name : String)
  | forgetDevice (d : DeviceId) (id : DeviceId)
  /-- Somebody else posts to the slot. -/
  | stray (body : Body)
  /-- The daemon of a device starts: it prunes once. -/
  | start (d : DeviceId)
  /-- A round begins: the relay answers with the notes `ids`. An older slot that
  could not be read leaves its notes out. -/
  | list (t : ℕ) (d : DeviceId) (ids : List ℕ)
  /-- The next listed note is looked at. -/
  | merge (t : ℕ) (env : Env)
  /-- The snapshot is built and posted. The post may not reach the relay, or its
  answer may not come back; either ends the round. -/
  | publish (t : ℕ) (env : Env) (reached answered : Bool)
  | ack (t : ℕ) (reached : Bool)
  | finish (t : ℕ)
  /-- The round is cut off. -/
  | die (t : ℕ)

namespace Slot

def post (s : Slot) (body : Body) : Slot :=
  let note : Note := ⟨s.next, body⟩
  { s with notes := s.notes ++ [note], next := s.next + 1, arrived := note :: s.arrived }

def setRound (s : Slot) (t : ℕ) (r : Option Round) : Slot :=
  { s with rounds := Function.update s.rounds t r }

def prune (s : Slot) (d : DeviceId) : Slot :=
  { s with fleet := s.fleet.edit d (pruneOrphanNames (s.fleet.devices d).ledgers) }

/-- The fleet names a snapshot by its place among those published. -/
def applySnapshot (f : Fleet) (d : DeviceId) (env : Env) (snap : SyncSnapshot) : Fleet :=
  f.apply d env (f.posted.findIdx fun p => decide (p.snap = snap))

def merge (s : Slot) (t : ℕ) (env : Env) : Slot :=
  match s.rounds t with
  | some ⟨d, .merging (note :: todo) toClear merged⟩ =>
      match note.body with
      | .snapshot snap =>
          { s with fleet := applySnapshot s.fleet d env snap }.setRound t
            (some ⟨d, .merging todo (toClear ++ [note.id]) (merged + 1)⟩)
      | .undecryptable => s.setRound t (some ⟨d, .merging todo (toClear ++ [note.id]) merged⟩)
      | .other => s.setRound t (some ⟨d, .merging todo toClear merged⟩)
  | _ => s

def publish (s : Slot) (t : ℕ) (env : Env) (reached answered : Bool) : Slot :=
  match s.rounds t with
  | some ⟨d, .merging [] toClear merged⟩ =>
      let snap := ((s.fleet.devices d).buildLocalSnapshot env d).2
      let s := { s with fleet := s.fleet.publish d env }
      let s := if reached then s.post (.snapshot snap) else s
      s.setRound t (if reached && answered then some ⟨d, .clearing toClear merged⟩ else none)
  | _ => s

def ack (s : Slot) (t : ℕ) (reached : Bool) : Slot :=
  match s.rounds t with
  | some ⟨d, .clearing (id :: toClear) merged⟩ =>
      let s := if reached then { s with notes := s.notes.filter (·.id ≠ id) } else s
      s.setRound t (some ⟨d, .clearing toClear merged⟩)
  | _ => s

def finish (s : Slot) (t : ℕ) : Slot :=
  match s.rounds t with
  | some ⟨d, .clearing [] merged⟩ => (if merged > 0 then s.prune d else s).setRound t none
  | _ => s

def step (s : Slot) : SlotEvent → Slot
  | .edit d ledgers => { s with fleet := s.fleet.step (.edit d ledgers) }
  | .setMyDisplayName d name => { s with fleet := s.fleet.step (.setMyDisplayName d name) }
  | .forgetDevice d id => { s with fleet := s.fleet.step (.forgetDevice d id) }
  | .stray (.snapshot _) => s
  | .stray body => s.post body
  | .start d => s.prune d
  | .list t d ids =>
      s.setRound t (some ⟨d, .merging (s.notes.filter (·.id ∈ ids)) [] 0⟩)
  | .merge t env => s.merge t env
  | .publish t env reached answered => s.publish t env reached answered
  | .ack t reached => s.ack t reached
  | .finish t => s.finish t
  | .die t => s.setRound t none

def run (es : List SlotEvent) : Slot := es.foldl step {}

/-! ### What the slot and the devices know -/

/-- The states in the live notes and in the sidecars. -/
def knows (s : Slot) : Set SyncState :=
  { x | (∃ n ∈ s.notes, ∃ snap, n.body = .snapshot snap ∧ SyncState.fromSnapshot snap = x) ∨
    ∃ d, s.fleet.state d = x }

end Slot

/-! ### The fleet only learns -/

/-- One fleet after another: nothing published is gone, and no sidecar knows less. -/
structure Fleet.Grows (f f' : Fleet) : Prop where
  inv : f'.Inv
  state : ∀ d, f.state d ≤ f'.state d
  posted : ∀ p ∈ f.posted, p ∈ f'.posted

theorem Fleet.state_le_put {f : Fleet} {d : DeviceId} {dev : Device} {taken : List SyncState}
    (h : f.state d ≤ dev.loadMeta.state) (e : DeviceId) : f.state e ≤ (f.put d dev taken).state e := by
  by_cases he : e = d
  · subst he
    rwa [state_put_self]
  · rw [state_put_of_ne he]

theorem Fleet.Inv.grows_edit {f : Fleet} (h : f.Inv) (d : DeviceId) (ledgers : Ledgers) :
    f.Grows (f.edit d ledgers) where
  inv := h.edit d ledgers
  state e := by
    by_cases he : e = d
    · subst he
      simp [Fleet.state, Fleet.edit]
    · simp [Fleet.state, Fleet.edit, Function.update_of_ne he]
  posted _ hp := hp

theorem Fleet.Inv.grows_write {f : Fleet} (h : f.Inv) {d : DeviceId} {dev : Device}
    (hext : Extends d (f.devices d).loadMeta dev.loadMeta) : f.Grows (f.write d dev) where
  inv := h.write hext
  state e := state_le_put (le_of_extends hext (h.bounded d)) e
  posted _ hp := hp

theorem Fleet.Inv.grows_publish {f : Fleet} (h : f.Inv) (d : DeviceId) (env : Env) :
    f.Grows (f.publish d env) where
  inv := h.publish d env
  state e := (h.grows_write (extends_buildLocalSnapshot env d _)).state e
  posted _ hp := List.mem_append_left _ hp

theorem Fleet.Inv.grows_apply {f : Fleet} (h : f.Inv) (d : DeviceId) (env : Env) (n : ℕ) :
    f.Grows (f.apply d env n) where
  inv := h.apply d env n
  state e := by
    have hw := h.grows_write (extends_buildLocalSnapshot env d (f.devices d))
    unfold Fleet.apply
    cases hn : f.posted[n]? with
    | none => exact le_rfl
    | some p =>
        have hauth := h.coherent.authored _ (h.held_posted p (List.mem_of_getElem? hn))
        refine (hw.state e).trans (state_le_put ?_ e)
        simp only [Fleet.write, state_put_self, loadMeta_applyMergedState]
        exact le_merge_left hauth
  posted p hp := by
    unfold Fleet.apply
    cases f.posted[n]? <;> exact hp

/-- A snapshot that was merged is below the sidecar it was merged into. -/
theorem Fleet.Inv.le_apply {f : Fleet} (h : f.Inv) (d : DeviceId) (env : Env) {n : ℕ} {p : Posting}
    (hn : f.posted[n]? = some p) : SyncState.fromSnapshot p.snap ≤ (f.apply d env n).state d := by
  have hauth := h.coherent.authored _ (h.held_posted p (List.mem_of_getElem? hn))
  simp only [Fleet.apply, hn, state_put_self, loadMeta_applyMergedState]
  exact le_merge_right hauth

/-- What is published is the sidecar as it then is. -/
theorem Fleet.state_publish (f : Fleet) (d : DeviceId) (env : Env) :
    (f.publish d env).state d =
      SyncState.fromSnapshot ((f.devices d).buildLocalSnapshot env d).2 := by
  have hstate : (f.publish d env).state d =
      (f.write d ((f.devices d).buildLocalSnapshot env d).1).state d := rfl
  rw [hstate, buildLocalSnapshot_snd, Fleet.write, state_put_self]

namespace Slot

/-! ### The invariant -/

/-- `m` was posted no earlier than `n`, and says at least as much. -/
structure Supersedes (m n : Note) : Prop where
  le : n.id ≤ m.id
  dominates : ∀ x, n.body = .snapshot x →
    ∃ y, m.body = .snapshot y ∧ SyncState.fromSnapshot x ≤ SyncState.fromSnapshot y

theorem Supersedes.refl (n : Note) : Supersedes n n := ⟨le_rfl, fun x hx => ⟨x, hx, le_rfl⟩⟩

theorem Supersedes.trans {k m n : Note} (h : Supersedes k m) (h' : Supersedes m n) :
    Supersedes k n where
  le := h'.le.trans h.le
  dominates x hx := by
    obtain ⟨y, hy, hxy⟩ := h'.dominates x hx
    obtain ⟨z, hz, hyz⟩ := h.dominates y hy
    exact ⟨z, hz, hxy.trans hyz⟩

/-- What holds of a round under way. Before the post, what it is going to clear
is in its device's sidecar; after the post, it is in a later note. -/
def RoundInv (s : Slot) (r : Round) : Prop :=
  match r.phase with
  | .merging todo toClear _ => (∀ n ∈ todo, n ∈ s.arrived) ∧
      ∀ id ∈ toClear, ∃ n ∈ s.arrived, n.id = id ∧ ∀ x, n.body = .snapshot x →
        SyncState.fromSnapshot x ≤ s.fleet.state r.device
  | .clearing toClear _ => ∀ id ∈ toClear, ∃ n ∈ s.arrived, n.id = id ∧
      ∃ m ∈ s.arrived, Supersedes m n ∧ id < m.id

structure Inv (s : Slot) : Prop where
  fleet : s.fleet.Inv
  below : ∀ n ∈ s.arrived, n.id < s.next
  unique : ∀ n ∈ s.arrived, ∀ m ∈ s.arrived, n.id = m.id → n = m
  live : ∀ n ∈ s.notes, n ∈ s.arrived
  published : ∀ n ∈ s.arrived, ∀ x, n.body = .snapshot x → ∃ p ∈ s.fleet.posted, p.snap = x
  /-- Every snapshot that ever reached the slot is superseded by a live one. -/
  superseded : ∀ n ∈ s.arrived, ∀ x, n.body = .snapshot x → ∃ m ∈ s.notes, Supersedes m n
  round : ∀ t r, s.rounds t = some r → s.RoundInv r

theorem inv_init : Inv {} where
  fleet := Fleet.inv_init
  below _ h := absurd h List.not_mem_nil
  unique _ h := absurd h List.not_mem_nil
  live _ h := absurd h List.not_mem_nil
  published _ h := absurd h List.not_mem_nil
  superseded _ h := absurd h List.not_mem_nil
  round _ _ h := absurd h (by simp)

section Steps

variable {s : Slot}

theorem RoundInv.grow {r : Round} (h : s.RoundInv r) {f : Fleet} (hf : s.fleet.Grows f) :
    ({ s with fleet := f } : Slot).RoundInv r := by
  obtain ⟨d, phase⟩ := r
  cases phase with
  | merging todo toClear merged =>
      refine ⟨h.1, fun id hid => ?_⟩
      obtain ⟨n, hn, rfl, hx⟩ := h.2 id hid
      exact ⟨n, hn, rfl, fun x h => (hx x h).trans (hf.state d)⟩
  | clearing toClear merged => exact h

/-- A step of the devices alone. -/
theorem Inv.grow (h : s.Inv) {f : Fleet} (hf : s.fleet.Grows f) :
    ({ s with fleet := f } : Slot).Inv :=
  { h with
    fleet := hf.inv
    published := fun n hn x hx =>
      let ⟨p, hp, hpx⟩ := h.published n hn x hx
      ⟨p, hf.posted p hp, hpx⟩
    round := fun t r hr => (h.round t r hr).grow hf }

theorem Inv.setRound (h : s.Inv) (t : ℕ) {r : Option Round} (hr : ∀ x ∈ r, s.RoundInv x) :
    (s.setRound t r).Inv :=
  { h with
    round := by
      intro u x hx
      by_cases hu : u = t
      · subst hu
        exact hr x (by simpa [Slot.setRound] using hx)
      · exact h.round u x (by simpa [Slot.setRound, Function.update_of_ne hu] using hx) }

theorem RoundInv.post {r : Round} (h : s.RoundInv r) (body : Body) : (s.post body).RoundInv r := by
  have hmono (n : Note) (hn : n ∈ s.arrived) : n ∈ (s.post body).arrived :=
    List.mem_cons_of_mem _ hn
  obtain ⟨d, phase⟩ := r
  cases phase with
  | merging todo toClear merged =>
      refine ⟨fun n hn => hmono n (h.1 n hn), fun id hid => ?_⟩
      obtain ⟨n, hn, hrest⟩ := h.2 id hid
      exact ⟨n, hmono n hn, hrest⟩
  | clearing toClear merged =>
      intro id hid
      obtain ⟨n, hn, hid', m, hm, hrest⟩ := h id hid
      exact ⟨n, hmono n hn, hid', m, hmono m hm, hrest⟩

/-- A note reaches the slot. -/
theorem Inv.post (h : s.Inv) (body : Body)
    (hbody : ∀ x, body = .snapshot x → ∃ p ∈ s.fleet.posted, p.snap = x) : (s.post body).Inv where
  fleet := h.fleet
  below n hn := by
    rcases List.mem_cons.mp hn with rfl | hn
    · exact Nat.lt_succ_self _
    · exact Nat.lt_succ_of_lt (h.below n hn)
  unique n hn m hm hid := by
    rcases List.mem_cons.mp hn with rfl | hn <;> rcases List.mem_cons.mp hm with rfl | hm
    · rfl
    · exact absurd hid (h.below m hm).ne'
    · exact absurd hid (h.below n hn).ne
    · exact h.unique n hn m hm hid
  live n hn := by
    rcases List.mem_append.mp hn with hn | hn
    · exact List.mem_cons_of_mem _ (h.live n hn)
    · rw [List.mem_singleton.mp hn]
      exact List.mem_cons_self
  published n hn x hx := by
    rcases List.mem_cons.mp hn with rfl | hn
    · exact hbody x hx
    · exact h.published n hn x hx
  superseded n hn x hx := by
    rcases List.mem_cons.mp hn with rfl | hn
    · exact ⟨_, List.mem_append_right _ List.mem_cons_self, .refl _⟩
    · obtain ⟨m, hm, hsup⟩ := h.superseded n hn x hx
      exact ⟨m, List.mem_append_left _ hm, hsup⟩
  round t r hr := (h.round t r hr).post body

/-- A note goes once something later says as much. -/
theorem Inv.clear (h : s.Inv) {n m : Note} (hn : n ∈ s.arrived) (hm : m ∈ s.arrived)
    (hsup : Supersedes m n) (hlt : n.id < m.id) :
    ({ s with notes := s.notes.filter (·.id ≠ n.id) } : Slot).Inv :=
  { h with
    live := fun k hk => h.live k (List.mem_of_mem_filter hk)
    superseded := by
      -- what the cleared note stood for is now stood for by what supersedes `m`
      intro k hk x hx
      obtain ⟨a, ha, hak⟩ := h.superseded k hk x hx
      by_cases hid : a.id = n.id
      · obtain rfl : a = n := h.unique a (h.live a ha) n hn hid
        obtain ⟨y, hy, -⟩ := hak.dominates x hx
        obtain ⟨z, hz, -⟩ := hsup.dominates y hy
        obtain ⟨b, hb, hbm⟩ := h.superseded m hm z hz
        refine ⟨b, List.mem_filter.mpr ⟨hb, ?_⟩, (hbm.trans hsup).trans hak⟩
        have hne : b.id ≠ a.id := (hlt.trans_le hbm.le).ne'
        simpa using hne
      · exact ⟨a, List.mem_filter.mpr ⟨ha, by simpa using hid⟩, hak⟩
    round := h.round }

theorem Inv.prune (h : s.Inv) (d : DeviceId) : (s.prune d).Inv :=
  h.grow (h.fleet.grows_edit d _)

theorem getElem?_findIdx_posted {f : Fleet} {snap : SyncSnapshot}
    (h : ∃ p ∈ f.posted, p.snap = snap) :
    ∃ p, f.posted[f.posted.findIdx fun p => decide (p.snap = snap)]? = some p ∧ p.snap = snap := by
  obtain ⟨p, hp, hsnap⟩ := h
  have hlt : (f.posted.findIdx fun p => decide (p.snap = snap)) < f.posted.length :=
    List.findIdx_lt_length_of_exists ⟨p, hp, by simpa using hsnap⟩
  refine ⟨f.posted[f.posted.findIdx fun p => decide (p.snap = snap)], ?_, ?_⟩
  · exact List.getElem?_eq_getElem hlt
  · simpa using List.findIdx_getElem (w := hlt)

theorem Inv.merge (h : s.Inv) (t : ℕ) (env : Env) : (s.merge t env).Inv := by
  unfold Slot.merge
  split
  next d note todo toClear merged hr =>
    obtain ⟨htodo, hclear⟩ := h.round t _ hr
    have hnote : note ∈ s.arrived := htodo note List.mem_cons_self
    have hrest : ∀ n ∈ todo, n ∈ s.arrived := fun n hn => htodo n (List.mem_cons_of_mem _ hn)
    split
    next snap hb =>
      obtain ⟨p, hp, rfl⟩ := getElem?_findIdx_posted (h.published note hnote snap hb)
      have hgrow := h.fleet.grows_apply d env
        (s.fleet.posted.findIdx fun q => decide (q.snap = p.snap))
      refine (h.grow hgrow).setRound t ?_
      rintro r ⟨⟩
      refine ⟨hrest, fun id hid => ?_⟩
      rcases List.mem_append.mp hid with hid | hid
      · obtain ⟨n, hn, hid', hx⟩ := hclear id hid
        exact ⟨n, hn, hid', fun x hxs => (hx x hxs).trans (hgrow.state d)⟩
      · refine ⟨note, hnote, (List.mem_singleton.mp hid).symm, fun x hx => ?_⟩
        obtain rfl : p.snap = x := Body.snapshot.inj (hb.symm.trans hx)
        exact h.fleet.le_apply d env hp
    next hb =>
      refine h.setRound t ?_
      rintro r ⟨⟩
      refine ⟨hrest, fun id hid => ?_⟩
      rcases List.mem_append.mp hid with hid | hid
      · exact hclear id hid
      · refine ⟨note, hnote, (List.mem_singleton.mp hid).symm, fun x hx => ?_⟩
        rw [hb] at hx
        cases hx
    next hb =>
      refine h.setRound t ?_
      rintro r ⟨⟩
      exact ⟨hrest, hclear⟩
  · exact h

theorem Inv.publish (h : s.Inv) (t : ℕ) (env : Env) (reached answered : Bool) :
    (s.publish t env reached answered).Inv := by
  unfold Slot.publish
  split
  next d toClear merged hr =>
    obtain ⟨-, hclear⟩ := h.round t _ hr
    have hgrow := h.fleet.grows_publish d env
    have hfleet := h.grow hgrow
    set snap := ((s.fleet.devices d).buildLocalSnapshot env d).2 with hsnap
    have hin : ∀ x, Body.snapshot snap = .snapshot x →
        ∃ p ∈ (s.fleet.publish d env).posted, p.snap = x := by
      intro x hx
      exact ⟨_, List.mem_append_right _ List.mem_cons_self, Body.snapshot.inj hx⟩
    cases reached with
    | false => exact hfleet.setRound t (fun _ hx => by cases hx)
    | true =>
        refine (hfleet.post (.snapshot snap) hin).setRound t ?_
        cases answered with
        | false => exact fun _ hx => by cases hx
        | true =>
            rintro r ⟨⟩
            intro id hid
            obtain ⟨n, hn, rfl, hx⟩ := hclear id hid
            refine ⟨n, List.mem_cons_of_mem _ hn, rfl, ⟨s.next, .snapshot snap⟩,
              List.mem_cons_self, ⟨(h.below n hn).le, fun x hxs => ⟨snap, rfl, ?_⟩⟩, h.below n hn⟩
            rw [hsnap, ← Fleet.state_publish]
            exact (hx x hxs).trans (hgrow.state d)
  · exact h

theorem Inv.ack (h : s.Inv) (t : ℕ) (reached : Bool) : (s.ack t reached).Inv := by
  unfold Slot.ack
  split
  next d id toClear merged hr =>
    have hround := h.round t _ hr
    have hrest : ∀ x ∈ some (Round.mk d (.clearing toClear merged)), s.RoundInv x := by
      rintro x ⟨⟩
      exact fun i hi => hround i (List.mem_cons_of_mem _ hi)
    cases reached with
    | false => exact h.setRound t hrest
    | true =>
        obtain ⟨n, hn, rfl, m, hm, hsup, hlt⟩ := hround id List.mem_cons_self
        exact (h.clear hn hm hsup hlt).setRound t hrest
  · exact h

theorem Inv.finish (h : s.Inv) (t : ℕ) : (s.finish t).Inv := by
  unfold Slot.finish
  split
  next d merged hr =>
    split
    · exact (h.prune d).setRound t (fun _ hx => by cases hx)
    · exact h.setRound t (fun _ hx => by cases hx)
  · exact h

theorem Inv.step (h : s.Inv) (e : SlotEvent) : (s.step e).Inv := by
  cases e with
  | edit d ledgers => exact h.grow (h.fleet.grows_edit d ledgers)
  | setMyDisplayName d name =>
      exact h.grow (h.fleet.grows_write (extends_setMyDisplayName d _ name))
  | forgetDevice d id => exact h.grow (h.fleet.grows_write (extends_forgetDevice d _ id))
  | stray body =>
      cases body with
      | snapshot snap => exact h
      | undecryptable => exact h.post _ (fun x hx => by cases hx)
      | other => exact h.post _ (fun x hx => by cases hx)
  | start d => exact h.prune d
  | list t d ids =>
      refine h.setRound t ?_
      rintro r ⟨⟩
      refine ⟨fun n hn => h.live n (List.mem_of_mem_filter hn), ?_⟩
      exact fun _ hid => absurd hid List.not_mem_nil
  | merge t env => exact h.merge t env
  | publish t env reached answered => exact h.publish t env reached answered
  | ack t reached => exact h.ack t reached
  | finish t => exact h.finish t
  | die t => exact h.setRound t (fun _ hx => by cases hx)

theorem inv_run (es : List SlotEvent) : (run es).Inv :=
  foldl_inv Inv (fun _ e h => h.step e) inv_init es

/-! ### Nothing is lost -/

/-- What a step keeps: the history of the slot, and what each sidecar knows. -/
structure Keeps (s s' : Slot) : Prop where
  arrived : ∀ n ∈ s.arrived, n ∈ s'.arrived
  state : ∀ d, s.fleet.state d ≤ s'.fleet.state d

theorem Keeps.refl (s : Slot) : Keeps s s := ⟨fun _ => id, fun _ => le_rfl⟩

theorem Keeps.of_grows {s' : Slot} (hf : s.fleet.Grows s'.fleet) (ha : s'.arrived = s.arrived) :
    Keeps s s' :=
  ⟨fun _ hn => ha ▸ hn, hf.state⟩

theorem Keeps.of_eq {s' : Slot} (hf : s'.fleet = s.fleet) (ha : s'.arrived = s.arrived) :
    Keeps s s' :=
  ⟨fun _ hn => ha ▸ hn, fun _ => hf ▸ le_rfl⟩

theorem Inv.keeps_step (h : s.Inv) (e : SlotEvent) : Keeps s (s.step e) := by
  cases e with
  | edit d ledgers => exact .of_grows (h.fleet.grows_edit d ledgers) rfl
  | setMyDisplayName d name =>
      exact .of_grows (h.fleet.grows_write (extends_setMyDisplayName d _ name)) rfl
  | forgetDevice d id =>
      exact .of_grows (h.fleet.grows_write (extends_forgetDevice d _ id)) rfl
  | stray body =>
      cases body with
      | snapshot snap => exact .refl s
      | undecryptable => exact ⟨fun _ => List.mem_cons_of_mem _, fun _ => le_rfl⟩
      | other => exact ⟨fun _ => List.mem_cons_of_mem _, fun _ => le_rfl⟩
  | start d => exact .of_grows (h.fleet.grows_edit d _) rfl
  | list t d ids => exact .of_eq rfl rfl
  | merge t env =>
      simp only [Slot.step, Slot.merge]
      split
      · split
        · exact .of_grows (h.fleet.grows_apply _ env _) rfl
        · exact .of_eq rfl rfl
        · exact .of_eq rfl rfl
      · exact .refl s
  | publish t env reached answered =>
      simp only [Slot.step, Slot.publish]
      split
      next d toClear merged _ =>
        have hstate := (h.fleet.grows_publish d env).state
        cases reached with
        | false => exact ⟨fun _ => id, hstate⟩
        | true => exact ⟨fun _ => List.mem_cons_of_mem _, hstate⟩
      · exact .refl s
  | ack t reached =>
      simp only [Slot.step, Slot.ack]
      split
      · cases reached <;> exact .of_eq rfl rfl
      · exact .refl s
  | finish t =>
      simp only [Slot.step, Slot.finish]
      split
      · split
        · exact .of_grows (h.fleet.grows_edit _ _) rfl
        · exact .of_eq rfl rfl
      · exact .refl s
  | die t => exact .of_eq rfl rfl

end Steps

/-- Whatever was known is still known, in a live note or a sidecar. -/
theorem Keeps.knows {s s' : Slot} (h : Keeps s s') (hs : s.Inv) (hs' : s'.Inv) {x : SyncState}
    (hx : x ∈ s.knows) : ∃ y ∈ s'.knows, x ≤ y := by
  rcases hx with ⟨n, hn, snap, hsnap, rfl⟩ | ⟨d, rfl⟩
  · obtain ⟨m, hm, hsup⟩ := hs'.superseded n (h.arrived n (hs.live n hn)) snap hsnap
    obtain ⟨y, hy, hxy⟩ := hsup.dominates snap hsnap
    exact ⟨_, .inl ⟨m, hm, y, hy, rfl⟩, hxy⟩
  · exact ⟨_, .inr ⟨d, rfl⟩, h.state d⟩

/-- A run from a reachable slot keeps what was there. -/
theorem Inv.keeps_foldl {s : Slot} (h : s.Inv) (es : List SlotEvent) :
    Keeps s (es.foldl Slot.step s) := by
  induction es generalizing s with
  | nil => exact .refl s
  | cons e es ih =>
      have he := h.keeps_step e
      have hrest := ih (h.step e)
      exact ⟨fun n hn => hrest.arrived n (he.arrived n hn),
        fun d => (he.state d).trans (hrest.state d)⟩

/-- No update is lost through the slot. Whatever the rounds of the devices do, in
whatever order and with whatever requests failing, a later state of the system
knows at least what an earlier one did; and every snapshot that ever reached the
slot, acknowledged or not, is at all times below one in a live note. -/
theorem no_lost_update (es : List SlotEvent) :
    (∀ i j, i ≤ j →
      upperBounds (run (es.take j)).knows ⊆ upperBounds (run (es.take i)).knows) ∧
    ∀ n ∈ (run es).arrived, ∀ x, n.body = .snapshot x →
      ∃ m ∈ (run es).notes, ∃ y, m.body = .snapshot y ∧
        SyncState.fromSnapshot x ≤ SyncState.fromSnapshot y := by
  constructor
  · intro i j hij u hu x hx
    have hsplit : run (es.take j) = ((es.take j).drop i).foldl step (run (es.take i)) := by
      have htake := List.take_append_drop i (es.take j)
      rw [List.take_take, min_eq_left hij] at htake
      rw [run, run, ← List.foldl_append, htake]
    have hkeeps : Keeps (run (es.take i)) (run (es.take j)) :=
      hsplit ▸ (inv_run (es.take i)).keeps_foldl _
    obtain ⟨y, hy, hxy⟩ := hkeeps.knows (inv_run _) (inv_run _) hx
    exact hxy.trans (hu hy)
  · intro n hn x hx
    obtain ⟨m, hm, hsup⟩ := (inv_run es).superseded n hn x hx
    obtain ⟨y, hy, hxy⟩ := hsup.dominates x hx
    exact ⟨m, hm, y, hy, hxy⟩

end Slot

end Arvolo.Sync
