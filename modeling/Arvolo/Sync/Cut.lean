import Arvolo.Sync.Quiet

/-!
A merge that is cut off.

`apply_merged_state` saves the merged sidecar first and then the projected
ledgers, one file after another. Each file is replaced in one piece, so a crash
or a failed write leaves a prefix of these writes. The next fold takes every
ledger that was not reached for the user's word: where the merge had changed
what the ledger shows, the fold puts the old value back under a newer clock.
-/

namespace Arvolo.Sync

open Lib
open Std (ExtTreeMap)

/-! ### The writes of a merge -/

/-- The files a merge writes. -/
inductive MergeFile
  | sidecar
  | contacts
  | verified
  | trusted
  | blocked
  | devices
  | seen
  | names
  | relays
  | me
  deriving DecidableEq

/-- In the order of the source. -/
def mergeFiles : List MergeFile :=
  [.sidecar, .contacts, .verified, .trusted, .blocked, .devices, .seen, .names, .relays, .me]

/-- Write one file: the sidecar `c`, or one of the projected ledgers. -/
def Device.writeFile (d : DeviceId) (c : Sidecar) (new : Ledgers) (dev : Device) :
    MergeFile → Device
  | .sidecar => dev.saveMeta d c
  | .contacts => { dev with ledgers := { dev.ledgers with contacts := new.contacts } }
  | .verified => { dev with ledgers := { dev.ledgers with verified := new.verified } }
  | .trusted => { dev with ledgers := { dev.ledgers with trusted := new.trusted } }
  | .blocked => { dev with ledgers := { dev.ledgers with blocked := new.blocked } }
  | .devices => { dev with ledgers := { dev.ledgers with devices := new.devices } }
  | .seen => { dev with ledgers := { dev.ledgers with seen := new.seen, last := new.last } }
  | .names => { dev with ledgers := { dev.ledgers with names := new.names } }
  | .relays => { dev with ledgers := { dev.ledgers with relays := new.relays } }
  | .me => { dev with ledgers := { dev.ledgers with me := new.me } }

/-- `applyMergedState`, cut off after the first `n` writes that follow its fold. -/
def Device.applyCut (env : Env) (d : DeviceId) (dev : Device) (incoming : SyncSnapshot) (n : ℕ) :
    Device :=
  let dev := (dev.buildLocalSnapshot env d).1
  let c := dev.loadMeta.absorb incoming
  (mergeFiles.take n).foldl (Device.writeFile d c (projectToLedgers c.state dev.ledgers)) dev

/-- Not cut off, it is the merge. -/
theorem applyCut_length (env : Env) (d : DeviceId) (dev : Device) (incoming : SyncSnapshot) :
    dev.applyCut env d incoming mergeFiles.length = dev.applyMergedState env d incoming := by
  simp only [Device.applyCut, List.take_length]
  rfl

section Files

variable {d : DeviceId} {c : Sidecar} {new : Ledgers} {dev : Device}

theorem loadMeta_foldl_writeFile (ws : List MergeFile) :
    (ws.foldl (Device.writeFile d c new) dev).loadMeta =
      if .sidecar ∈ ws then c else dev.loadMeta := by
  induction ws generalizing dev with
  | nil => rfl
  | cons w ws ih =>
      rw [List.foldl_cons, ih]
      by_cases hw : MergeFile.sidecar ∈ ws
      · rw [if_pos hw, if_pos (List.mem_cons_of_mem _ hw)]
      · rw [if_neg hw]
        cases w with
        | sidecar => rw [if_pos List.mem_cons_self, Device.writeFile, Device.loadMeta_saveMeta]
        | _ => rw [if_neg (by simpa using hw)]; rfl

/-- Each ledger is in one file. -/
theorem ledger_foldl_writeFile {α : Type} (field : Ledgers → α) (file : MergeFile)
    (hfield : ∀ (dev : Device) w, field (dev.writeFile d c new w).ledgers =
      if w = file then field new else field dev.ledgers) (ws : List MergeFile) :
    field (ws.foldl (Device.writeFile d c new) dev).ledgers =
      if file ∈ ws then field new else field dev.ledgers := by
  induction ws generalizing dev with
  | nil => rfl
  | cons w ws ih =>
      rw [List.foldl_cons, ih, hfield]
      by_cases hw : w = file
      · subst hw
        simp
      · by_cases hmem : file ∈ ws <;> simp [hw, hmem, Ne.symm hw]

end Files

/-! ### What a register says -/

/-- What a register shows to the user, its clock apart. -/
inductive Shown
  | nothing
  | contact (pubkey : String)
  | mark
  | name (pinned : String) (pending : Option String)
  | relay (relay : String)
  | device (name platform : String) (lastSeen : ℕ)
  | selfName (name : String)
  deriving DecidableEq

/-- An empty display name is none. -/
def shownName (name : String) : Shown := if name = "" then .nothing else .selfName name

def Cell.shown : Cell → Shown
  | .contact r => if r.deleted then .nothing else .contact r.pubkey
  | .mark r => if r.deleted then .nothing else .mark
  | .name r => if r.deleted then .nothing else .name r.pinned r.pending
  | .relay r => if r.deleted then .nothing else .relay r.relay
  | .device r => if r.deleted then .nothing else .device r.name r.platform r.lastSeen
  | .selfName r => shownName r.name

def shownAt (s : SyncState) (l : Loc) : Shown := (s.cell l).elim .nothing Cell.shown

/-- The ledger a fold compares a position with. Rows of other devices are not
compared with anything. -/
def Loc.file : Loc → Option MergeFile
  | .contact _ => some .contacts
  | .verified _ => some .verified
  | .trusted _ => some .trusted
  | .blocked _ => some .blocked
  | .name _ => some .names
  | .relay _ => some .relays
  | .device _ => none
  | .selfName => some .me

/-! ### The property and the condition -/

section Property

variable (before saved next : SyncState) (l : Loc)

/-- The fold tombstones a register that is live in what was saved. -/
def Tombstones : Prop :=
  ∃ x y, saved.cell l = some x ∧ next.cell l = some y ∧ x.deleted = false ∧ y.deleted = true

/-- The fold puts back, under a newer clock, what the position showed before the
merge put a newer register there. -/
def Reverts : Prop :=
  ∃ x y, saved.cell l = some x ∧ next.cell l = some y ∧
    rank Cell.clock (before.cell l) < x.clock ∧ x.clock < y.clock ∧
    y.shown = shownAt before l ∧ y.shown ≠ x.shown

end Property

/-- After a merge cut off at `n`, the next fold undoes nothing. -/
def CutSafe (env env' : Env) (d : DeviceId) (dev : Device) (incoming : SyncSnapshot) (n : ℕ) :
    Prop :=
  let before := (dev.buildLocalSnapshot env d).1.loadMeta.state
  let cut := dev.applyCut env d incoming n
  let next := (cut.buildLocalSnapshot env' d).1.loadMeta.state
  ∀ l, ¬ Tombstones cut.loadMeta.state next l ∧ ¬ Reverts before cut.loadMeta.state next l

/-- What a display name shows once it has been through its ledger. -/
def Cell.shownTrimmed : Cell → Shown
  | .selfName r => shownName (trim r.name)
  | x => x.shown

/-- The merge brings a newer register that shows something else, and the ledger
does not come to show it: its file is not reached, or it is a display name whose
trimmed form is the one there was. -/
def Exposed (before : SyncState) (incoming : SyncState) (n : ℕ) (l : Loc) : Prop :=
  ∃ x, incoming.cell l = some x ∧ rank Cell.clock (before.cell l) < x.clock ∧
    x.shown ≠ shownAt before l ∧
    ((∃ file, l.file = some file ∧ file ∉ mergeFiles.take n) ∨
      l = .selfName ∧ x.shownTrimmed = shownAt before l)

/-! ### A device's own registers -/

theorem hexDigit_injective : ∀ a < 16, ∀ b < 16, hexDigit a = hexDigit b → a = b := by decide

/-- The key of a device names it. -/
theorem deviceKey_injective : Function.Injective deviceKey := by
  have hlist (as bs : List UInt8)
      (h : (as.flatMap fun b => [hexDigit (b.toNat / 16), hexDigit (b.toNat % 16)]) =
        bs.flatMap fun b => [hexDigit (b.toNat / 16), hexDigit (b.toNat % 16)]) : as = bs := by
    induction as generalizing bs with
    | nil =>
        cases bs with
        | nil => rfl
        | cons b bs => simp at h
    | cons a as ih =>
        cases bs with
        | nil => simp at h
        | cons b bs =>
            simp only [List.flatMap_cons, List.cons_append, List.nil_append, List.cons.injEq] at h
            obtain ⟨hhigh, hlow, hrest⟩ := h
            have ha := a.toNat_lt
            have hb := b.toNat_lt
            have hdiv := hexDigit_injective _ (by omega) _ (by omega) hhigh
            have hmod := hexDigit_injective _ (by omega) _ (by omega) hlow
            have hab : a = b := UInt8.toNat.inj (by omega)
            rw [hab, ih bs hrest]
  intro d e h
  exact Subtype.ext (hlist _ _ (String.ofList_injective h))

namespace Fleet

/-- Whatever has been held, its author's sidecar has at least as new a register
there. -/
def Mine (f : Fleet) : Prop :=
  ∀ s ∈ f.held, ∀ l x, s.cell l = some x →
    (x.clock : WithBot Lamport) ≤ rank Cell.clock ((f.state x.clock.device).cell l)

theorem Inv.grows_step {f : Fleet} (h : f.Inv) (e : Event) : f.Grows (f.step e) := by
  cases e with
  | edit d ledgers => exact h.grows_edit d ledgers
  | setMyDisplayName d name => exact h.grows_write (extends_setMyDisplayName d _ name)
  | forgetDevice d id => exact h.grows_write (extends_forgetDevice d _ id)
  | publish d env => exact h.grows_publish d env
  | apply d env n => exact h.grows_apply d env n

/-- What an event mints is in its device's sidecar afterwards. -/
theorem Inv.localPart_le {f : Fleet} (h : f.Inv) (e : Event) :
    (f.localPart e).loadMeta.state ≤ (f.step e).state e.device := by
  cases e with
  | edit d ledgers => simp [localPart, Fleet.step, Fleet.edit, state, Event.device]
  | setMyDisplayName d name => simp [localPart, Fleet.step, Event.device, Fleet.write]
  | forgetDevice d id => simp [localPart, Fleet.step, Event.device, Fleet.write]
  | publish d env =>
      change _ ≤ (f.write d _).state d
      rw [Fleet.write, state_put_self]
      exact le_rfl
  | apply d env n =>
      simp only [localPart, Fleet.step, Fleet.apply, Event.device]
      by_cases hn : n < f.posted.length
      · rw [if_pos hn, List.getElem?_eq_getElem hn]
        have hauth := h.coherent.authored _ (h.held_posted _ (List.getElem_mem hn))
        simp only [state_put_self, loadMeta_applyMergedState]
        exact le_merge_left hauth
      · rw [if_neg hn, List.getElem?_eq_none (not_lt.mp hn)]
        exact le_rfl

theorem Mine.step {f : Fleet} (hm : f.Mine) (h : f.Inv) (e : Event) : (f.step e).Mine := by
  intro s hs l x hx
  rcases h.held_step e hs hx with ⟨t, ht, htx⟩ | hmint
  · exact (hm t ht l x htx).trans (((h.grows_step e).state _).1 l)
  · have hle := (h.localPart_le e).1 l
    rw [hmint.1, ← hmint.fresh.device] at hle
    exact hle

theorem mine_run (es : List Event) : (run es).Mine := by
  induction es using List.reverseRecOn with
  | nil =>
      intro s hs l x hx
      rw [List.mem_singleton.mp hs, empty_cell] at hx
      cases hx
  | append_singleton es e ih =>
      rw [run, List.foldl_append]
      exact ih.step (inv_run es) e

/-- In everything held, live name registers have a name to show. -/
theorem namesPresent_run (es : List Event) : ∀ s ∈ (run es).held, NamesPresent s.names := by
  induction es using List.reverseRecOn with
  | nil =>
      intro s hs
      rw [List.mem_singleton.mp hs]
      exact tidy_empty.names
  | append_singleton es e ih =>
      have h := inv_run es
      rw [run, List.foldl_append]
      change ∀ s ∈ ((run es).step e).held, _
      have hfold (d : DeviceId) (env : Env) :=
        (settled_buildLocalSnapshot env d ((run es).devices d)).tidy.names
      cases e with
      | edit d ledgers => exact ih
      | setMyDisplayName d name =>
          intro s hs
          rcases List.mem_cons.mp hs with rfl | hs
          · obtain ⟨r, -, hstate⟩ := state_setMyDisplayName d ((run es).devices d) name
            have hold : NamesPresent ((run es).state d).names := ih _ (h.held_state d)
            rw [hstate]
            exact hold
          · exact ih s hs
      | forgetDevice d id =>
          intro s hs
          rcases List.mem_cons.mp hs with rfl | hs
          · have hold := ih _ (h.held_state d)
            simp only [Device.forgetDevice, tombstoneDevice, Device.loadMeta_saveMeta,
              Device.loadMeta_ledgers]
            exact hold
          · exact ih s hs
      | publish d env =>
          intro s hs
          rcases List.mem_cons.mp hs with rfl | hs
          · exact hfold d env
          · exact ih s hs
      | apply d env n =>
          intro s hs
          simp only [step, apply] at hs
          split at hs
          · exact ih s hs
          next p hp =>
            have hheld := h.held_posted p (List.mem_of_getElem? hp)
            rcases List.mem_cons.mp hs with rfl | hs
            · rw [loadMeta_applyMergedState]
              exact (hfold d env).merge (h.coherent.authored _ hheld) (ih _ hheld)
            · rcases List.mem_cons.mp hs with rfl | hs
              · exact hfold d env
              · exact ih s hs

end Fleet

/-! ### Ledger by ledger -/

/-- Two sets of ledgers have the same file. -/
def SameFile (L L' : Ledgers) : MergeFile → Prop
  | .sidecar => True
  | .contacts => L.contacts = L'.contacts
  | .verified => L.verified = L'.verified
  | .trusted => L.trusted = L'.trusted
  | .blocked => L.blocked = L'.blocked
  | .devices => L.devices = L'.devices
  | .seen => L.seen = L'.seen ∧ L.last = L'.last
  | .names => L.names = L'.names
  | .relays => L.relays = L'.relays
  | .me => L.me = L'.me

/-- After some of the writes a file is the new one or the old one. -/
theorem sameFile_foldl_writeFile {d : DeviceId} {c : Sidecar} {new : Ledgers} {dev : Device}
    (ws : List MergeFile) (file : MergeFile) :
    SameFile (ws.foldl (Device.writeFile d c new) dev).ledgers
      (if file ∈ ws then new else dev.ledgers) file := by
  have hfield {α : Type} (field : Ledgers → α)
      (hfield : ∀ (dev : Device) w, field (dev.writeFile d c new w).ledgers =
        if w = file then field new else field dev.ledgers) :
      field (ws.foldl (Device.writeFile d c new) dev).ledgers =
        field (if file ∈ ws then new else dev.ledgers) := by
    rw [ledger_foldl_writeFile field file hfield ws]
    split <;> rfl
  cases file with
  | sidecar => trivial
  | contacts => exact hfield Ledgers.contacts fun _ w => by cases w <;> rfl
  | verified => exact hfield Ledgers.verified fun _ w => by cases w <;> rfl
  | trusted => exact hfield Ledgers.trusted fun _ w => by cases w <;> rfl
  | blocked => exact hfield Ledgers.blocked fun _ w => by cases w <;> rfl
  | devices => exact hfield Ledgers.devices fun _ w => by cases w <;> rfl
  | seen =>
      exact ⟨hfield Ledgers.seen fun _ w => by cases w <;> rfl,
        hfield Ledgers.last fun _ w => by cases w <;> rfl⟩
  | names => exact hfield Ledgers.names fun _ w => by cases w <;> rfl
  | relays => exact hfield Ledgers.relays fun _ w => by cases w <;> rfl
  | me => exact hfield Ledgers.me fun _ w => by cases w <;> rfl

/-- What a position of a map shows is what its ledger shows. -/
theorem shownAt_of_inStep {V R S : Type} {rule : LedgerRule V R} {view : LedgerView rule S}
    {ledger : Map V} {regs regs' : Map R} (h : InStep view ledger regs)
    (h' : InStep view ledger regs') (wrap : R → Cell) (show' : S → Shown)
    (hshow : ∀ r, (wrap r).shown = (view.reg r).elim .nothing show') (k : String) :
    (regs[k]?.map wrap).elim .nothing Cell.shown =
      (regs'[k]?.map wrap).elim .nothing Cell.shown := by
  have hone (regs : Map R) : (regs[k]?.map wrap).elim .nothing Cell.shown =
      (regs[k]?.bind view.reg).elim .nothing show' := by
    cases regs[k]? with
    | none => rfl
    | some r => exact hshow r
  rw [hone, hone, h k, h' k]

theorem shownAt_eq_of_sameFile {L L' : Ledgers} {s t : SyncState} (hs : MapsInStep L s)
    (ht : MapsInStep L' t) {l : Loc} {file : MergeFile} (hfile : l.file = some file)
    (hme : file ≠ .me) (hsame : SameFile L L' file) : shownAt s l = shownAt t l := by
  cases l with
  | contact k =>
      obtain rfl : MergeFile.contacts = file := Option.some.inj hfile
      have ht' := ht.contacts
      rw [← show L.contacts = L'.contacts from hsame] at ht'
      exact shownAt_of_inStep hs.contacts ht' .contact .contact
        (fun r => by cases h : r.deleted <;> simp [Cell.shown, contactView, h]) k
  | verified k =>
      obtain rfl : MergeFile.verified = file := Option.some.inj hfile
      have ht' := ht.verified
      rw [← show L.verified = L'.verified from hsame] at ht'
      exact shownAt_of_inStep hs.verified ht' .mark (fun _ => .mark)
        (fun r => by cases h : r.deleted <;> simp [Cell.shown, markView, h]) k
  | trusted k =>
      obtain rfl : MergeFile.trusted = file := Option.some.inj hfile
      have ht' := ht.trusted
      rw [← show L.trusted = L'.trusted from hsame] at ht'
      exact shownAt_of_inStep hs.trusted ht' .mark (fun _ => .mark)
        (fun r => by cases h : r.deleted <;> simp [Cell.shown, markView, h]) k
  | blocked k =>
      obtain rfl : MergeFile.blocked = file := Option.some.inj hfile
      have ht' := ht.blocked
      rw [← show L.blocked = L'.blocked from hsame] at ht'
      exact shownAt_of_inStep hs.blocked ht' .mark (fun _ => .mark)
        (fun r => by cases h : r.deleted <;> simp [Cell.shown, markView, h]) k
  | name k =>
      obtain rfl : MergeFile.names = file := Option.some.inj hfile
      have ht' := ht.names
      rw [← show L.names = L'.names from hsame] at ht'
      exact shownAt_of_inStep hs.names ht' .name (fun n => .name n.1 n.2)
        (fun r => by cases h : r.deleted <;> simp [Cell.shown, nameView, h]) k
  | relay k =>
      obtain rfl : MergeFile.relays = file := Option.some.inj hfile
      have ht' := ht.relays
      rw [← show L.relays = L'.relays from hsame] at ht'
      exact shownAt_of_inStep hs.relays ht' .relay .relay
        (fun r => by cases h : r.deleted <;> simp [Cell.shown, relayView, h]) k
  | device k => cases hfile
  | selfName => exact absurd (Option.some.inj hfile).symm hme

/-! ### What the next fold does -/

section Fold

variable {d : DeviceId} {dev : Device}

theorem registerMyName_state (c : Sidecar) (ledgers : Ledgers) :
    (registerMyName d c ledgers).1.state =
      { c.state with selfName := (registerMyName d c ledgers).1.state.selfName } := by
  simp only [registerMyName]
  split
  · split <;> rfl
  · split
    · rfl
    · split <;> rfl

/-- Reconciling the display name touches no map. -/
theorem registerMyName_ledgers (c : Sidecar) (ledgers : Ledgers) :
    (registerMyName d c ledgers).2 =
      { ledgers with
        me := (registerMyName d c ledgers).2.me
        configDisplayName := (registerMyName d c ledgers).2.configDisplayName } := by
  simp only [registerMyName]
  split
  · split <;> rfl
  · split
    · rfl
    · split <;> rfl

/-- After a fold, the maps of the state show what the ledgers showed before it. -/
theorem mapsInStep_buildLocalSnapshot (env : Env) (d : DeviceId) (dev : Device) :
    MapsInStep dev.ledgers (dev.buildLocalSnapshot env d).1.loadMeta.state := by
  have h := (settled_buildLocalSnapshot env d dev).toMapsInStep
  have hledgers : ∃ devices me config, (dev.buildLocalSnapshot env d).1.ledgers =
      { dev.ledgers with devices := devices, me := me, configDisplayName := config } :=
    ⟨_, _, _, registerMyName_ledgers _ _⟩
  obtain ⟨devices, me, config, heq⟩ := hledgers
  rw [heq] at h
  exact ⟨h.contacts, h.verified, h.trusted, h.blocked, h.names, h.relays⟩

/-- The two registrations at the end touch the device register and the display name. -/
theorem maps_buildLocalSnapshot (env : Env) (d : DeviceId) (dev : Device) :
    ∃ devices name, (dev.buildLocalSnapshot env d).1.loadMeta.state =
      { (foldLedgers d dev.ledgers dev.loadMeta).state with
        devices := devices, selfName := name } := by
  simp only [Device.buildLocalSnapshot, Device.loadMeta_saveMeta]
  rw [registerMyName_state, registerThisDevice_state]
  exact ⟨_, _, rfl⟩

/-- A map whose ledger is in step goes through a fold unchanged. -/
theorem cell_buildLocalSnapshot_of_sameFile {L : Ledgers}
    (h : MapsInStep L dev.loadMeta.state) (env : Env) {l : Loc} {file : MergeFile}
    (hfile : l.file = some file) (hme : file ≠ .me) (hsame : SameFile dev.ledgers L file) :
    (dev.buildLocalSnapshot env d).1.loadMeta.state.cell l = dev.loadMeta.state.cell l := by
  obtain ⟨devices, name, hstate⟩ := maps_buildLocalSnapshot env d dev
  rw [hstate]
  cases l with
  | contact k =>
      obtain rfl : MergeFile.contacts = file := Option.some.inj hfile
      have hmap := reconcile_of_inStep (d := d) (n := dev.loadMeta.lamport) h.contacts
      rw [← show dev.ledgers.contacts = L.contacts from hsame] at hmap
      change ((reconcile contactRule d dev.ledgers.contacts _).1[k]?.map Cell.contact) = _
      rw [hmap]
      rfl
  | verified k =>
      obtain rfl : MergeFile.verified = file := Option.some.inj hfile
      have hmap (n : ℕ) := reconcile_of_inStep (d := d) (n := n) h.verified
      simp only [← show dev.ledgers.verified = L.verified from hsame] at hmap
      change ((reconcile markRule d dev.ledgers.verified (dev.loadMeta.state.verified, _)).1[k]?.map
        Cell.mark) = _
      rw [hmap]
      rfl
  | trusted k =>
      obtain rfl : MergeFile.trusted = file := Option.some.inj hfile
      have hmap (n : ℕ) := reconcile_of_inStep (d := d) (n := n) h.trusted
      simp only [← show dev.ledgers.trusted = L.trusted from hsame] at hmap
      change ((reconcile markRule d dev.ledgers.trusted (dev.loadMeta.state.trusted, _)).1[k]?.map
        Cell.mark) = _
      rw [hmap]
      rfl
  | blocked k =>
      obtain rfl : MergeFile.blocked = file := Option.some.inj hfile
      have hmap (n : ℕ) := reconcile_of_inStep (d := d) (n := n) h.blocked
      simp only [← show dev.ledgers.blocked = L.blocked from hsame] at hmap
      change ((reconcile markRule d dev.ledgers.blocked (dev.loadMeta.state.blocked, _)).1[k]?.map
        Cell.mark) = _
      rw [hmap]
      rfl
  | name k =>
      obtain rfl : MergeFile.names = file := Option.some.inj hfile
      have hmap (n : ℕ) := reconcile_of_inStep (d := d) (n := n) h.names
      simp only [← show dev.ledgers.names = L.names from hsame] at hmap
      change ((reconcile nameRule d dev.ledgers.names (dev.loadMeta.state.names, _)).1[k]?.map
        Cell.name) = _
      rw [hmap]
      rfl
  | relay k =>
      obtain rfl : MergeFile.relays = file := Option.some.inj hfile
      have hmap (n : ℕ) := reconcile_of_inStep (d := d) (n := n) h.relays
      simp only [← show dev.ledgers.relays = L.relays from hsame] at hmap
      change ((reconcile relayRule d dev.ledgers.relays (dev.loadMeta.state.relays, _)).1[k]?.map
        Cell.relay) = _
      rw [hmap]
      rfl
  | device k => cases hfile
  | selfName => exact absurd (Option.some.inj hfile).symm hme

theorem shownAt_selfName {ledgers : Ledgers} {s : SyncState} (h : NameInStep ledgers s.selfName) :
    shownAt s .selfName = shownName (trim ledgers.me) := by
  cases hs : s.selfName with
  | none =>
      rw [hs] at h
      simp [shownAt, SyncState.cell, hs, shownName, h.1]
  | some r =>
      rw [hs] at h
      have hname : r.name = trim ledgers.me := h
      simp [shownAt, SyncState.cell, hs, Cell.shown, hname]

/-- After a fold the register shows the name in the ledger, unless a name from an
older install was adopted. -/
theorem shownAt_selfName_buildLocalSnapshot (env : Env) (d : DeviceId) (dev : Device)
    (hnone : dev.loadMeta.state.selfName = none → NameInStep dev.ledgers none) :
    shownAt (dev.buildLocalSnapshot env d).1.loadMeta.state .selfName =
      shownName (trim dev.ledgers.me) := by
  have hreg (c : Sidecar) (ledgers : Ledgers)
      (hnone : c.state.selfName = none → NameInStep ledgers none) :
      shownAt (registerMyName d c ledgers).1.state .selfName = shownName (trim ledgers.me) := by
    cases hs : c.state.selfName with
    | none =>
        have hstep : NameInStep ledgers c.state.selfName := hs ▸ hnone hs
        rw [registerMyName_of_inStep hstep]
        exact shownAt_selfName hstep
    | some r =>
        by_cases hname : r.name = trim ledgers.me
        · have hstep : NameInStep ledgers c.state.selfName := by
            rw [hs]
            exact hname
          rw [registerMyName_of_inStep hstep]
          exact shownAt_selfName hstep
        · simp [registerMyName, hs, hname, mintSelfName, shownAt, SyncState.cell, Cell.shown]
  simp only [Device.buildLocalSnapshot, Device.loadMeta_saveMeta]
  refine hreg _ _ ?_
  rw [registerThisDevice_selfName]
  exact hnone

/-- A device row after a fold: as it was, or a live row of the machine's own where
it had not been retired. -/
theorem device_buildLocalSnapshot (env : Env) (d : DeviceId) (dev : Device) (k : String) :
    (dev.buildLocalSnapshot env d).1.loadMeta.state.cell (.device k) =
        dev.loadMeta.state.cell (.device k) ∨
      k = deviceKey d ∧ (∃ r, (dev.buildLocalSnapshot env d).1.loadMeta.state.cell (.device k) =
        some (.device r) ∧ r.deleted = false) ∧
      ∀ x, dev.loadMeta.state.cell (.device k) = some x → x.deleted = false := by
  have hstate : (dev.buildLocalSnapshot env d).1.loadMeta.state.cell (.device k) =
      (registerThisDevice env d (foldLedgers d dev.ledgers dev.loadMeta)
        dev.ledgers.devices).1.state.cell (.device k) := by
    simp only [Device.buildLocalSnapshot, Device.loadMeta_saveMeta]
    rw [registerMyName_state]
    rfl
  rw [hstate]
  by_cases hk : k = deviceKey d
  · subst hk
    by_cases hgone : (foldLedgers d dev.ledgers dev.loadMeta).state.devices[deviceKey d]?.any
        DeviceReg.deleted
    · left
      simp only [registerThisDevice]
      rw [if_pos hgone]
      rfl
    · rcases registerThisDevice_own env d (foldLedgers d dev.ledgers dev.loadMeta)
        dev.ledgers.devices with he | hr
      · exact .inl he
      · refine .inr ⟨rfl, hr, fun x hx => ?_⟩
        change dev.loadMeta.state.devices[deviceKey d]?.map Cell.device = some x at hx
        obtain ⟨r, hr, rfl⟩ := Option.map_eq_some_iff.mp hx
        change ¬ (dev.loadMeta.state.devices[deviceKey d]?.any DeviceReg.deleted) = true at hgone
        simpa [hr, Cell.deleted] using hgone
  · left
    rw [registerThisDevice_cell env _ _ fun h => hk (Loc.device.inj h)]
    rfl

end Fold

/-! ### The merge at one position -/

theorem merge_cell {s t : SyncState} (hauth : SelfAuthored t.devices) (hc : Compatible s t) (l : Loc) :
    (s.merge t).cell l =
      if rank Cell.clock (s.cell l) < rank Cell.clock (t.cell l) then t.cell l else s.cell l := by
  have hp := picks_merge (s := s) hauth l
  split
  next hlt =>
    rcases hp.choice with he | he
    · have hrank := hp.rank_eq
      rw [he, max_eq_right hlt.le] at hrank
      exact absurd hrank hlt.ne
    · exact he
  next hge =>
    rcases hp.choice with he | he
    · exact he
    · have hrank := hp.rank_eq
      rw [he, max_eq_left (not_lt.mp hge)] at hrank
      rw [he]
      exact ((hc l).eq_of_rank_eq hrank.symm).symm

theorem Cell.shown_ne_nothing {x : Cell} (hx : x.deleted = false) (hname : ∀ r, x ≠ .selfName r) :
    x.shown ≠ .nothing := by
  cases x with
  | selfName r => exact absurd rfl (hname r)
  | contact r => simp_all [Cell.deleted, Cell.shown]
  | mark r => simp_all [Cell.deleted, Cell.shown]
  | name r => simp_all [Cell.deleted, Cell.shown]
  | relay r => simp_all [Cell.deleted, Cell.shown]
  | device r => simp_all [Cell.deleted, Cell.shown]

theorem Cell.shown_of_deleted {x : Cell} (hx : x.deleted = true) : x.shown = .nothing := by
  cases x <;> simp_all [Cell.deleted, Cell.shown]

/-! ### What the cut exposes -/

/-- The states around a cut: `B` before the merge, `I` incoming, `S` saved, and `N`
after the next fold. -/
structure CutFacts (B I S N : SyncState) (n : ℕ) : Prop where
  merged : ∀ l, S.cell l =
    if rank Cell.clock (B.cell l) < rank Cell.clock (I.cell l) then I.cell l else B.cell l
  fresh : ∀ l, N.cell l = S.cell l ∨
    ∃ y, N.cell l = some y ∧ ∀ x, S.cell l = some x → x.clock < y.clock
  unreached : ∀ l file, l.file = some file → file ∉ mergeFiles.take n →
    shownAt N l = shownAt B l
  reached : ∀ l file, l.file = some file → file ∈ mergeFiles.take n → file ≠ .me →
    N.cell l = S.cell l
  name : ∀ r, S.cell .selfName = some (.selfName r) → .me ∈ mergeFiles.take n →
    shownAt N .selfName = shownName (trim r.name)
  device : ∀ k, N.cell (.device k) = S.cell (.device k) ∨
    (∃ r, N.cell (.device k) = some (.device r) ∧ r.deleted = false) ∧
      S.cell (.device k) = B.cell (.device k)

namespace CutFacts

variable {B I S N : SyncState} {n : ℕ} {l : Loc}

theorem shownAt_of_cell {s : SyncState} {x : Cell} (h : s.cell l = some x) :
    shownAt s l = x.shown := by
  simp [shownAt, h]

theorem selfName_cell {s : SyncState} {x : Cell} (h : s.cell .selfName = some x) :
    ∃ r, x = .selfName r := by
  obtain ⟨r, -, rfl⟩ := Option.map_eq_some_iff.mp h
  exact ⟨r, rfl⟩

/-- A position where the saved register is not the local one has the incoming one. -/
theorem incoming_of_ne (h : CutFacts B I S N n) {x : Cell} (hx : S.cell l = some x)
    (hne : S.cell l ≠ B.cell l) : I.cell l = some x ∧ rank Cell.clock (B.cell l) < x.clock := by
  have hm := h.merged l
  split at hm
  next hlt =>
    rw [hm] at hx
    refine ⟨hx, ?_⟩
    rw [hx] at hlt
    exact hlt
  · exact absurd hm hne

theorem exposed_of_reverts (h : CutFacts B I S N n) (hr : Reverts B S N l) :
    Exposed B I n l := by
  obtain ⟨x, y, hx, hy, hlt, hxy, hback, hdiff⟩ := hr
  have hne : S.cell l ≠ B.cell l := by
    intro he
    rw [← he, hx] at hlt
    exact absurd hlt (lt_irrefl _)
  obtain ⟨hin, hnew⟩ := h.incoming_of_ne hx hne
  have hmoved : N.cell l ≠ S.cell l := by
    intro he
    rw [hx, hy] at he
    exact absurd (Option.some.inj he ▸ hxy) (lt_irrefl _)
  refine ⟨x, hin, hnew, fun he => hdiff (hback.trans he.symm), ?_⟩
  cases hfile : l.file with
  | none =>
      -- a row of the device register
      obtain ⟨k, rfl⟩ : ∃ k, l = .device k := by
        cases l <;> first | exact ⟨_, rfl⟩ | cases hfile
      rcases h.device k with he | ⟨-, he⟩
      · exact absurd he hmoved
      · exact absurd he hne
  | some file =>
      by_cases hwritten : file ∈ mergeFiles.take n
      · by_cases hme : file = .me
        · subst hme
          obtain rfl : l = .selfName := by
            cases l <;> first | rfl | cases hfile
          obtain ⟨r, rfl⟩ := selfName_cell hx
          refine .inr ⟨rfl, ?_⟩
          rw [← hback, ← shownAt_of_cell hy, h.name r hx hwritten]
          rfl
        · exact absurd (h.reached l file hfile hwritten hme) hmoved
      · exact .inl ⟨file, rfl, hwritten⟩

theorem exposed_of_tombstones (h : CutFacts B I S N n) (ht : Tombstones S N l) :
    Exposed B I n l := by
  obtain ⟨x, y, hx, hy, hlive, hdead⟩ := ht
  have hmoved : N.cell l ≠ S.cell l := by
    intro he
    rw [hx, hy] at he
    rw [Option.some.inj he, hlive] at hdead
    cases hdead
  have hname (r : SelfName) : x ≠ .selfName r := by
    rintro rfl
    obtain rfl : l = .selfName := by
      cases l <;> simp [SyncState.cell, Option.map_eq_some_iff] at hx ⊢
    obtain ⟨r', rfl⟩ := selfName_cell hy
    cases hdead
  cases hfile : l.file with
  | none =>
      obtain ⟨k, rfl⟩ : ∃ k, l = .device k := by
        cases l <;> first | exact ⟨_, rfl⟩ | cases hfile
      rcases h.device k with he | ⟨⟨r, hr, hd⟩, -⟩
      · exact absurd he hmoved
      · rw [Option.some.inj (hy.symm.trans hr)] at hdead
        exact absurd hdead (by simp [Cell.deleted, hd])
  | some file =>
      have hme : file ≠ .me := by
        rintro rfl
        obtain rfl : l = .selfName := by
          cases l <;> first | rfl | cases hfile
        obtain ⟨r, rfl⟩ := selfName_cell hx
        exact hname r rfl
      have hout : file ∉ mergeFiles.take n := fun hin =>
        hmoved (h.reached l file hfile hin hme)
      have hshown : shownAt B l = .nothing := by
        rw [← h.unreached l file hfile hout, shownAt_of_cell hy, Cell.shown_of_deleted hdead]
      have hdiff : x.shown ≠ shownAt B l := hshown ▸ Cell.shown_ne_nothing hlive hname
      have hne : S.cell l ≠ B.cell l := by
        intro he
        exact hdiff (shownAt_of_cell (he ▸ hx)).symm
      obtain ⟨hin, hnew⟩ := h.incoming_of_ne hx hne
      exact ⟨x, hin, hnew, hdiff, .inl ⟨file, hfile, hout⟩⟩

theorem reverts_of_exposed (h : CutFacts B I S N n) (he : Exposed B I n l) :
    Reverts B S N l := by
  obtain ⟨x, hin, hnew, hdiff, hcause⟩ := he
  have hx : S.cell l = some x := by
    have hm := h.merged l
    rw [if_pos (by rw [hin]; exact hnew)] at hm
    exact hm.trans hin
  have hback : shownAt N l = shownAt B l := by
    rcases hcause with ⟨file, hfile, hout⟩ | ⟨rfl, htrim⟩
    · exact h.unreached l file hfile hout
    · by_cases hme : MergeFile.me ∈ mergeFiles.take n
      · obtain ⟨r, rfl⟩ := selfName_cell hin
        rw [h.name r hx hme]
        exact htrim
      · exact h.unreached .selfName .me rfl hme
  have hmoved : N.cell l ≠ S.cell l := by
    intro he
    rw [hx] at he
    exact hdiff ((shownAt_of_cell he).symm.trans hback)
  obtain he | ⟨y, hy, habove⟩ := h.fresh l
  · exact absurd he hmoved
  · have hshown : y.shown = shownAt B l := (shownAt_of_cell hy).symm.trans hback
    exact ⟨x, y, hx, hy, hnew, habove x hx, hshown, fun he => hdiff (he.symm.trans hshown)⟩

/-- The next fold undoes something exactly where the cut exposes it. -/
theorem safe_iff (h : CutFacts B I S N n) :
    (∀ l, ¬ Tombstones S N l ∧ ¬ Reverts B S N l) ↔ ∀ l, ¬ Exposed B I n l := by
  constructor
  · intro hsafe l he
    exact (hsafe l).2 (h.reverts_of_exposed he)
  · intro hsafe l
    exact ⟨fun ht => hsafe l (h.exposed_of_tombstones ht),
      fun hr => hsafe l (h.exposed_of_reverts hr)⟩

end CutFacts

/-! ### Every cut of every merge -/

section Cut

variable (env env' : Env) (d : DeviceId) (dev : Device) (incoming : SyncSnapshot) (n : ℕ)

theorem sidecar_mem_take : MergeFile.sidecar ∈ mergeFiles.take n ↔ n ≠ 0 := by
  cases n with
  | zero => simp
  | succ n => simp [mergeFiles]

theorem loadMeta_applyCut : (dev.applyCut env d incoming n).loadMeta =
    if n = 0 then (dev.buildLocalSnapshot env d).1.loadMeta
    else (dev.buildLocalSnapshot env d).1.loadMeta.absorb incoming := by
  rw [Device.applyCut, loadMeta_foldl_writeFile]
  by_cases hn : n = 0 <;> simp [sidecar_mem_take, hn]

/-- A file of a cut merge is the projected one or the old one. -/
theorem sameFile_applyCut (file : MergeFile) : SameFile (dev.applyCut env d incoming n).ledgers
    (if file ∈ mergeFiles.take n then projectToLedgers
      ((dev.buildLocalSnapshot env d).1.loadMeta.absorb incoming).state
      (dev.buildLocalSnapshot env d).1.ledgers
    else (dev.buildLocalSnapshot env d).1.ledgers) file :=
  sameFile_foldl_writeFile _ file

theorem config_applyCut : (dev.applyCut env d incoming n).ledgers.configDisplayName =
    (dev.buildLocalSnapshot env d).1.ledgers.configDisplayName := by
  have h (ws : List MergeFile) (c : Sidecar) (new : Ledgers) (dev : Device) :
      (ws.foldl (Device.writeFile d c new) dev).ledgers.configDisplayName =
        dev.ledgers.configDisplayName := by
    induction ws generalizing dev with
    | nil => rfl
    | cons w ws ih =>
        rw [List.foldl_cons, ih]
        cases w <;> rfl
  exact h _ _ _ _

end Cut

namespace Fleet

/-- The facts about a cut, on the devices of a run. -/
theorem cutFacts (es : List Event) {k : ℕ} {p : Posting} (hk : (run es).posted[k]? = some p)
    (d : DeviceId) (env env' : Env) {n : ℕ} (hn : n ≠ 0) :
    CutFacts (((run es).devices d).buildLocalSnapshot env d).1.loadMeta.state
      (.fromSnapshot p.snap) (((run es).devices d).applyCut env d p.snap n).loadMeta.state
      ((((run es).devices d).applyCut env d p.snap n).buildLocalSnapshot env' d).1.loadMeta.state
      n := by
  have hinv := (inv_run es).publish d env
  have hmine : ((run es).publish d env).Mine := (mine_run es).step (inv_run es) (.publish d env)
  set dev := (run es).devices d with hdev
  set folded := (dev.buildLocalSnapshot env d).1 with hfolded
  set cut := dev.applyCut env d p.snap n with hcut
  have hB : folded.loadMeta.state ∈ ((run es).publish d env).held := List.mem_cons_self
  have hIold := (inv_run es).held_posted p (List.mem_of_getElem? hk)
  have hI : SyncState.fromSnapshot p.snap ∈ ((run es).publish d env).held :=
    List.mem_cons_of_mem _ hIold
  have hauth := hinv.coherent.authored _ hI
  have hmeta : cut.loadMeta = folded.loadMeta.absorb p.snap := by
    rw [hcut, loadMeta_applyCut, if_neg hn]
  have hstate : cut.loadMeta.state = folded.loadMeta.state.merge (.fromSnapshot p.snap) := by
    rw [hmeta]
    rfl
  have hnames : NamesPresent cut.loadMeta.state.names := by
    rw [hstate]
    exact (settled_buildLocalSnapshot env d dev).tidy.names.merge hauth (namesPresent_run es _ hIold)
  have hsettled := settled_buildLocalSnapshot env d dev
  have hproj : MapsInStep (projectToLedgers cut.loadMeta.state folded.ledgers)
      cut.loadMeta.state := mapsInStep_projectToLedgers hnames _
  have hfile (file : MergeFile) : SameFile cut.ledgers (if file ∈ mergeFiles.take n then
      projectToLedgers cut.loadMeta.state folded.ledgers else folded.ledgers) file := by
    rw [hmeta]
    exact sameFile_applyCut env d dev p.snap n file
  have hnone : cut.loadMeta.state.selfName = none → NameInStep cut.ledgers none := by
    intro hs
    have hlocal := hsettled.selfName
    rw [selfName_of_merge_eq_none hauth (hstate ▸ hs)] at hlocal
    have hme : cut.ledgers.me = folded.ledgers.me := by
      have hsame := hfile .me
      split at hsame
      · refine Eq.trans hsame ?_
        simp [projectToLedgers, hs]
      · exact hsame
    refine ⟨hme ▸ hlocal.1, ?_⟩
    rw [hcut, config_applyCut]
    exact hlocal.2
  have hnext := shownAt_selfName_buildLocalSnapshot env' d cut hnone
  refine ⟨fun l => ?_, fun l => ?_, fun l file hl hout => ?_, fun l file hl hin hme => ?_,
    fun r hr hin => ?_, fun k => ?_⟩
  · rw [hstate]
    exact merge_cell hauth (hinv.coherent.compatible _ hB _ hI) l
  · rcases (extends_buildLocalSnapshot env' d cut).cell l with he | ⟨y, hy, hf⟩
    · exact .inl he
    · refine .inr ⟨y, hy, fun x hx => Lamport.lt_of_counter_lt (lt_of_le_of_lt ?_ hf.above)⟩
      rw [hmeta] at hx ⊢
      exact (counter_le_maxCounter hx).trans (le_max_right _ _)
  · have hsame := hfile file
    rw [if_neg hout] at hsame
    by_cases hme : file = .me
    · subst hme
      obtain rfl : l = .selfName := by
        cases l <;> first | rfl | cases hl
      rw [hnext, shownAt_selfName hsettled.selfName, show cut.ledgers.me = _ from hsame]
    · exact shownAt_eq_of_sameFile (mapsInStep_buildLocalSnapshot env' d cut)
        hsettled.toMapsInStep hl hme hsame
  · have hsame := hfile file
    rw [if_pos hin] at hsame
    exact cell_buildLocalSnapshot_of_sameFile hproj env' hl hme hsame
  · have hsame := hfile .me
    rw [if_pos hin] at hsame
    have hself : cut.loadMeta.state.selfName = some r := by
      simpa [SyncState.cell] using hr
    rw [hnext, show cut.ledgers.me = _ from hsame, trim_me_projectToLedgers hself]
  · rcases device_buildLocalSnapshot env' d cut k with he | ⟨rfl, hrow, hlive⟩
    · exact .inl he
    · refine .inr ⟨hrow, ?_⟩
      -- a newer live row of this machine could only have been written here
      rw [hstate, merge_cell hauth (hinv.coherent.compatible _ hB _ hI)]
      refine if_neg fun hlt => ?_
      cases hcell : (SyncState.fromSnapshot p.snap).cell (.device (deviceKey d)) with
      | none => simp [hcell] at hlt
      | some x =>
          have hx : cut.loadMeta.state.cell (.device (deviceKey d)) = some x := by
            rw [hstate, merge_cell hauth (hinv.coherent.compatible _ hB _ hI), if_pos hlt, hcell]
          obtain ⟨r, hr, rfl⟩ := Option.map_eq_some_iff.mp hcell
          have hauthor : r.clock.device = d :=
            deviceKey_injective (hauth _ r hr (hlive _ hx))
          have hle := hmine _ hI _ _ hcell
          rw [show (Cell.device r).clock = r.clock from rfl, hauthor] at hle
          rw [hcell] at hlt
          have hst : ((run es).publish d env).state d = folded.loadMeta.state :=
            (Fleet.state_publish _ d env).trans (buildLocalSnapshot_snd env d dev)
          rw [hst] at hle
          exact absurd hle (not_le.mpr hlt)

/-- A merge cut off after `n` writes is harmless exactly when nothing had been
written, or nothing it brought is exposed: no register newer than the local one
shows something else in a ledger that was not reached (nor is a display name whose
blanks are all that is new). -/
theorem cut_safe_iff (es : List Event) (k : ℕ) (p : Posting)
    (hk : (run es).posted[k]? = some p) (d : DeviceId) (env env' : Env) (n : ℕ) :
    CutSafe env env' d ((run es).devices d) p.snap n ↔
      n = 0 ∨ ∀ l, ¬ Exposed (((run es).devices d).buildLocalSnapshot env d).1.loadMeta.state
        (.fromSnapshot p.snap) n l := by
  by_cases hn : n = 0
  · subst hn
    refine iff_of_true ?_ (.inl rfl)
    have hsettled := settled_buildLocalSnapshot env d ((run es).devices d)
    intro l
    refine ⟨?_, ?_⟩
    · rintro ⟨x, y, hx, hy, hlive, hdead⟩
      by_cases hxy : y = x
      · rw [hxy, hlive] at hdead
        cases hdead
      · have hnew := buildLocalSnapshot_of_settled hsettled env' hy
          (fun he => hxy (Option.some.inj (he.symm.trans hx)))
        obtain ⟨-, r, rfl, hr⟩ := hnew
        exact absurd hdead (by simp [Cell.deleted, hr])
    · rintro ⟨x, y, hx, -, hlt, -⟩
      have hx' : (((run es).devices d).buildLocalSnapshot env d).1.loadMeta.state.cell l = some x :=
        hx
      rw [hx'] at hlt
      exact absurd hlt (lt_irrefl _)
  · rw [or_iff_right hn]
    exact (cutFacts es hk d env env' hn).safe_iff

/-- One device has a contact and publishes; another has nothing. -/
def contactRun : List Event :=
  [.edit pairOfDevices.1 { contacts := ExtTreeMap.ofList [("bob", "pk-bob")] },
    .publish pairOfDevices.1 Watch.laptop]

theorem contactRun_posted : ∃ p, (run contactRun).posted[0]? = some p :=
  Option.isSome_iff_exists.mp (by decide +kernel)

/-- A merge that is not cut off is harmless. -/
theorem contactRun_whole : ∃ p, (run contactRun).posted[0]? = some p ∧
    CutSafe Watch.laptop Watch.laptop pairOfDevices.2 ((run contactRun).devices pairOfDevices.2)
      p.snap mergeFiles.length := by
  obtain ⟨p, hp⟩ := contactRun_posted
  refine ⟨p, hp, (cut_safe_iff contactRun 0 p hp _ _ _ _).mpr (.inr ?_)⟩
  have hname : ((run contactRun).posted[0]?.all fun p => p.snap.selfName.isNone) = true := by
    decide +kernel
  rw [hp] at hname
  rintro l ⟨x, hin, -, -, ⟨file, -, hout⟩ | ⟨rfl, -⟩⟩
  · rw [List.take_length] at hout
    exact hout (by cases file <;> decide)
  · obtain ⟨r, hr, -⟩ := Option.map_eq_some_iff.mp hin
    rw [show (SyncState.fromSnapshot p.snap).selfName = p.snap.selfName from rfl] at hr
    simp [hr] at hname

/-- A merge of which only the sidecar was written: the next fold tombstones the
contact, as if the user had removed it. -/
theorem not_cut_safe : ¬ ∀ (es : List Event) (k : ℕ) (p : Posting),
    (run es).posted[k]? = some p → ∀ (d : DeviceId) (env env' : Env) (n : ℕ),
      CutSafe env env' d ((run es).devices d) p.snap n := by
  intro h
  obtain ⟨p, hp⟩ := contactRun_posted
  have hsafe := h contactRun 0 p hp pairOfDevices.2 Watch.laptop Watch.laptop 1
  have hin : ((run contactRun).posted[0]?.all fun p =>
      (SyncState.fromSnapshot p.snap).cell (.contact "bob") =
        some (.contact ⟨"pk-bob", ⟨1, pairOfDevices.1⟩, false⟩)) = true := by decide +kernel
  rw [hp, Option.all_some, decide_eq_true_iff] at hin
  have hbefore : (((run contactRun).devices pairOfDevices.2).buildLocalSnapshot Watch.laptop
      pairOfDevices.2).1.loadMeta.state.cell (.contact "bob") = none := by decide +kernel
  refine ((cutFacts contactRun hp pairOfDevices.2 Watch.laptop Watch.laptop
    one_ne_zero).safe_iff.mp hsafe) (.contact "bob") ⟨_, hin, ?_, ?_, .inl ⟨.contacts, rfl, ?_⟩⟩
  · rw [hbefore]
    exact WithBot.bot_lt_coe _
  · simp [shownAt, hbefore, Cell.shown]
  · decide

end Fleet

end Arvolo.Sync
