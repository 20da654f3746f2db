import Arvolo.Sync.Clocks

/-!
When the ledgers and the sidecar say the same.

A fold reads every difference between a ledger and its registers as an edit by
the user. What it compares is what each side shows: a live register shows its
value and a tombstone shows nothing, a row shows its value and a missing one
nothing. Folding leaves the two in step, a fold that finds them in step mints
nothing, and a projection puts them in step.
-/

namespace Arvolo.Sync

open Lib
open Std (ExtTreeMap)

/-! ### Text -/

theorem dropWhile_reverse_dropWhile {α : Type} (p : α → Bool) (l : List α) :
    ((l.dropWhile p).reverse.dropWhile p).reverse.dropWhile p =
      ((l.dropWhile p).reverse.dropWhile p).reverse := by
  set a := l.dropWhile p with ha
  have hpre : (a.reverse.dropWhile p).reverse <+: a := by
    have h := List.dropWhile_suffix (l := a.reverse) p
    rwa [← List.reverse_prefix, List.reverse_reverse] at h
  cases hb : (a.reverse.dropWhile p).reverse with
  | nil => rfl
  | cons x xs =>
      rw [hb] at hpre
      obtain ⟨rest, hrest⟩ := hpre
      have hfix : a.dropWhile p = a := by
        rw [ha]
        exact List.dropWhile_idempotent p l
      rw [← hrest, List.cons_append] at hfix
      have hx : p x = false := by
        by_contra hx
        rw [Bool.not_eq_false] at hx
        rw [List.dropWhile_cons_of_pos hx] at hfix
        have hlen := (List.dropWhile_suffix (l := xs ++ rest) p).length_le
        rw [hfix] at hlen
        simp at hlen
      exact List.dropWhile_cons_of_neg (by simp [hx])

theorem trim_trim (s : String) : trim (trim s) = trim s := by
  have hfront := dropWhile_reverse_dropWhile isWhitespace s.toList
  have hback := List.dropWhile_idempotent isWhitespace (s.toList.dropWhile isWhitespace).reverse
  simp only [trim, String.toList_ofList, hfront, List.reverse_reverse, hback]

/-! ### What a row and a register show -/

/-- What the two sides of a ledger rule show, and how the rule compares them. -/
structure LedgerView {V R : Type} (rule : LedgerRule V R) (S : Type) where
  row : V → Option S
  reg : R → Option S
  present_eq : ∀ v, rule.present v = (row v).isSome
  deleted_eq : ∀ r, rule.deleted r = (reg r).isNone
  agrees_iff : ∀ v r s t, row v = some s → reg r = some t → (rule.agrees v r = true ↔ s = t)
  live : ∀ v c s, row v = some s → reg (rule.live v c) = some s
  tomb : ∀ r c, reg (rule.tomb r c) = none

def contactView : LedgerView contactRule String where
  row pubkey := some pubkey
  reg r := if r.deleted then none else some r.pubkey
  present_eq _ := rfl
  deleted_eq r := by cases h : r.deleted <;> simp [contactRule, h]
  agrees_iff v r s t hv hr := by
    simp only [Option.some.injEq] at hv
    split at hr
    · cases hr
    · simp only [Option.some.injEq] at hr
      subst hv hr
      exact beq_iff_eq.trans eq_comm
  live v c s h := h
  tomb r c := rfl

def markView : LedgerView markRule Unit where
  row _ := some ()
  reg r := if r.deleted then none else some ()
  present_eq _ := rfl
  deleted_eq r := by cases h : r.deleted <;> simp [markRule, h]
  agrees_iff _ _ _ _ _ _ := by simp [markRule]
  live v c s h := h
  tomb r c := rfl

def nameView : LedgerView nameRule (String × Option String) where
  row row := if !row.pinned.isEmpty || row.pending.isSome then some (row.pinned, row.pending)
    else none
  reg r := if r.deleted then none else some (r.pinned, r.pending)
  present_eq row := by
    cases h : (!row.pinned.isEmpty || row.pending.isSome) <;> simp_all [nameRule]
  deleted_eq r := by cases h : r.deleted <;> simp [nameRule, h]
  agrees_iff v r s t hv hr := by
    split at hv
    · split at hr
      · cases hr
      · simp only [Option.some.injEq] at hv hr
        subst hv hr
        simp only [nameRule, Bool.and_eq_true, beq_iff_eq, Prod.mk.injEq]
        exact and_congr eq_comm eq_comm
    · cases hv
  live v c s h := by
    split at h
    · exact h
    · cases h
  tomb r c := rfl

def relayView : LedgerView relayRule String where
  row relay := some relay
  reg r := if r.deleted then none else some r.relay
  present_eq _ := rfl
  deleted_eq r := by cases h : r.deleted <;> simp [relayRule, h]
  agrees_iff v r s t hv hr := by
    simp only [Option.some.injEq] at hv
    split at hr
    · cases hr
    · simp only [Option.some.injEq] at hr
      subst hv hr
      exact beq_iff_eq.trans eq_comm
  live v c s h := h
  tomb r c := rfl

section InStep

variable {V R S : Type} {rule : LedgerRule V R} (view : LedgerView rule S)

/-- The ledger and the registers show the same, key by key. -/
def InStep (ledger : Map V) (regs : Map R) : Prop :=
  ∀ k : String, regs[k]?.bind view.reg = ledger[k]?.bind view.row

variable {view} {ledger : Map V} {regs : Map R} {d : DeviceId} {n : ℕ}

/-- A row that its register already shows is passed over. -/
theorem addRow_of_shown {acc : Map R × ℕ} {k : String} {v : V}
    (h : acc.1[k]?.bind view.reg = view.row v) : addRow rule d acc k v = acc := by
  unfold addRow
  cases hv : view.row v with
  | none => simp [view.present_eq, hv]
  | some s =>
      rw [hv] at h
      obtain ⟨r, hr, hs⟩ := Option.bind_eq_some_iff.mp h
      have hlive : rule.deleted r = false := by simp [view.deleted_eq, hs]
      have hagrees : rule.agrees v r = true := (view.agrees_iff v r s s hv hs).mpr rfl
      simp [hr, hlive, hagrees]

/-- After its turn a row is shown. -/
theorem shown_addRow (acc : Map R × ℕ) (k : String) {v : V} {s : S} (hv : view.row v = some s) :
    (addRow rule d acc k v).1[k]?.bind view.reg = some s := by
  unfold addRow
  split
  · simp [mint, view.live v _ s hv]
  next h =>
    cases hr : acc.1[k]? with
    | none => simp [hr, view.present_eq, hv] at h
    | some r =>
        simp only [hr, view.present_eq, hv, view.deleted_eq, Option.isSome_some, Bool.true_and,
          Option.any_some, Bool.not_eq_true', Bool.not_eq_false, Bool.and_eq_true,
          Option.isNone_eq_false_iff] at h
        obtain ⟨t, ht⟩ := Option.isSome_iff_exists.mp h.1
        rw [Option.bind_some, ht, (view.agrees_iff v r s t hv ht).mp h.2]

theorem foldl_addRow_of_inStep (h : InStep view ledger regs) :
    ledger.foldl (addRow rule d) (regs, n) = (regs, n) := by
  rw [ExtTreeMap.foldl_eq_foldl_toList]
  have hall : ∀ e ∈ ledger.toList, addRow rule d (regs, n) e.1 e.2 = (regs, n) := by
    intro e he
    have hshown : regs[e.1]?.bind view.reg = view.row e.2 := by
      rw [h e.1, ExtTreeMap.mem_toList_iff_getElem?_eq_some.mp he, Option.bind_some]
    exact addRow_of_shown hshown
  generalize ledger.toList = es at hall
  induction es with
  | nil => rfl
  | cons e es ih =>
      rw [List.foldl_cons, hall e List.mem_cons_self]
      exact ih fun e' he' => hall e' (List.mem_cons_of_mem _ he')

theorem staleRows_of_inStep (h : InStep view ledger regs) : staleRows rule ledger regs = [] := by
  refine List.filter_eq_nil_iff.mpr fun e he => ?_
  have hreg : regs[e.1]? = some e.2 := ExtTreeMap.mem_toList_iff_getElem?_eq_some.mp he
  have hk := h e.1
  rw [hreg, Option.bind_some] at hk
  cases hs : view.reg e.2 with
  | none => simp [view.deleted_eq, hs]
  | some s =>
      rw [hs] at hk
      obtain ⟨v, hv, hrow⟩ := Option.bind_eq_some_iff.mp hk.symm
      simp [hv, view.present_eq, hrow]

/-- A fold that finds ledger and registers in step mints nothing. -/
theorem reconcile_of_inStep (h : InStep view ledger regs) :
    reconcile rule d ledger (regs, n) = (regs, n) := by
  simp only [reconcile, foldl_addRow_of_inStep h, staleRows_of_inStep h, List.foldl_nil]

variable {clock : R → Lamport} (hr : rule.Stamps clock)

include hr

/-- Every row that shows something is shown after the first loop. -/
theorem shown_foldl_addRow (es : List (String × V)) (hes : es.Pairwise fun e e' => e.1 ≠ e'.1)
    (acc : Map R × ℕ) {k : String} {v : V} {s : S} (hmem : (k, v) ∈ es)
    (hv : view.row v = some s) :
    (es.foldl (fun acc e => addRow rule d acc e.1 e.2) acc).1[k]?.bind view.reg = some s := by
  induction es generalizing acc with
  | nil => cases hmem
  | cons e es ih =>
      obtain ⟨hne, hes'⟩ := List.pairwise_cons.mp hes
      rw [List.foldl_cons]
      rcases List.mem_cons.mp hmem with rfl | hmem
      · -- the rest of the loop is about other keys
        have hframe := (mapStamps_foldl_addRow (d := d) hr es hes' (addRow rule d acc k v)).frame k
        rw [hframe]
        · exact shown_addRow acc k hv
        · rintro ⟨e, he, hk, -⟩
          exact hne e he hk
      · exact ih hes' _ hmem

/-- A stale row is a tombstone after the second loop, and the others are left. -/
theorem shown_foldl_tomb (es : List (String × R)) (hes : es.Pairwise fun e e' => e.1 ≠ e'.1)
    (acc : Map R × ℕ) (k : String) :
    (es.foldl (fun acc e => mint d acc e.1 (rule.tomb e.2)) acc).1[k]?.bind view.reg =
      if k ∈ es.map Prod.fst then none else acc.1[k]?.bind view.reg := by
  have hframe (es : List (String × R)) (hes : es.Pairwise fun e e' => e.1 ≠ e'.1)
      (acc : Map R × ℕ) (hk : k ∉ es.map Prod.fst) :
      (es.foldl (fun acc e => mint d acc e.1 (rule.tomb e.2)) acc).1[k]? = acc.1[k]? :=
    (mapStamps_foldl_tomb hr es hes acc).frame k hk
  split
  next hk =>
    induction es generalizing acc with
    | nil => cases hk
    | cons e es ih =>
        obtain ⟨hne, hes'⟩ := List.pairwise_cons.mp hes
        rw [List.foldl_cons]
        by_cases htail : k ∈ es.map Prod.fst
        · exact ih hes' _ htail
        · obtain rfl : k = e.1 := by
            rcases List.mem_cons.mp hk with h | h
            · exact h
            · exact absurd h htail
          rw [hframe es hes' _ htail]
          simp [mint, view.tomb]
  next hk => rw [hframe es hes acc hk]

/-- A fold leaves the registers showing what the ledger shows. -/
theorem inStep_reconcile (acc : Map R × ℕ) : InStep view ledger (reconcile rule d ledger acc).1 := by
  intro k
  simp only [reconcile]
  have hadd {v : V} {s : S} (hv : ledger[k]? = some v) (hs : view.row v = some s) :
      (ledger.foldl (addRow rule d) acc).1[k]?.bind view.reg = some s := by
    rw [ExtTreeMap.foldl_eq_foldl_toList]
    exact shown_foldl_addRow hr _ (pairwise_ne_toList ledger) acc
      (ExtTreeMap.mem_toList_iff_getElem?_eq_some.mpr hv) hs
  generalize ledger.foldl (addRow rule d) acc = added at hadd
  rw [shown_foldl_tomb hr (staleRows rule ledger added.1)
    ((pairwise_ne_toList added.1).filter _)]
  have hstale : k ∈ (staleRows rule ledger added.1).map Prod.fst ↔
      (added.1[k]?.bind view.reg).isSome ∧ (ledger[k]?.bind view.row).isNone := by
    simp only [staleRows, List.mem_map, List.mem_filter, Prod.exists, exists_and_right,
      exists_eq_right, ExtTreeMap.mem_toList_iff_getElem?_eq_some, Bool.and_eq_true,
      Bool.not_eq_true', view.deleted_eq]
    cases added.1[k]? with
    | none => simp
    | some r =>
        cases ledger[k]? with
        | none => simp
        | some v => simp [view.present_eq]
  split
  next hk => exact (Option.isNone_iff_eq_none.mp (hstale.mp hk).2).symm
  next hk =>
    cases hrow : ledger[k]?.bind view.row with
    | none =>
        by_contra hne
        exact hk (hstale.mpr ⟨Option.isSome_iff_ne_none.mpr hne, by simp [hrow]⟩)
    | some s =>
        obtain ⟨v, hv, hs⟩ := Option.bind_eq_some_iff.mp hrow
        exact hadd hv hs

end InStep

/-! ### Projecting -/

theorem getElem?_liveRows {R V : Type} (deleted : R → Bool) (row : String → R → V) (regs : Map R)
    (k : String) :
    (liveRows deleted row regs)[k]? = (regs[k]?.filter fun r => !deleted r).map (row k) := by
  have hfold : liveRows deleted row regs =
      foldInto (fun k _ r => if deleted r then none else some (row k r)) ∅ regs := by
    unfold liveRows foldInto
    congr 1
    funext m k r
    cases h : deleted r <;> simp [upsert, h]
  rw [hfold, getElem?_foldInto]
  cases regs[k]? with
  | none => simp
  | some r => cases h : deleted r <;> simp [h]

/-- A ledger of live rows shows what the registers show. -/
theorem inStep_liveRows {V R S : Type} {rule : LedgerRule V R} (view : LedgerView rule S)
    (row : String → R → V) (regs : Map R)
    (hrow : ∀ (k : String) r, regs[k]? = some r → rule.deleted r = false →
      view.row (row k r) = view.reg r) : InStep view (liveRows rule.deleted row regs) regs := by
  intro k
  rw [getElem?_liveRows]
  cases hk : regs[k]? with
  | none => rfl
  | some r =>
      cases hd : rule.deleted r with
      | true =>
          have hnone : view.reg r = none := by simpa [view.deleted_eq] using hd
          simp [Option.filter_some, hd, hnone]
      | false => simp [Option.filter_some, hd, hrow k r hk hd]

/-- A name register that is live has a name to show. -/
def NamesPresent (names : Map NameReg) : Prop :=
  ∀ (k : String) r, names[k]? = some r → r.deleted = false →
    (!r.pinned.isEmpty || r.pending.isSome) = true

/-- The row a live name register is projected to. -/
def projectedName (old : Map NameRow) (id : String) (r : NameReg) : NameRow where
  pinned := r.pinned
  pending := r.pending
  first := (old[id]?.map NameRow.first).getD ""

/-- The rows that are nothing but a first claim are taken into the live ones. -/
theorem projectNames_eq (names : Map NameReg) (old : Map NameRow) :
    projectNames names old = foldInto (fun id cur (row : NameRow) =>
      if !row.first.isEmpty && !cur.isSome && !(names[id]?.any NameReg.deleted) then
        some { first := row.first } else none)
      (liveRows NameReg.deleted (projectedName old) names) old := by
  have hstep : (fun (n : Map NameRow) (id : String) (row : NameRow) =>
      if !row.first.isEmpty && !n.contains id && !(names[id]?.any NameReg.deleted) then
        n.insert id { first := row.first } else n) = upsert (fun id cur (row : NameRow) =>
      if !row.first.isEmpty && !cur.isSome && !(names[id]?.any NameReg.deleted) then
        some { first := row.first } else none) := by
    funext n id row
    rw [ExtTreeMap.contains_eq_isSome_getElem?]
    simp only [upsert]
    cases !row.first.isEmpty && !n[id]?.isSome && !(names[id]?.any NameReg.deleted) <;> rfl
  rw [foldInto, ← hstep]
  rfl

/-- The projected names, id by id. -/
theorem getElem?_projectNames (names : Map NameReg) (old : Map NameRow) (k : String) :
    (projectNames names old)[k]? =
      match names[k]? with
      | none => old[k]?.bind fun row => if row.first = "" then none else some { first := row.first }
      | some r => if r.deleted then none else some (projectedName old k r) := by
  rw [projectNames_eq, getElem?_foldInto, getElem?_liveRows]
  cases hreg : names[k]? with
  | none =>
      cases old[k]? with
      | none => rfl
      | some row => by_cases hfirst : row.first = "" <;> simp [hfirst]
  | some r =>
      cases hdel : r.deleted with
      | true => cases old[k]? <;> simp [Option.filter_some, hdel]
      | false => cases old[k]? <;> simp [Option.filter_some, hdel]

theorem shown_projectNames (names : Map NameReg) (old : Map NameRow) (k : String) :
    (projectNames names old)[k]?.bind nameView.row =
      (liveRows NameReg.deleted (projectedName old) names)[k]?.bind nameView.row := by
  rw [projectNames_eq, getElem?_foldInto]
  set live := liveRows NameReg.deleted (projectedName old) names
  cases old[k]? with
  | none => rfl
  | some row =>
      -- a row that is only a first claim shows nothing
      cases hk : live[k]? with
      | some r => simp
      | none =>
          simp only [Option.isSome_none, Bool.not_false, Bool.and_true, Option.bind_none]
          split <;> simp [nameView]

theorem inStep_projectNames {names : Map NameReg} (h : NamesPresent names) (old : Map NameRow) :
    InStep nameView (projectNames names old) names := by
  intro k
  rw [shown_projectNames]
  refine inStep_liveRows nameView _ names ?_ k
  intro k r hr hd
  have hd' : r.deleted = false := hd
  have hp := h k r hr hd
  simp only [nameView, projectedName, hd']
  rw [if_pos hp, if_neg Bool.false_ne_true]

/-! ### One device -/

/-- The display name in the ledger is the one in the register; where there is no
register there is no name to put in one. -/
def NameInStep (ledgers : Ledgers) (selfName : Option SelfName) : Prop :=
  match selfName with
  | some r => r.name = trim ledgers.me
  | none => trim ledgers.me = "" ∧ legacyDisplayName ledgers.configDisplayName = ""

/-- The ledgers that are maps show what the state shows. -/
structure MapsInStep (ledgers : Ledgers) (s : SyncState) : Prop where
  contacts : InStep contactView ledgers.contacts s.contacts
  verified : InStep markView ledgers.verified s.verified
  trusted : InStep markView ledgers.trusted s.trusted
  blocked : InStep markView ledgers.blocked s.blocked
  names : InStep nameView ledgers.names s.names
  relays : InStep relayView ledgers.relays s.relays

/-- The ledgers show what the state shows. The device ledger and the seen
counters are not compared. -/
structure Settled (ledgers : Ledgers) (s : SyncState) : Prop
    extends MapsInStep ledgers s where
  selfName : NameInStep ledgers s.selfName

section Fold

variable {d : DeviceId} {c : Sidecar} {ledgers : Ledgers}

/-- Folding ledgers that are in step only moves the seen counters. -/
theorem foldLedgers_of_settled (h : Settled ledgers c.state) :
    foldLedgers d ledgers c = foldSeen ledgers.seen ledgers.last c := by
  simp only [foldLedgers, foldContacts, foldVerified, foldTrusted, foldBlocked, foldNames,
    foldRelays, foldSeen, tombstoneMarks, reconcile_of_inStep h.contacts,
    reconcile_of_inStep h.verified, reconcile_of_inStep h.trusted, reconcile_of_inStep h.blocked,
    reconcile_of_inStep h.names, reconcile_of_inStep h.relays]

theorem registerMyName_of_inStep (h : NameInStep ledgers c.state.selfName) :
    registerMyName d c ledgers = (c, ledgers) := by
  unfold registerMyName
  cases hs : c.state.selfName with
  | some r =>
      rw [hs] at h
      have hname : r.name = trim ledgers.me := h
      simp [hname]
  | none =>
      rw [hs] at h
      obtain ⟨hme, hlegacy⟩ : trim ledgers.me = "" ∧ _ := h
      simp [hme, hlegacy]

/-- Away from the machine's own row, registering it changes nothing. -/
theorem registerThisDevice_cell (env : Env) (devices : Map DeviceRow) (l : Loc)
    (hl : l ≠ .device (deviceKey d)) :
    (registerThisDevice env d c devices).1.state.cell l = c.state.cell l := by
  simp only [registerThisDevice]
  split
  · rfl
  · split
    · rfl
    · cases l with
      | device k =>
          have hk : k ≠ deviceKey d := fun h => hl (congrArg _ h)
          have hne : compare (deviceKey d) k ≠ .eq := fun he =>
            hk (Std.LawfulEqCmp.eq_of_compare he).symm
          simp [SyncState.cell, mint, ExtTreeMap.getElem?_insert, hne]
      | _ => rfl

theorem registerThisDevice_selfName (env : Env) (devices : Map DeviceRow) :
    (registerThisDevice env d c devices).1.state.selfName = c.state.selfName := by
  simp only [registerThisDevice]
  split
  · rfl
  · split <;> rfl

/-- A fold that finds everything in step writes nothing but the machine's own row. -/
theorem cell_buildLocalSnapshot_of_settled {dev : Device}
    (h : Settled dev.ledgers dev.loadMeta.state) (env : Env) (l : Loc)
    (hl : l ≠ .device (deviceKey d)) :
    (dev.buildLocalSnapshot env d).1.loadMeta.state.cell l = dev.loadMeta.state.cell l := by
  simp only [Device.buildLocalSnapshot, Device.loadMeta_saveMeta, foldLedgers_of_settled h]
  rw [registerMyName_of_inStep, registerThisDevice_cell env _ l hl, cell_foldSeen]
  rw [registerThisDevice_selfName]
  exact h.selfName

theorem trim_empty : trim "" = "" := by decide +kernel

theorem trim_legacyDisplayName (config : Option String) :
    trim (legacyDisplayName config) = legacyDisplayName config := by
  unfold legacyDisplayName
  cases config with
  | none => exact trim_empty
  | some name =>
      rw [Option.map_some, Option.filter_some]
      split
      · exact trim_trim name
      · exact trim_empty

theorem registerThisDevice_state (env : Env) (devices : Map DeviceRow) :
    (registerThisDevice env d c devices).1.state =
      { c.state with devices := (registerThisDevice env d c devices).1.state.devices } := by
  simp only [registerThisDevice]
  split
  · rfl
  · split <;> rfl

/-- Reconciling the display name leaves it in step, and everything else alone. -/
theorem settled_registerMyName (h : MapsInStep ledgers c.state) :
    Settled (registerMyName d c ledgers).2 (registerMyName d c ledgers).1.state := by
  have hmaps (me : String) (config : Option String) (name : Option SelfName) :
      MapsInStep { ledgers with me := me, configDisplayName := config }
        { c.state with selfName := name } :=
    ⟨h.contacts, h.verified, h.trusted, h.blocked, h.names, h.relays⟩
  unfold registerMyName
  cases hs : c.state.selfName with
  | some r =>
      by_cases hname : r.name = trim ledgers.me
      · simp only [hname, if_true]
        exact ⟨h, by rw [hs]; exact hname⟩
      · simp only [hname, if_false]
        exact ⟨hmaps _ _ _, rfl⟩
  | none =>
      by_cases hme : (trim ledgers.me).isEmpty
      · by_cases hlegacy : (legacyDisplayName ledgers.configDisplayName).isEmpty
        · simp only [hme, hlegacy, Bool.not_true, Bool.false_eq_true, if_false, if_true]
          refine ⟨h, ?_⟩
          rw [hs]
          exact ⟨String.isEmpty_iff.mp hme, String.isEmpty_iff.mp hlegacy⟩
        · simp only [hme, hlegacy, Bool.not_true, Bool.false_eq_true, if_false]
          exact ⟨hmaps _ _ _, (trim_legacyDisplayName _).symm⟩
      · simp only [hme, Bool.not_false, if_true]
        exact ⟨hmaps _ _ _, rfl⟩

/-- After a fold, a device's ledgers and its sidecar are in step. -/
theorem settled_buildLocalSnapshot (env : Env) (d : DeviceId) (dev : Device) :
    Settled (dev.buildLocalSnapshot env d).1.ledgers
      (dev.buildLocalSnapshot env d).1.loadMeta.state := by
  simp only [Device.buildLocalSnapshot, Device.loadMeta_saveMeta]
  have hstate := registerThisDevice_state (d := d) (c := foldLedgers d dev.ledgers dev.loadMeta)
    env dev.ledgers.devices
  refine settled_registerMyName ?_
  rw [hstate]
  exact ⟨inStep_reconcile contactRule_stamps _, inStep_reconcile markRule_stamps _,
    inStep_reconcile markRule_stamps _, inStep_reconcile markRule_stamps _,
    inStep_reconcile nameRule_stamps _, inStep_reconcile relayRule_stamps _⟩

end Fold

/-! ### States that project cleanly -/

/-- A state whose projection shows what it shows. -/
structure Tidy (s : SyncState) : Prop where
  names : NamesPresent s.names
  selfName : ∀ r, s.selfName = some r → trim r.name = r.name

theorem tidy_empty : Tidy {} := ⟨fun _ _ h => by simp at h, fun _ h => by cases h⟩

/-- A state in step with some ledgers is one. -/
theorem Settled.tidy {ledgers : Ledgers} {s : SyncState} (h : Settled ledgers s) : Tidy s where
  names k r hr hd := by
    have hk := h.names k
    have hreg : nameView.reg r = some (r.pinned, r.pending) := by simp [nameView, hd]
    rw [hr, Option.bind_some, hreg] at hk
    obtain ⟨row, -, hrow⟩ := Option.bind_eq_some_iff.mp hk.symm
    simp only [nameView] at hrow
    split at hrow
    next hp =>
      simp only [Option.some.injEq, Prod.mk.injEq] at hrow
      rwa [← hrow.1, ← hrow.2]
    · cases hrow
  selfName r hr := by
    have hname := h.selfName
    rw [hr] at hname
    rw [show r.name = trim ledgers.me from hname, trim_trim]

theorem NamesPresent.merge {s t : SyncState} (hs : NamesPresent s.names)
    (hauth : SelfAuthored t.devices) (ht : NamesPresent t.names) :
    NamesPresent (s.merge t).names := by
  intro k r hr hd
  have hcell : (s.merge t).cell (.name k) = some (.name r) := by simp [SyncState.cell, hr]
  rcases (picks_merge hauth (.name k)).choice with he | he
  · rw [he] at hcell
    simp only [SyncState.cell, Option.map_eq_some_iff, Cell.name.injEq, exists_eq_right] at hcell
    exact hs k r hcell hd
  · rw [he] at hcell
    simp only [SyncState.cell, Option.map_eq_some_iff, Cell.name.injEq, exists_eq_right] at hcell
    exact ht k r hcell hd

theorem Tidy.merge {s t : SyncState} (ht : SelfAuthored t.devices) (hs : Tidy s) (h : Tidy t) :
    Tidy (s.merge t) where
  names := hs.names.merge ht h.names
  selfName r hr := by
    have hcell : (s.merge t).cell .selfName = some (.selfName r) := by simp [SyncState.cell, hr]
    rcases (picks_merge ht .selfName).choice with he | he
    · rw [he] at hcell
      simp only [SyncState.cell, Option.map_eq_some_iff, Cell.selfName.injEq,
        exists_eq_right] at hcell
      exact hs.selfName r hcell
    · rw [he] at hcell
      simp only [SyncState.cell, Option.map_eq_some_iff, Cell.selfName.injEq,
        exists_eq_right] at hcell
      exact h.selfName r hcell

/-- The projection shows what the state shows. -/
theorem mapsInStep_projectToLedgers {s : SyncState} (h : NamesPresent s.names) (ledgers : Ledgers) :
    MapsInStep (projectToLedgers s ledgers) s where
  contacts := inStep_liveRows contactView _ _ fun _ r _ hd => by
    have hd' : r.deleted = false := hd
    simp [contactView, hd']
  verified := inStep_liveRows markView _ _ fun _ r _ hd => by
    have hd' : r.deleted = false := hd
    simp [markView, hd']
  trusted := inStep_liveRows markView _ _ fun _ r _ hd => by
    have hd' : r.deleted = false := hd
    simp [markView, hd']
  blocked := inStep_liveRows markView _ _ fun _ r _ hd => by
    have hd' : r.deleted = false := hd
    simp [markView, hd']
  names := inStep_projectNames h _
  relays := inStep_liveRows relayView _ _ fun _ r _ hd => by
    have hd' : r.deleted = false := hd
    simp [relayView, hd']

/-- The name left in the ledger by a projection, as a fold reads it. -/
theorem trim_me_projectToLedgers {s : SyncState} {r : SelfName} (hs : s.selfName = some r)
    (ledgers : Ledgers) : trim (projectToLedgers s ledgers).me = trim r.name := by
  by_cases hme : trim ledgers.me = r.name
  · simp [projectToLedgers, hs, ← hme, trim_trim]
  · simp [projectToLedgers, hs, hme]

/-- The projection of a tidy state is in step with it, provided the old ledgers
had no name left where the state has none. -/
theorem settled_projectToLedgers {s : SyncState} (h : Tidy s) {ledgers : Ledgers}
    (hname : s.selfName = none → NameInStep ledgers none) :
    Settled (projectToLedgers s ledgers) s where
  toMapsInStep := mapsInStep_projectToLedgers h.names ledgers
  selfName := by
    cases hs : s.selfName with
    | none => simpa [projectToLedgers, hs, NameInStep] using hname hs
    | some r => exact ((trim_me_projectToLedgers hs ledgers).trans (h.selfName r hs)).symm

/-- Where the merge leaves no name, there was none. -/
theorem selfName_of_merge_eq_none {s t : SyncState} (ht : SelfAuthored t.devices)
    (h : (s.merge t).selfName = none) : s.selfName = none := by
  have hrank := (picks_merge (s := s) ht .selfName).rank_eq
  have hmerged : (s.merge t).cell .selfName = none := by simp [SyncState.cell, h]
  rw [hmerged, rank_none, eq_comm, max_eq_bot] at hrank
  cases hs : s.selfName with
  | none => rfl
  | some r => simp [SyncState.cell, hs] at hrank

/-- After a merge of tidy states, a device's ledgers and its sidecar are in step. -/
theorem settled_applyMergedState (env : Env) (d : DeviceId) (dev : Device)
    {incoming : SyncSnapshot} (ha : SelfAuthored (SyncState.fromSnapshot incoming).devices)
    (hi : Tidy (.fromSnapshot incoming)) :
    Settled (dev.applyMergedState env d incoming).ledgers
      (dev.applyMergedState env d incoming).loadMeta.state := by
  have hfold := settled_buildLocalSnapshot env d dev
  rw [loadMeta_applyMergedState]
  simp only [Device.applyMergedState]
  refine settled_projectToLedgers (hfold.tidy.merge ha hi) fun hnone => ?_
  have hlocal := selfName_of_merge_eq_none ha hnone
  have hstep := hfold.selfName
  rw [hlocal] at hstep
  exact hstep

end Arvolo.Sync
