import Arvolo.Lib.Register
import Arvolo.Sync.State

/-!
The merge as a join.

All the clocked registers of a state are seen through one function,
`SyncState.cell`, from positions to registers. In the preorder that compares
two states position by position (and the seen counters by value), the merge of
two states is a least upper bound of them; where the two states agree, that is,
where one clock at one position never names two registers, being below each
other means being equal.
-/

namespace Arvolo.Sync

open Lib
open Std (ExtTreeMap)

/-- A position of the state that holds a clocked register. -/
inductive Loc
  | contact (name : String)
  | verified (pubkey : String)
  | trusted (pubkey : String)
  | blocked (pubkey : String)
  | name (pubkey : String)
  | relay (pubkey : String)
  | device (id : String)
  | selfName
  deriving DecidableEq

/-- What such a position can hold. -/
inductive Cell
  | contact (r : ContactReg)
  | mark (r : MarkReg)
  | name (r : NameReg)
  | relay (r : RelayReg)
  | device (r : DeviceReg)
  | selfName (r : SelfName)
  deriving DecidableEq

def Cell.clock : Cell → Lamport
  | .contact r => r.clock
  | .mark r => r.clock
  | .name r => r.clock
  | .relay r => r.clock
  | .device r => r.clock
  | .selfName r => r.clock

def SyncState.cell (s : SyncState) : Loc → Option Cell
  | .contact k => s.contacts[k]?.map .contact
  | .verified k => s.verified[k]?.map .mark
  | .trusted k => s.trusted[k]?.map .mark
  | .blocked k => s.blocked[k]?.map .mark
  | .name k => s.names[k]?.map .name
  | .relay k => s.relays[k]?.map .relay
  | .device k => s.devices[k]?.map .device
  | .selfName => s.selfName.map .selfName

theorem map_eq_of_forall_cell {R : Type} {f : R → Cell} (hf : Function.Injective f)
    {m m' : Map R} (h : ∀ k : String, m[k]?.map f = m'[k]?.map f) : m = m' :=
  ExtTreeMap.ext_getElem? fun k => Option.map_injective hf (h k)

/-- A state is its clocked registers and its seen counters. -/
theorem SyncState.ext_cell {s t : SyncState} (hc : ∀ l, s.cell l = t.cell l)
    (hs : s.seen = t.seen) : s = t := by
  have inj (f : SelfName → Cell) (hf : Function.Injective f)
      (h : s.selfName.map f = t.selfName.map f) : s.selfName = t.selfName :=
    Option.map_injective hf h
  refine SyncState.ext ?_ ?_ ?_ hs ?_ ?_ ?_ ?_ ?_
  · exact map_eq_of_forall_cell (fun _ _ => Cell.contact.inj) fun k => hc (.contact k)
  · exact map_eq_of_forall_cell (fun _ _ => Cell.mark.inj) fun k => hc (.verified k)
  · exact map_eq_of_forall_cell (fun _ _ => Cell.mark.inj) fun k => hc (.trusted k)
  · exact map_eq_of_forall_cell (fun _ _ => Cell.name.inj) fun k => hc (.name k)
  · exact map_eq_of_forall_cell (fun _ _ => Cell.mark.inj) fun k => hc (.blocked k)
  · exact map_eq_of_forall_cell (fun _ _ => Cell.relay.inj) fun k => hc (.relay k)
  · exact map_eq_of_forall_cell (fun _ _ => Cell.device.inj) fun k => hc (.device k)
  · exact inj .selfName (fun _ _ => Cell.selfName.inj) (hc .selfName)

/-! ### What the merge does at one position -/

/-- The value left at a position that `rule` was asked about. -/
def afterRule {R : Type} (rule : Option R → R → Option R) (cur inc : Option R) : Option R :=
  match inc with
  | none => cur
  | some v => (rule cur v).or cur

theorem picks_takeNewer {R : Type} (clock : R → Lamport) (cur inc : Option R) :
    Picks clock cur inc (afterRule (takeNewer clock) cur inc) := by
  cases inc with
  | none => exact .of_cur bot_le
  | some v =>
      cases cur with
      | none => exact .of_inc bot_le
      | some c =>
          by_cases h : clock c ≥ clock v
          · have hres : afterRule (takeNewer clock) (some c) (some v) = some c := by
              simp [afterRule, takeNewer, h]
            rw [hres]
            exact .of_cur (WithBot.coe_le_coe.mpr h)
          · have hres : afterRule (takeNewer clock) (some c) (some v) = some v := by
              simp [afterRule, takeNewer, h]
            rw [hres]
            exact .of_inc (WithBot.coe_le_coe.mpr (le_of_not_ge h))

theorem picks_takeNewerOrDeleted {R : Type} (clock : R → Lamport) (deleted : R → Bool)
    (cur inc : Option R) :
    Picks clock cur inc (afterRule (takeNewerOrDeleted clock deleted) cur inc) := by
  cases inc with
  | none => exact .of_cur bot_le
  | some v =>
      cases cur with
      | none => exact .of_inc bot_le
      | some c =>
          simp only [afterRule, takeNewerOrDeleted]
          split_ifs with hlt heq hdel
          · exact .of_cur (WithBot.coe_le_coe.mpr hlt.le)
          · exact .of_inc (WithBot.coe_le_coe.mpr heq.le)
          · exact .of_cur (WithBot.coe_le_coe.mpr heq.ge)
          · exact .of_inc (WithBot.coe_le_coe.mpr (not_lt.mp hlt))

/-- Every live device row was written by the machine it describes. -/
def SelfAuthored (devices : Map DeviceReg) : Prop :=
  ∀ (id : String) (r : DeviceReg), devices[id]? = some r → r.deleted = false →
    deviceKey r.clock.device = id

theorem getElem?_foldInto_rule {R : Type} (rule : Option R → R → Option R) (into other : Map R)
    (k : String) :
    (foldInto (fun _ => rule) into other)[k]? = afterRule rule into[k]? other[k]? := by
  rw [getElem?_foldInto]
  cases other[k]? <;> rfl

/-- On rows that are self-authored the authorship rule turns nothing away. -/
theorem getElem?_mergeDevices {into other : Map DeviceReg} (h : SelfAuthored other)
    (id : String) :
    (mergeDevices into other)[id]? =
      afterRule (takeNewerOrDeleted DeviceReg.clock DeviceReg.deleted) into[id]? other[id]? := by
  unfold mergeDevices
  rw [getElem?_foldInto]
  cases hid : other[id]? with
  | none => rfl
  | some r =>
      have hpass : (!r.deleted && deviceKey r.clock.device != id) = false := by
        cases hd : r.deleted with
        | true => rfl
        | false => simp [h id r hid hd]
      simp [afterRule, hpass]

/-- At every position the merge picks the newer of the two registers. -/
theorem picks_merge {s t : SyncState} (ht : SelfAuthored t.devices) (l : Loc) :
    Picks Cell.clock (s.cell l) (t.cell l) ((s.merge t).cell l) := by
  cases l with
  | contact k =>
      simpa only [SyncState.cell, SyncState.merge, mergeContacts, getElem?_foldInto_rule] using
        (picks_takeNewer ContactReg.clock s.contacts[k]? t.contacts[k]?).map Cell.clock .contact (fun _ => rfl)
  | verified k =>
      simpa only [SyncState.cell, SyncState.merge, mergeMarks, getElem?_foldInto_rule] using
        (picks_takeNewerOrDeleted MarkReg.clock MarkReg.deleted s.verified[k]?
          t.verified[k]?).map Cell.clock .mark (fun _ => rfl)
  | trusted k =>
      simpa only [SyncState.cell, SyncState.merge, mergeMarks, getElem?_foldInto_rule] using
        (picks_takeNewerOrDeleted MarkReg.clock MarkReg.deleted s.trusted[k]?
          t.trusted[k]?).map Cell.clock .mark (fun _ => rfl)
  | blocked k =>
      simpa only [SyncState.cell, SyncState.merge, mergeMarks, getElem?_foldInto_rule] using
        (picks_takeNewerOrDeleted MarkReg.clock MarkReg.deleted s.blocked[k]?
          t.blocked[k]?).map Cell.clock .mark (fun _ => rfl)
  | name k =>
      simpa only [SyncState.cell, SyncState.merge, mergeNames, getElem?_foldInto_rule] using
        (picks_takeNewer NameReg.clock s.names[k]? t.names[k]?).map Cell.clock .name (fun _ => rfl)
  | relay k =>
      simpa only [SyncState.cell, SyncState.merge, mergeRelays, getElem?_foldInto_rule] using
        (picks_takeNewer RelayReg.clock s.relays[k]? t.relays[k]?).map Cell.clock .relay (fun _ => rfl)
  | device k =>
      simpa only [SyncState.cell, SyncState.merge, getElem?_mergeDevices ht] using
        (picks_takeNewerOrDeleted DeviceReg.clock DeviceReg.deleted s.devices[k]?
          t.devices[k]?).map Cell.clock .device (fun _ => rfl)
  | selfName =>
      have heq : mergeSelfName s.selfName t.selfName =
          afterRule (takeNewer SelfName.clock) s.selfName t.selfName := by
        cases t.selfName <;> rfl
      simpa only [SyncState.cell, SyncState.merge, heq] using
        (picks_takeNewer SelfName.clock s.selfName t.selfName).map Cell.clock .selfName (fun _ => rfl)

/-! ### Seen counters -/

/-- Both numbers of a seen register, with nothing recorded below everything. -/
def seenLe : Option SeenReg → Option SeenReg → Prop
  | none, _ => True
  | some _, none => False
  | some a, some b => a.count ≤ b.count ∧ a.last ≤ b.last

theorem seenLe_refl (a : Option SeenReg) : seenLe a a := by
  cases a <;> simp [seenLe]

theorem seenLe_trans {a b c : Option SeenReg} (hab : seenLe a b) (hbc : seenLe b c) :
    seenLe a c := by
  cases a with
  | none => trivial
  | some a =>
      cases b with
      | none => exact hab.elim
      | some b =>
          cases c with
          | none => exact hbc.elim
          | some c => exact ⟨hab.1.trans hbc.1, hab.2.trans hbc.2⟩

theorem seenLe_antisymm {a b : Option SeenReg} (hab : seenLe a b) (hba : seenLe b a) :
    a = b := by
  cases a with
  | none =>
      cases b with
      | none => rfl
      | some b => exact hba.elim
  | some a =>
      cases b with
      | none => exact hab.elim
      | some b =>
          have hcount : a.count = b.count := le_antisymm hab.1 hba.1
          have hlast : a.last = b.last := le_antisymm hab.2 hba.2
          cases a
          cases b
          simp_all

/-- The merged seen counter is the least one above both. -/
theorem seen_merge_lub (s t : SyncState) (k : String) :
    seenLe s.seen[k]? (s.merge t).seen[k]? ∧ seenLe t.seen[k]? (s.merge t).seen[k]? ∧
      ∀ u, seenLe s.seen[k]? u → seenLe t.seen[k]? u → seenLe (s.merge t).seen[k]? u := by
  simp only [SyncState.merge, mergeSeen, getElem?_foldInto]
  cases ht : t.seen[k]? with
  | none => exact ⟨seenLe_refl _, trivial, fun u hs _ => hs⟩
  | some b =>
      cases hs : s.seen[k]? with
      | none =>
          refine ⟨trivial, ?_, ?_⟩
          · simp [seenLe]
          · intro u _ hb
            cases u <;> simp_all [seenLe]
      | some a =>
          refine ⟨?_, ?_, ?_⟩
          · simp [seenLe]
          · simp [seenLe]
          · intro u ha hb
            cases u <;> simp_all [seenLe]

/-! ### States ordered by what they know -/

/-- `s` knows nothing newer than `t`. -/
instance : Preorder SyncState where
  le s t := (∀ l, rank Cell.clock (s.cell l) ≤ rank Cell.clock (t.cell l)) ∧
    ∀ k : String, seenLe s.seen[k]? t.seen[k]?
  le_refl s := ⟨fun _ => le_rfl, fun _ => seenLe_refl _⟩
  le_trans _ _ _ hst htu :=
    ⟨fun l => (hst.1 l).trans (htu.1 l), fun k => seenLe_trans (hst.2 k) (htu.2 k)⟩

theorem SyncState.le_def {s t : SyncState} :
    s ≤ t ↔ (∀ l, rank Cell.clock (s.cell l) ≤ rank Cell.clock (t.cell l)) ∧
      ∀ k : String, seenLe s.seen[k]? t.seen[k]? := Iff.rfl

theorem le_merge_left {s t : SyncState} (ht : SelfAuthored t.devices) : s ≤ s.merge t :=
  ⟨fun l => (picks_merge ht l).rank_eq ▸ le_max_left _ _, fun k => (seen_merge_lub s t k).1⟩

theorem le_merge_right {s t : SyncState} (ht : SelfAuthored t.devices) : t ≤ s.merge t :=
  ⟨fun l => (picks_merge ht l).rank_eq ▸ le_max_right _ _, fun k => (seen_merge_lub s t k).2.1⟩

theorem merge_le {s t u : SyncState} (ht : SelfAuthored t.devices) (hsu : s ≤ u) (htu : t ≤ u) :
    s.merge t ≤ u :=
  ⟨fun l => (picks_merge ht l).rank_eq ▸ max_le (hsu.1 l) (htu.1 l),
    fun k => (seen_merge_lub s t k).2.2 _ (hsu.2 k) (htu.2 k)⟩

/-- Joining two states that are least upper bounds of what is behind them. -/
theorem isLUB_merge {s t : SyncState} {A B : Set SyncState} (ht : SelfAuthored t.devices)
    (hs : IsLUB A s) (htB : IsLUB B t) : IsLUB (A ∪ B) (s.merge t) := by
  constructor
  · rintro v (hv | hv)
    · exact (hs.1 hv).trans (le_merge_left ht)
    · exact (htB.1 hv).trans (le_merge_right ht)
  · intro u hu
    refine merge_le ht (hs.2 fun v hv => hu (.inl hv)) (htB.2 fun v hv => hu (.inr hv))

/-- One clock at one position names one register, in `s` and `t` together. -/
def Compatible (s t : SyncState) : Prop := ∀ l, Agree Cell.clock (s.cell l) (t.cell l)

theorem Compatible.refl (s : SyncState) : Compatible s s :=
  fun _ _ hx _ hy _ => Option.mem_unique hx hy

theorem Compatible.symm {s t : SyncState} (h : Compatible s t) : Compatible t s :=
  fun l x hx y hy hc => (h l y hy x hx hc.symm).symm

theorem Compatible.merge_left {s t u : SyncState} (ht : SelfAuthored t.devices)
    (hsu : Compatible s u) (htu : Compatible t u) : Compatible (s.merge t) u := by
  intro l
  rcases (picks_merge ht l).choice with h | h
  · rw [h]; exact hsu l
  · rw [h]; exact htu l

theorem SelfAuthored.merge {s t : SyncState} (hs : SelfAuthored s.devices)
    (ht : SelfAuthored t.devices) : SelfAuthored (s.merge t).devices := by
  intro id r hr hd
  have hcell : (s.merge t).cell (.device id) = some (.device r) := by
    simp [SyncState.cell, hr]
  rcases (picks_merge ht (.device id)).choice with h | h
  · rw [h] at hcell
    simp only [SyncState.cell, Option.map_eq_some_iff, Cell.device.injEq,
      exists_eq_right] at hcell
    exact hs id r hcell hd
  · rw [h] at hcell
    simp only [SyncState.cell, Option.map_eq_some_iff, Cell.device.injEq,
      exists_eq_right] at hcell
    exact ht id r hcell hd

/-- Compatible states that know nothing newer than each other are equal. -/
theorem Compatible.antisymm {s t : SyncState} (h : Compatible s t) (hst : s ≤ t) (hts : t ≤ s) :
    s = t := by
  refine SyncState.ext_cell (fun l => ?_) (ExtTreeMap.ext_getElem? fun k => ?_)
  · exact (h l).eq_of_rank_eq (le_antisymm (hst.1 l) (hts.1 l))
  · exact seenLe_antisymm (hst.2 k) (hts.2 k)

/-! ### The laws of a join -/

/-- States that can stand side by side: each one's live device rows are
self-authored, and no clock names two registers. -/
structure Coherent (K : Set SyncState) : Prop where
  authored : ∀ s ∈ K, SelfAuthored s.devices
  compatible : ∀ s ∈ K, ∀ t ∈ K, Compatible s t

namespace Coherent

variable {K : Set SyncState} {s t u : SyncState}

theorem mono {K' : Set SyncState} (h : Coherent K) (hK : K' ⊆ K) : Coherent K' :=
  ⟨fun s hs => h.authored s (hK hs), fun s hs t ht => h.compatible s (hK hs) t (hK ht)⟩

/-- A new state that agrees with everything known may be added. -/
theorem insert (h : Coherent K) (hs : SelfAuthored s.devices) (hc : ∀ t ∈ K, Compatible s t) :
    Coherent (insert s K) where
  authored := by
    rintro t (rfl | ht)
    · exact hs
    · exact h.authored t ht
  compatible := by
    rintro t (rfl | ht) u (rfl | hu)
    · exact Compatible.refl _
    · exact hc u hu
    · exact (hc t ht).symm
    · exact h.compatible t ht u hu

theorem insert_merge (h : Coherent K) (hs : s ∈ K) (ht : t ∈ K) :
    Coherent (Insert.insert (s.merge t) K) :=
  h.insert ((h.authored s hs).merge (h.authored t ht)) fun u hu =>
    .merge_left (h.authored t ht) (h.compatible s hs u hu) (h.compatible t ht u hu)

theorem eq_of_le_of_le (h : Coherent K) (hs : s ∈ K) (ht : t ∈ K) (hst : s ≤ t) (hts : t ≤ s) :
    s = t :=
  (h.compatible s hs t ht).antisymm hst hts

theorem merge_self (h : Coherent K) (hs : s ∈ K) : s.merge s = s :=
  (h.insert_merge hs hs).eq_of_le_of_le (.inl rfl) (.inr hs)
    (merge_le (h.authored s hs) le_rfl le_rfl) (le_merge_left (h.authored s hs))

theorem merge_comm (h : Coherent K) (hs : s ∈ K) (ht : t ∈ K) : s.merge t = t.merge s := by
  have has := h.authored s hs
  have hat := h.authored t ht
  have hK : Coherent (Insert.insert (t.merge s) (Insert.insert (s.merge t) K)) :=
    (h.insert_merge hs ht).insert_merge (.inr ht) (.inr hs)
  exact hK.eq_of_le_of_le (.inr (.inl rfl)) (.inl rfl)
    (merge_le hat (le_merge_right has) (le_merge_left has))
    (merge_le has (le_merge_right hat) (le_merge_left hat))

theorem merge_assoc (h : Coherent K) (hs : s ∈ K) (ht : t ∈ K) (hu : u ∈ K) :
    (s.merge t).merge u = s.merge (t.merge u) := by
  have hat := h.authored t ht
  have hau := h.authored u hu
  have hatu : SelfAuthored (t.merge u).devices := hat.merge hau
  have hK₁ : Coherent (Insert.insert (t.merge u) (Insert.insert (s.merge t) K)) :=
    (h.insert_merge hs ht).insert_merge (.inr ht) (.inr hu)
  have hK₂ := hK₁.insert_merge (s := s.merge t) (t := u) (.inr (.inl rfl)) (.inr (.inr hu))
  have hK₃ := hK₂.insert_merge (s := s) (t := t.merge u) (.inr (.inr (.inr hs))) (.inr (.inl rfl))
  refine hK₃.eq_of_le_of_le (.inr (.inl rfl)) (.inl rfl) ?_ ?_
  · refine merge_le hau (merge_le hat (le_merge_left hatu) ?_) ?_
    · exact (le_merge_left hau).trans (le_merge_right hatu)
    · exact (le_merge_right hau).trans (le_merge_right hatu)
  · refine merge_le hatu ((le_merge_left hat).trans (le_merge_left hau)) (merge_le hau ?_ ?_)
    · exact (le_merge_right hat).trans (le_merge_left hau)
    · exact le_merge_right hau

end Coherent

/-! ### The highest counter -/

theorem maxOver_eq {R : Type} (clock : R → Lamport) (regs : Map R) (m : ℕ) :
    maxOver clock regs m = regs.toList.foldl (fun m e => max m (clock e.2).counter) m := by
  rw [maxOver, ExtTreeMap.foldl_eq_foldl_toList]

theorem le_maxOver {R : Type} (clock : R → Lamport) (regs : Map R) (m : ℕ) :
    m ≤ maxOver clock regs m := by
  rw [maxOver_eq]
  exact foldl_rel (· ≤ ·) le_refl le_trans _ (fun _ _ => le_max_left _ _) _ m

theorem counter_le_maxOver {R : Type} (clock : R → Lamport) (regs : Map R) (m : ℕ) {k : String}
    {r : R} (h : regs[k]? = some r) : (clock r).counter ≤ maxOver clock regs m := by
  have hmem : (k, r) ∈ regs.toList := ExtTreeMap.mem_toList_iff_getElem?_eq_some.mpr h
  obtain ⟨front, back, hsplit⟩ := List.append_of_mem hmem
  rw [maxOver_eq, hsplit, List.foldl_append, List.foldl_cons]
  exact (le_max_right _ _).trans
    (foldl_rel (· ≤ ·) le_refl le_trans _ (fun _ _ => le_max_left _ _) back _)

/-- No register of the state has a counter above the highest one. -/
theorem counter_le_maxCounter {s : SyncState} {l : Loc} {x : Cell} (h : s.cell l = some x) :
    x.clock.counter ≤ s.maxCounter := by
  have hself : maxOver DeviceReg.clock s.devices (maxOver RelayReg.clock s.relays
      (maxOver MarkReg.clock s.blocked (maxOver NameReg.clock s.names
        (maxOver MarkReg.clock s.trusted (maxOver MarkReg.clock s.verified
          (maxOver ContactReg.clock s.contacts 0)))))) ≤ s.maxCounter := by
    simp only [SyncState.maxCounter]
    split
    · exact le_max_left _ _
    · exact le_rfl
  cases l with
  | selfName =>
      obtain ⟨r, hr, rfl⟩ := Option.map_eq_some_iff.mp h
      simp only [SyncState.maxCounter, hr]
      exact le_max_right _ _
  | contact k =>
      obtain ⟨r, hr, rfl⟩ := Option.map_eq_some_iff.mp h
      refine le_trans ?_ hself
      iterate 6 refine le_trans ?_ (le_maxOver _ _ _)
      exact counter_le_maxOver ContactReg.clock _ _ hr
  | verified k =>
      obtain ⟨r, hr, rfl⟩ := Option.map_eq_some_iff.mp h
      refine le_trans ?_ hself
      iterate 5 refine le_trans ?_ (le_maxOver _ _ _)
      exact counter_le_maxOver MarkReg.clock _ _ hr
  | trusted k =>
      obtain ⟨r, hr, rfl⟩ := Option.map_eq_some_iff.mp h
      refine le_trans ?_ hself
      iterate 4 refine le_trans ?_ (le_maxOver _ _ _)
      exact counter_le_maxOver MarkReg.clock _ _ hr
  | name k =>
      obtain ⟨r, hr, rfl⟩ := Option.map_eq_some_iff.mp h
      refine le_trans ?_ hself
      iterate 3 refine le_trans ?_ (le_maxOver _ _ _)
      exact counter_le_maxOver NameReg.clock _ _ hr
  | blocked k =>
      obtain ⟨r, hr, rfl⟩ := Option.map_eq_some_iff.mp h
      refine le_trans ?_ hself
      iterate 2 refine le_trans ?_ (le_maxOver _ _ _)
      exact counter_le_maxOver MarkReg.clock _ _ hr
  | relay k =>
      obtain ⟨r, hr, rfl⟩ := Option.map_eq_some_iff.mp h
      refine le_trans ?_ hself
      refine le_trans ?_ (le_maxOver _ _ _)
      exact counter_le_maxOver RelayReg.clock _ _ hr
  | device k =>
      obtain ⟨r, hr, rfl⟩ := Option.map_eq_some_iff.mp h
      refine le_trans ?_ hself
      exact counter_le_maxOver DeviceReg.clock _ _ hr

theorem maxOver_le {R : Type} {clock : R → Lamport} {regs : Map R} {m n : ℕ} (hm : m ≤ n)
    (h : ∀ (k : String) r, regs[k]? = some r → (clock r).counter ≤ n) :
    maxOver clock regs m ≤ n := by
  rw [maxOver_eq]
  have hall : ∀ e ∈ regs.toList, (clock e.2).counter ≤ n := fun e he =>
    h e.1 e.2 (ExtTreeMap.mem_toList_iff_getElem?_eq_some.mp he)
  generalize regs.toList = es at hall
  induction es generalizing m with
  | nil => exact hm
  | cons e es ih =>
      exact ih (max_le hm (hall e List.mem_cons_self)) fun e' he' =>
        hall e' (List.mem_cons_of_mem _ he')

/-- The highest counter is one of a register's. -/
theorem maxCounter_le {s : SyncState} {n : ℕ}
    (h : ∀ l x, s.cell l = some x → x.clock.counter ≤ n) : s.maxCounter ≤ n := by
  have hmap {R : Type} {clock : R → Lamport} {regs : Map R} (loc : String → Loc) (wrap : R → Cell)
      (hcell : ∀ k, s.cell (loc k) = regs[k]?.map wrap) (hclock : ∀ r, (wrap r).clock = clock r)
      {m : ℕ} (hm : m ≤ n) : maxOver clock regs m ≤ n := by
    refine maxOver_le hm fun k r hr => ?_
    rw [← hclock]
    exact h (loc k) (wrap r) (by rw [hcell, hr, Option.map_some])
  have hmaps := hmap .device .device (fun _ => rfl) (fun _ => rfl) <|
    hmap .relay .relay (fun _ => rfl) (fun _ => rfl) <|
    hmap .blocked .mark (fun _ => rfl) (fun _ => rfl) <|
    hmap .name .name (fun _ => rfl) (fun _ => rfl) <|
    hmap .trusted .mark (fun _ => rfl) (fun _ => rfl) <|
    hmap .verified .mark (fun _ => rfl) (fun _ => rfl) <|
    hmap .contact .contact (fun _ => rfl) (fun _ => rfl) n.zero_le
  simp only [SyncState.maxCounter]
  cases hs : s.selfName with
  | none => exact hmaps
  | some r => exact max_le hmaps (h .selfName (.selfName r) (by simp [SyncState.cell, hs]))

end Arvolo.Sync
