import Arvolo.Lib.Machine
import Arvolo.Relay.Rendezvous

/-!
The lifetime and the size of a rendezvous slot, with the handlers run one at a time: a
request reads and writes before the next one reads.
-/

namespace Arvolo.Relay.Slot

open Lib

variable {blake3 : Bytes → Bytes} {s : Slot}

/-- A request from its first read to its answer; a listing changes nothing. -/
def serve (blake3 : Bytes → Bytes) (s : Slot) (r : RzRequest) : Slot :=
  match s.begin blake3 r with
  | some job => (s.finish job).1
  | none => s

def serial (blake3 : Bytes → Bytes) (s : Slot) : RzEvent → Slot
  | .request r => s.serve blake3 r
  | .turn _ => s
  | .reap => s.rzReap
  | .tick secs => { s with clock := s.clock.tick secs }

/-- Serving a request is taking its two steps without another in between. -/
theorem rows_serve (h : s.jobs = []) (r : RzRequest) :
    (s.serve blake3 r).rows = (s.run blake3 [.request r, .turn 0]).rows := by
  cases hbegin : s.begin blake3 r with
  | none => simp [serve, run, step, hbegin, h]
  | some job =>
      have hrun : s.run blake3 [.request r, .turn 0] =
          (({ s with jobs := [job] } : Slot).finish job).1.setJob 0
            (({ s with jobs := [job] } : Slot).finish job).2 := by
        simp [run, step, hbegin, h]
      rw [hrun, rows_setJob]
      cases job with
      | write key value exp poster =>
          simp only [serve, hbegin, finish, land, rzClaim]
          split_ifs <;> split <;> rfl
      | _ => simp [serve, hbegin, finish, rzDeleteSlot, rzDeleteKeys, rzTouchSlot] <;> rfl

/-- No row outlives the bound. -/
def Bounded (s : Slot) (bound : ℤ) : Prop :=
  ∀ key row, s.rows.lookup key = some row → row.expiresAt ≤ bound

/-- The job may give a row this expiry. -/
def Grants (s : Slot) (job : RzJob) (exp : ℕ) : Prop :=
  (∃ key value poster, job = .write key value exp poster ∧ s.rows.lookup key = none) ∨
    ∃ claim wait, job = .touch claim exp wait

theorem Bounded.finish {bound : ℤ} (h : s.Bounded bound) {job : RzJob}
    (hjob : ∀ exp, s.Grants job exp → asI64 exp ≤ bound) : (s.finish job).1.Bounded bound := by
  intro key row hrow
  cases job with
  | write key' value exp poster =>
      cases hkey : s.rows.lookup key' with
      | some old =>
          rw [Slot.finish, land_of_some hkey] at hrow
          exact h key row hrow
      | none =>
          rw [Slot.finish, lookup_land_of_none hkey] at hrow
          split_ifs at hrow
          · obtain rfl := Option.some.inj hrow
            exact hjob exp (.inl ⟨key', value, poster, rfl, hkey⟩)
          · exact h key row hrow
  | deleteSlot bearer => simp [Slot.finish] at hrow
  | deleteKeys keys =>
      simp only [Slot.finish, lookup_rzDeleteKeys, Option.ite_none_left_eq_some] at hrow
      exact h key row hrow.2
  | touch claim exp wait =>
      simp only [Slot.finish, lookup_rzTouchSlot, Option.map_eq_some_iff] at hrow
      obtain ⟨old, hold, rfl⟩ := hrow
      unfold touchRow
      split_ifs
      · exact hjob exp (.inr ⟨claim, wait, rfl⟩)
      · exact h key old hold
  | list claim deadline => exact h key row hrow

/-- A post lasts one lease at most, -/
theorem postExpiry_le_lease {key : Key} {body : Bytes} {bearer : Option Bytes} {exp : ℕ}
    (h : s.postExpiry blake3 key body bearer = .ok exp) : exp ≤ s.clock.secs + rzV2LeaseSecs := by
  have hlease := satAdd_le s.clock.secs rzV2LeaseSecs
  rcases postExpiry_eq_ok h with ⟨-, -, rfl⟩ | ⟨-, hash, created, -, rfl⟩ | ⟨-, -, rfl⟩
  · exact hlease
  · exact (Nat.min_le_left ..).trans hlease
  · have httl : rzTtl ≤ rzV2LeaseSecs := by decide
    exact (satAdd_le ..).trans (Nat.add_le_add_left httl _)

/-- and, where the slot is claimed, up to the ceiling of the claim. -/
theorem postExpiry_le_ceiling {key : Key} {body : Bytes} {bearer : Option Bytes} {exp created : ℕ}
    {hash : Bytes} (hkey : key ≠ rzOwnKey) (hown : s.rzOwnRow = some (hash, created))
    (h : s.postExpiry blake3 key body bearer = .ok exp) : exp ≤ created + rzMaxSlotLifetime := by
  rcases postExpiry_eq_ok h with ⟨rfl, -, -⟩ | ⟨-, hash', created', hown', rfl⟩ | ⟨-, hnone, -⟩
  · exact absurd rfl hkey
  · obtain ⟨-, rfl⟩ := Prod.mk.inj (Option.some.inj (hown.symm.trans hown'))
    exact (Nat.min_le_right ..).trans (satAdd_le ..)
  · cases hnone.symm.trans hown

/-- The creation stamp of an `own` row. -/
def stamp (row : RzRow) : ℕ := ofLeBytes (row.value.drop 32)

/-- Every row is due within a lease; while the slot is claimed, every row is due by the
ceiling of its claim; and no more rows are live than the limit. -/
structure Leased (s : Slot) : Prop where
  formed (own : RzRow) : s.rows.lookup rzOwnKey = some own → own.value.length = rzOwnRowLen
  lease : s.Bounded (s.clock.secs + rzV2LeaseSecs)
  ceiling (own : RzRow) : s.liveRow rzOwnKey = some own →
    s.Bounded (stamp own + rzMaxSlotLifetime)
  size : s.rzSlotRowCount ≤ maxRzKeysPerSlot

/-- What a request grants lasts one lease at most, -/
theorem Begun.le_lease {r : RzRequest} {job : RzJob} (h : Begun blake3 s r job) {exp : ℕ}
    (hexp : s.Grants job exp) : asI64 exp ≤ s.clock.secs + rzV2LeaseSecs := by
  refine (asI64_le exp).trans ?_
  norm_cast
  rcases hexp with ⟨key, value, poster, rfl, -⟩ | ⟨claim, wait, rfl⟩
  · cases h with
    | post hroom hexp => exact postExpiry_le_lease hexp
  · cases h with
    | sessions howner => exact (Nat.min_le_left ..).trans (satAdd_le ..)

/-- and, while the slot is claimed, up to the ceiling. -/
theorem Begun.le_ceiling {r : RzRequest} {job : RzJob} (h : Begun blake3 s r job) {exp : ℕ}
    (hexp : s.Grants job exp) {own : RzRow} (hlive : s.liveRow rzOwnKey = some own)
    (hown : s.rzOwnRow = some (own.value.take 32, stamp own)) :
    asI64 exp ≤ stamp own + rzMaxSlotLifetime := by
  refine (asI64_le exp).trans ?_
  norm_cast
  rcases hexp with ⟨key, value, poster, rfl, hnone⟩ | ⟨claim, wait, rfl⟩
  · have hne : key ≠ rzOwnKey := by
      rintro rfl
      cases hnone.symm.trans (liveRow_eq_some.1 hlive).1
    cases h with
    | post hroom hexp => exact postExpiry_le_ceiling hne hown hexp
  · cases h with
    | sessions howner =>
        obtain ⟨token, -, hown'⟩ := rzOwner_eq_ok howner
        obtain ⟨-, rfl⟩ := Prod.mk.inj (Option.some.inj (hown.symm.trans hown'))
        exact (Nat.min_le_right ..).trans (satAdd_le ..)

theorem live_finish (job : RzJob) : (s.finish job).1.live = s.live := by
  funext row
  rw [live, live, clock_finish]

theorem entries_foldl_erase_sublist (keys : List Key) (t : Table Key RzRow) :
    (keys.foldl (fun t key => t.erase key) t).entries.Sublist t.entries := by
  induction keys generalizing t with
  | nil => exact List.Sublist.refl _
  | cons key keys ih => exact (ih _).trans (List.kerase_sublist key t.entries)

theorem length_filter_touch (exp : ℤ) :
    (s.rzTouchSlot exp).rzSlotRowCount = s.rzSlotRowCount := by
  simp only [rzSlotRowCount, rzTouchSlot, Table.mapValues, List.filter_map, List.length_map]
  congr 2
  funext r
  exact live_touchRow exp r.2

theorem rzSlotRowCount_rzDeleteKeys_le (keys : List Key) :
    (s.rzDeleteKeys keys).rzSlotRowCount ≤ s.rzSlotRowCount :=
  ((entries_foldl_erase_sublist keys s.rows).filter _).length_le

/-- Only a write adds a row, and it adds one. -/
theorem rzSlotRowCount_finish (job : RzJob) :
    (s.finish job).1.rzSlotRowCount ≤ s.rzSlotRowCount ∨
      (∃ key value exp poster, job = .write key value exp poster) ∧
        (s.finish job).1.rzSlotRowCount ≤ s.rzSlotRowCount + 1 := by
  cases job with
  | write key value exp poster =>
      refine .inr ⟨⟨key, value, exp, poster, rfl⟩, ?_⟩
      cases hkey : s.rows.lookup key with
      | some old =>
          rw [Slot.finish, land_of_some hkey]
          exact Nat.le_succ _
      | none =>
          have hlive := live_finish (s := s) (.write key value exp poster)
          have hrows : (s.finish (.write key value exp poster)).1.rows =
              s.rows.insert key (s.landed key value exp poster) := by
            by_cases hown : key = rzOwnKey
            · subst hown
              simp [Slot.finish, land, landed, rzClaim, hkey]
            · simp [Slot.finish, land, landed, rzClaim, hkey, hown]
          rw [rzSlotRowCount, rzSlotRowCount, hlive, hrows, AList.entries_insert]
          have hsub := ((List.kerase_sublist key s.rows.entries).filter
            fun r => s.live r.2).length_le
          rw [List.filter_cons]
          split_ifs
          · simpa using hsub
          · exact hsub.trans (Nat.le_succ _)
  | deleteSlot bearer => exact .inl (Nat.zero_le _)
  | deleteKeys keys => exact .inl (rzSlotRowCount_rzDeleteKeys_le keys)
  | touch claim exp wait => exact .inl (length_filter_touch _).le
  | list claim deadline => exact .inl le_rfl

/-- A claim is stamped with the moment it is made. -/
theorem stamp_landed {body : Bytes} (hlen : body.length = 32) (exp : ℕ) (poster : Poster) :
    stamp (s.landed rzOwnKey (s.rowValue rzOwnKey body) exp poster) = s.clock.secs := by
  have hword : s.clock.secs < 256 ^ 8 := s.clock.lt.trans (by norm_num)
  have hdrop : (body ++ leBytes 8 s.clock.secs).drop 32 = leBytes 8 s.clock.secs := by
    rw [← hlen, List.drop_left]
  simp only [stamp, landed, rowValue, if_true, hdrop]
  exact ofLeBytes_leBytes hword

theorem Leased.rzOwnRow_eq (h : s.Leased) {own : RzRow} (hown : s.liveRow rzOwnKey = some own) :
    s.rzOwnRow = some (own.value.take 32, stamp own) := by
  have hlen := h.formed own (liveRow_eq_some.1 hown).1
  simp [rzOwnRow, rzGet, hown, hlen, stamp]

theorem Leased.serve (h : s.Leased) (r : RzRequest) : (s.serve blake3 r).Leased := by
  unfold Slot.serve
  split
  · next job hbegin =>
    have hbegun := begun_of_begin hbegin
    have hlease : (s.finish job).1.Bounded (s.clock.secs + rzV2LeaseSecs) :=
      h.lease.finish fun exp hexp => hbegun.le_lease hexp
    refine ⟨fun own hown => ?_, ?_, fun own hown => ?_, ?_⟩
    · rcases lookup_finish hown with ⟨old, hold, ⟨exp, rfl⟩, -⟩ | ⟨value, exp, poster, rfl, -, rfl⟩
      · exact h.formed old hold
      · cases hbegun with
        | post hroom hexp =>
            rcases postExpiry_eq_ok hexp with ⟨-, hlen, -⟩ | ⟨hne, -⟩ | ⟨hne, -⟩
            · simp [landed, rowValue, hlen, rzOwnRowLen]
            · exact absurd rfl hne
            · exact absurd rfl hne
    · rw [clock_finish]
      exact hlease
    · obtain ⟨hlookup, hlive⟩ := liveRow_eq_some.1 hown
      rcases lookup_finish hlookup with ⟨old, hold, ⟨exp, rfl⟩, hlive'⟩ | ⟨value, exp, poster, rfl, -, rfl⟩
      · have hold' : s.liveRow rzOwnKey = some old :=
          liveRow_eq_some.2 ⟨hold, hlive' (live_finish job ▸ hlive)⟩
        exact (h.ceiling old hold').finish fun exp hexp =>
          hbegun.le_ceiling hexp hold' (h.rzOwnRow_eq hold')
      · cases hbegun with
        | post hroom hexp =>
            rcases postExpiry_eq_ok hexp with ⟨-, hlen, -⟩ | ⟨hne, -⟩ | ⟨hne, -⟩
            · intro key row hrow
              rw [stamp_landed hlen]
              refine (hlease key row hrow).trans ?_
              have hmax : rzV2LeaseSecs ≤ rzMaxSlotLifetime := by decide
              omega
            · exact absurd rfl hne
            · exact absurd rfl hne
    · have hmax := h.size
      rcases rzSlotRowCount_finish (s := s) job with hle | ⟨⟨key, value, exp, poster, rfl⟩, hle⟩
      · exact hle.trans hmax
      · cases hbegun with
        | post hroom hexp => omega
  · exact h

theorem Leased.reap (h : s.Leased) : s.rzReap.Leased where
  formed own hown := h.formed own (liveRow_eq_some.1 (lookup_rzReap ▸ hown)).1
  lease key row hrow := h.lease key row (liveRow_eq_some.1 (lookup_rzReap ▸ hrow)).1
  ceiling own hown key row hrow :=
    h.ceiling own (liveRow_rzReap ▸ hown) key row (liveRow_eq_some.1 (lookup_rzReap ▸ hrow)).1
  size := (rzSlotRowCount_rzDeleteKeys_le _).trans h.size

theorem Leased.tick (h : s.Leased) (secs : ℕ) :
    ({ s with clock := s.clock.tick secs } : Slot).Leased where
  formed := h.formed
  lease key row hrow := by
    have hclock := s.clock.secs_le_tick secs
    have := h.lease key row hrow
    simp only at this ⊢
    omega
  ceiling own hown := h.ceiling own (liveRow_of_tick hown)
  size := by
    refine le_trans ?_ h.size
    refine (List.monotone_filter_right _ fun r hr => ?_).length_le
    simp only [live, decide_eq_true_eq] at hr ⊢
    exact (s.clock.i64_le_tick secs).trans_lt hr

theorem leased_empty (clock : Clock) : (empty clock).Leased where
  formed own h := by cases (AList.lookup_empty rzOwnKey).symm.trans h
  lease key row h := by cases (AList.lookup_empty key).symm.trans h
  ceiling own h := by
    cases (AList.lookup_empty rzOwnKey).symm.trans (liveRow_eq_some.1 h).1
  size := Nat.zero_le _

theorem Leased.serial (h : s.Leased) (e : RzEvent) : (s.serial blake3 e).Leased := by
  cases e with
  | request r => exact h.serve r
  | turn i => exact h
  | reap => exact h.reap
  | tick secs => exact h.tick secs

/-- With the handlers run one at a time: no row of a claimed slot has an expiry past the
ceiling of its claim, and a slot never holds more live rows than the limit. -/
theorem leased_of_serial (blake3 : Bytes → Bytes) (clock : Clock) (es : List RzEvent) :
    let s := es.foldl (serial blake3) (empty clock)
    (∀ own, s.liveRow rzOwnKey = some own → ∀ key row, s.rows.lookup key = some row →
      row.expiresAt ≤ stamp own + rzMaxSlotLifetime) ∧
    s.rzSlotRowCount ≤ maxRzKeysPerSlot := by
  intro s
  have hleased : s.Leased :=
    foldl_inv Leased (fun _ e h => h.serial e) (leased_empty clock) es
  exact ⟨hleased.ceiling, hleased.size⟩

end Arvolo.Relay.Slot
