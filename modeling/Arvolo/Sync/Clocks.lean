import Arvolo.Sync.Fleet

/-!
Which clocks a device mints, and when.

`Extends` says that a local write only leaves fresh registers behind. Here the
account is made exact: while a device's counter goes from `n` to `n'`, each of
the counters in between is put on one register, at a position of its own. Along
a run no clock is therefore ever minted twice, and each is above everything the
device held before.

A restart does not appear among the events. Every operation starts by loading
the sidecar and ends by saving it, so that nothing is carried in memory from one
to the next.
-/

namespace Arvolo.Sync

open Lib
open Std (ExtTreeMap)

/-! ### Stamping positions -/

section Stamps

variable {P V : Type} {clock : V → Lamport} {d : DeviceId}

/-- No counter above `n`. -/
def Below (clock : V → Lamport) (n : ℕ) (m : P → Option V) : Prop :=
  ∀ p v, m p = some v → (clock v).counter ≤ n

/-- From `m` at counter `n` to `m'` at counter `n'`, writing only in `S`: every
counter passed over is on one register, and no two registers share one. -/
structure Stamps (clock : V → Lamport) (d : DeviceId) (S : Set P) (m : P → Option V) (n : ℕ)
    (m' : P → Option V) (n' : ℕ) : Prop where
  le : n ≤ n'
  frame : ∀ p, p ∉ S → m' p = m p
  fresh : ∀ p, m' p = m p ∨ ∃ v, m' p = some v ∧ Fresh d n n' (clock v)
  each : ∀ k, n < k → k ≤ n' → ∃ p ∈ S, ∃ v, m' p = some v ∧ clock v = ⟨k, d⟩
  inj : Below clock n m → ∀ p q v w, m' p = some v → m' q = some w →
    n < (clock v).counter → clock v = clock w → p = q

namespace Stamps

variable {S T : Set P} {m m' m'' : P → Option V} {n n' n'' : ℕ}

theorem refl (S : Set P) (m : P → Option V) (n : ℕ) : Stamps clock d S m n m n where
  le := le_rfl
  frame _ _ := rfl
  fresh _ := .inl rfl
  each _ hk hk' := absurd hk' (not_le.mpr hk)
  inj hb p _ v _ hp _ hv _ := absurd (hb p v hp) (not_le.mpr hv)

theorem below (h : Stamps clock d S m n m' n') (hb : Below clock n m) : Below clock n' m' := by
  intro p v hp
  rcases h.fresh p with he | ⟨w, hw, hf⟩
  · exact (hb p v (he ▸ hp)).trans h.le
  · obtain rfl : v = w := Option.some.inj (hp.symm.trans hw)
    exact hf.below

/-- A register with an old counter was there before. -/
theorem old (h : Stamps clock d S m n m' n') {p : P} {v : V} (hp : m' p = some v)
    (hv : (clock v).counter ≤ n) : m p = some v := by
  rcases h.fresh p with he | ⟨w, hw, hf⟩
  · exact he ▸ hp
  · obtain rfl : v = w := Option.some.inj (hp.symm.trans hw)
    exact absurd hf.above (not_lt.mpr hv)

theorem trans (h : Stamps clock d S m n m' n') (h' : Stamps clock d T m' n' m'' n'')
    (hd : Disjoint S T) : Stamps clock d (S ∪ T) m n m'' n'' where
  le := h.le.trans h'.le
  frame p hp := by
    rw [h'.frame p fun ht => hp (.inr ht), h.frame p fun hs => hp (.inl hs)]
  fresh p := by
    rcases h'.fresh p with he' | ⟨v, hv, hf⟩
    · rcases h.fresh p with he | ⟨v, hv, hf⟩
      · exact .inl (he'.trans he)
      · exact .inr ⟨v, he'.trans hv, hf.mono le_rfl h'.le⟩
    · exact .inr ⟨v, hv, hf.mono h.le le_rfl⟩
  each k hk hk' := by
    by_cases hmid : k ≤ n'
    · obtain ⟨p, hp, v, hv, hc⟩ := h.each k hk hmid
      have hT : p ∉ T := Set.disjoint_left.mp hd hp
      exact ⟨p, .inl hp, v, (h'.frame p hT).trans hv, hc⟩
    · obtain ⟨p, hp, v, hv, hc⟩ := h'.each k (not_le.mp hmid) hk'
      exact ⟨p, .inr hp, v, hv, hc⟩
  inj hb p q v w hp hq hv hc := by
    by_cases hmid : (clock v).counter ≤ n'
    · -- both registers were already there half way
      have hmid' : (clock w).counter ≤ n' := hc ▸ hmid
      exact h.inj hb p q v w (h'.old hp hmid) (h'.old hq hmid') hv hc
    · exact h'.inj (h.below hb) p q v w hp hq (not_le.mp hmid) hc

theorem mono (h : Stamps clock d S m n m' n') (hS : S ⊆ T) : Stamps clock d T m n m' n' :=
  { h with
    frame := fun p hp => h.frame p fun hs => hp (hS hs)
    each := fun k hk hk' =>
      let ⟨p, hp, hv⟩ := h.each k hk hk'
      ⟨p, hS hp, hv⟩ }

/-- One register written under the next counter. -/
theorem write {p : P} {v : V} (hc : clock v = ⟨n + 1, d⟩) (hp : m' p = some v)
    (hframe : ∀ q, q ≠ p → m' q = m q) : Stamps clock d {p} m n m' (n + 1) where
  le := Nat.le_succ n
  frame q hq := hframe q hq
  fresh q := by
    by_cases hq : q = p
    · subst hq
      refine .inr ⟨v, hp, ?_⟩
      rw [hc]
      exact ⟨rfl, Nat.lt_succ_self n, le_rfl⟩
    · exact .inl (hframe q hq)
  each k hk hk' := by
    obtain rfl : k = n + 1 := by omega
    exact ⟨p, rfl, v, hp, hc⟩
  inj hb q r x y hq hr hx hxy := by
    have here (q : P) (x : V) (hq : m' q = some x) (hx : n < (clock x).counter) : q = p := by
      by_contra hne
      rw [hframe q hne] at hq
      exact absurd (hb q x hq) (not_le.mpr hx)
    rw [here q x hq hx, here r y hr (hxy ▸ hx)]

end Stamps

end Stamps

/-! ### One map of registers -/

section MapStamps

variable {V R : Type} {clock : R → Lamport} {d : DeviceId}

/-- `Stamps` between two states of a loop over one map. -/
abbrev MapStamps (clock : R → Lamport) (d : DeviceId) (K : Set String) (a b : Map R × ℕ) : Prop :=
  Stamps clock d K (fun k => a.1[k]?) a.2 (fun k => b.1[k]?) b.2

theorem mapStamps_mint (a : Map R × ℕ) (k : String) (reg : Lamport → R)
    (hreg : ∀ c, clock (reg c) = c) : MapStamps clock d {k} a (mint d a k reg) := by
  refine .write (v := reg ⟨a.2 + 1, d⟩) (hreg _) (by simp [mint]) ?_
  intro j hj
  have hne : compare k j ≠ .eq := fun he => hj (Std.LawfulEqCmp.eq_of_compare he).symm
  simp [mint, ExtTreeMap.getElem?_insert, hne]

/-- A loop whose turns write at different keys. -/
theorem mapStamps_foldl {ε : Type} (f : Map R × ℕ → ε → Map R × ℕ) (key : ε → String)
    (here : ε → Prop) (hstep : ∀ a e, MapStamps clock d { k | k = key e ∧ here e } a (f a e))
    (es : List ε) (hes : es.Pairwise fun e e' => key e ≠ key e') (a : Map R × ℕ) :
    MapStamps clock d { k | ∃ e ∈ es, k = key e ∧ here e } a (es.foldl f a) := by
  induction es generalizing a with
  | nil => exact .refl _ _ _
  | cons e es ih =>
      obtain ⟨hne, hes'⟩ := List.pairwise_cons.mp hes
      refine ((hstep a e).trans (ih hes' (f a e)) ?_).mono ?_
      · rw [Set.disjoint_left]
        rintro k ⟨rfl, -⟩ ⟨e', he', hk, -⟩
        exact hne e' he' hk
      · rintro k (hk | ⟨e', he', hk⟩)
        · exact ⟨e, List.mem_cons_self, hk⟩
        · exact ⟨e', List.mem_cons_of_mem _ he', hk⟩

theorem mapStamps_addRow {rule : LedgerRule V R} (hr : rule.Stamps clock) (acc : Map R × ℕ)
    (k : String) (v : V) :
    MapStamps clock d { j | j = k ∧ rule.present v = true } acc (addRow rule d acc k v) := by
  unfold addRow
  split
  next h =>
    have hv : rule.present v = true := (Bool.and_eq_true_iff.mp h).1
    refine (mapStamps_mint acc k _ (hr.live v)).mono ?_
    rintro j rfl
    exact ⟨rfl, hv⟩
  · exact .refl _ _ _

/-- The first loop of a reconciliation: one turn for each row of the ledger. -/
theorem mapStamps_foldl_addRow {rule : LedgerRule V R} (hr : rule.Stamps clock)
    (es : List (String × V)) (hes : es.Pairwise fun e e' => e.1 ≠ e'.1) (acc : Map R × ℕ) :
    MapStamps clock d { k | ∃ e ∈ es, k = e.1 ∧ rule.present e.2 = true } acc
      (es.foldl (fun acc e => addRow rule d acc e.1 e.2) acc) :=
  mapStamps_foldl _ (fun e : String × V => e.1) (fun e => rule.present e.2 = true)
    (fun a e => mapStamps_addRow hr a e.1 e.2) es hes acc

/-- The second loop: one tombstone for each row that is gone. -/
theorem mapStamps_foldl_tomb {rule : LedgerRule V R} (hr : rule.Stamps clock)
    (es : List (String × R)) (hes : es.Pairwise fun e e' => e.1 ≠ e'.1) (acc : Map R × ℕ) :
    MapStamps clock d { k | k ∈ es.map Prod.fst } acc
      (es.foldl (fun acc e => mint d acc e.1 (rule.tomb e.2)) acc) := by
  refine (mapStamps_foldl _ (fun e : String × R => e.1) (fun _ => True)
    (fun a e => (mapStamps_mint a e.1 _ (hr.tomb e.2)).mono fun _ h => ⟨h, trivial⟩)
    es hes acc).mono ?_
  rintro k ⟨e, he, rfl, -⟩
  exact List.mem_map_of_mem he

/-- The two loops of a reconciliation write at different keys: a row that is
there is never tombstoned. -/
theorem mapStamps_reconcile {rule : LedgerRule V R} (hr : rule.Stamps clock) (ledger : Map V)
    (acc : Map R × ℕ) : MapStamps clock d Set.univ acc (reconcile rule d ledger acc) := by
  unfold reconcile
  have hadd : MapStamps clock d { k | ∃ e ∈ ledger.toList, k = e.1 ∧ rule.present e.2 = true } acc
      (ledger.foldl (addRow rule d) acc) := by
    rw [ExtTreeMap.foldl_eq_foldl_toList]
    exact mapStamps_foldl_addRow hr _ (pairwise_ne_toList ledger) acc
  generalize ledger.foldl (addRow rule d) acc = added at hadd
  have hstale := mapStamps_foldl_tomb (d := d) hr (staleRows rule ledger added.1)
    ((pairwise_ne_toList added.1).filter _) added
  refine (hadd.trans hstale ?_).mono (Set.subset_univ _)
  rw [Set.disjoint_left]
  rintro k ⟨e, he, rfl, hv⟩ hmem
  obtain ⟨e', he', hk⟩ := List.mem_map.mp hmem
  have hrow : ledger[e.1]? = some e.2 := ExtTreeMap.mem_toList_iff_getElem?_eq_some.mp he
  have hgone := (List.mem_filter.mp he').2
  rw [hk, hrow] at hgone
  simp [hv] at hgone

end MapStamps

/-! ### The sidecar -/

/-- `Stamps` between two sidecars. -/
abbrev SideStamps (d : DeviceId) (S : Set Loc) (c c' : Sidecar) : Prop :=
  Stamps Cell.clock d S c.state.cell c.lamport c'.state.cell c'.lamport

section Stages

variable {d : DeviceId} {c : Sidecar}

/-- A write to one map of registers, the rest of the state untouched. -/
theorem SideStamps.of_map {R : Type} {clock : R → Lamport} {K : Set String} (wrap : R → Cell)
    (loc : String → Loc) {m : Map R} {s' : SyncState} {out : Map R × ℕ}
    (hm : MapStamps clock d K (m, c.lamport) out)
    (hclock : ∀ r, (wrap r).clock = clock r)
    (hold : ∀ k, c.state.cell (loc k) = m[k]?.map wrap)
    (hnew : ∀ k, s'.cell (loc k) = out.1[k]?.map wrap)
    (hframe : ∀ l, (∀ k, l ≠ loc k) → s'.cell l = c.state.cell l) :
    SideStamps d (loc '' K) c ⟨s', out.2⟩ where
  le := hm.le
  frame l hl := by
    by_cases h : ∃ k, l = loc k
    · obtain ⟨k, rfl⟩ := h
      have hk : k ∉ K := fun hk => hl ⟨k, hk, rfl⟩
      change s'.cell (loc k) = c.state.cell (loc k)
      rw [hnew, hold, hm.frame k hk]
    · exact hframe l fun k hk => h ⟨k, hk⟩
  fresh l := by
    by_cases h : ∃ k, l = loc k
    · obtain ⟨k, rfl⟩ := h
      rcases hm.fresh k with hk | ⟨r, hr, hf⟩
      · left
        change s'.cell (loc k) = c.state.cell (loc k)
        rw [hnew, hold, hk]
      · refine .inr ⟨wrap r, ?_, ?_⟩
        · exact (hnew k).trans (by rw [hr]; rfl)
        · rw [hclock]
          exact hf
    · exact .inl (hframe l fun k hk => h ⟨k, hk⟩)
  each n hn hn' := by
    obtain ⟨k, hk, r, hr, hc⟩ := hm.each n hn hn'
    refine ⟨loc k, ⟨k, hk, rfl⟩, wrap r, ?_, ?_⟩
    · exact (hnew k).trans (by rw [hr]; rfl)
    · rw [hclock]
      exact hc
  inj hb p q x y hp hq hx hxy := by
    have hbm : Below clock c.lamport (fun k : String => m[k]?) := by
      intro k r hr
      rw [← hclock]
      exact hb (loc k) (wrap r) (by rw [hold]; simp_all)
    -- a register with a new counter is one of this map
    have here (l : Loc) (z : Cell) (hl : s'.cell l = some z) (hz : c.lamport < z.clock.counter) :
        ∃ k r, l = loc k ∧ z = wrap r ∧ out.1[k]? = some r := by
      by_cases h : ∃ k, l = loc k
      · obtain ⟨k, rfl⟩ := h
        rw [hnew, Option.map_eq_some_iff] at hl
        obtain ⟨r, hr, rfl⟩ := hl
        exact ⟨k, r, rfl, rfl, hr⟩
      · rw [hframe l fun k hk => h ⟨k, hk⟩] at hl
        exact absurd (hb l z hl) (not_le.mpr hz)
    obtain ⟨k, r, rfl, rfl, hr⟩ := here p x hp hx
    obtain ⟨k', r', rfl, rfl, hr'⟩ := here q y hq (hxy ▸ hx)
    rw [hclock] at hx
    rw [hclock, hclock] at hxy
    rw [hm.inj hbm k k' r r' hr hr' hx hxy]

/-- The stage of `buildLocalSnapshot` that writes at a position. -/
def Loc.stage : Loc → ℕ
  | .contact _ => 0
  | .verified _ => 1
  | .trusted _ => 2
  | .blocked _ => 3
  | .name _ => 4
  | .relay _ => 5
  | .device _ => 6
  | .selfName => 7

/-- What the stages before `i` did, followed by stage `i`. -/
theorem SideStamps.next {i : ℕ} {c' c'' : Sidecar}
    (h : SideStamps d { l | l.stage < i } c c') (h' : SideStamps d { l | l.stage = i } c' c'') :
    SideStamps d { l | l.stage < i + 1 } c c'' := by
  refine (h.trans h' ?_).mono ?_
  · rw [Set.disjoint_left]
    intro l hl hl'
    exact absurd hl' (ne_of_lt hl)
  · rintro l (hl | hl)
    · exact Nat.lt_succ_of_lt hl
    · exact Nat.lt_succ_of_le (le_of_eq hl)

variable (d) (c)

theorem stamps_foldContacts (contacts : Map String) :
    SideStamps d { l | l.stage = 0 } c (foldContacts d contacts c) := by
  refine (SideStamps.of_map .contact .contact
    (mapStamps_reconcile contactRule_stamps contacts _) (fun _ => rfl) (fun _ => rfl)
    (fun _ => rfl) fun l hl => by cases l <;> first | rfl | exact absurd rfl (hl _)).mono ?_
  rintro _ ⟨k, -, rfl⟩
  rfl

theorem stamps_foldVerified (marks : Map ℕ) :
    SideStamps d { l | l.stage = 1 } c (foldVerified d marks c) := by
  refine (SideStamps.of_map .mark .verified
    (mapStamps_reconcile markRule_stamps marks _) (fun _ => rfl) (fun _ => rfl)
    (fun _ => rfl) fun l hl => by cases l <;> first | rfl | exact absurd rfl (hl _)).mono ?_
  rintro _ ⟨k, -, rfl⟩
  rfl

theorem stamps_foldTrusted (marks : Map ℕ) :
    SideStamps d { l | l.stage = 2 } c (foldTrusted d marks c) := by
  refine (SideStamps.of_map .mark .trusted
    (mapStamps_reconcile markRule_stamps marks _) (fun _ => rfl) (fun _ => rfl)
    (fun _ => rfl) fun l hl => by cases l <;> first | rfl | exact absurd rfl (hl _)).mono ?_
  rintro _ ⟨k, -, rfl⟩
  rfl

theorem stamps_foldBlocked (marks : Map ℕ) :
    SideStamps d { l | l.stage = 3 } c (foldBlocked d marks c) := by
  refine (SideStamps.of_map .mark .blocked
    (mapStamps_reconcile markRule_stamps marks _) (fun _ => rfl) (fun _ => rfl)
    (fun _ => rfl) fun l hl => by cases l <;> first | rfl | exact absurd rfl (hl _)).mono ?_
  rintro _ ⟨k, -, rfl⟩
  rfl

theorem stamps_foldNames (names : Map NameRow) :
    SideStamps d { l | l.stage = 4 } c (foldNames d names c) := by
  refine (SideStamps.of_map .name .name
    (mapStamps_reconcile nameRule_stamps names _) (fun _ => rfl) (fun _ => rfl)
    (fun _ => rfl) fun l hl => by cases l <;> first | rfl | exact absurd rfl (hl _)).mono ?_
  rintro _ ⟨k, -, rfl⟩
  rfl

theorem stamps_foldRelays (relays : Map String) :
    SideStamps d { l | l.stage = 5 } c (foldRelays d relays c) := by
  refine (SideStamps.of_map .relay .relay
    (mapStamps_reconcile relayRule_stamps relays _) (fun _ => rfl) (fun _ => rfl)
    (fun _ => rfl) fun l hl => by cases l <;> first | rfl | exact absurd rfl (hl _)).mono ?_
  rintro _ ⟨k, -, rfl⟩
  rfl

/-- The seen counters carry no clocks. -/
theorem cell_foldSeen (seen last : Map ℕ) :
    (foldSeen seen last c).state.cell = c.state.cell := by
  funext l
  cases l <;> rfl

variable {d c} in
theorem SideStamps.foldSeen {S : Set Loc} {c' : Sidecar} (h : SideStamps d S c c')
    (seen last : Map ℕ) : SideStamps d S c (Sync.foldSeen seen last c') := by
  rw [SideStamps, cell_foldSeen]
  exact h

theorem stamps_foldLedgers (ledgers : Ledgers) :
    SideStamps d { l | l.stage < 6 } c (foldLedgers d ledgers c) := by
  have h₀ : SideStamps d { l | l.stage < 0 } c c := .refl _ _ _
  have h₁ := h₀.next (stamps_foldContacts d c ledgers.contacts)
  have h₂ := h₁.next (stamps_foldVerified d _ ledgers.verified)
  have h₃ := h₂.next (stamps_foldTrusted d _ ledgers.trusted)
  have h₄ := h₃.next (stamps_foldBlocked d _ ledgers.blocked)
  have h₅ := (h₄.foldSeen ledgers.seen ledgers.last).next (stamps_foldNames d _ ledgers.names)
  exact h₅.next (stamps_foldRelays d _ ledgers.relays)

theorem stamps_mintDevice (key : String) (reg : Lamport → DeviceReg)
    (hclock : ∀ k, (reg k).clock = k) : SideStamps d { l | l.stage = 6 } c
      ⟨{ c.state with devices := (mint d (c.state.devices, c.lamport) key reg).1 },
        (mint d (c.state.devices, c.lamport) key reg).2⟩ := by
  refine (SideStamps.of_map .device .device
    (mapStamps_mint (c.state.devices, c.lamport) key reg hclock) (fun _ => rfl) (fun _ => rfl)
    (fun _ => rfl) fun l hl => by cases l <;> first | rfl | exact absurd rfl (hl _)).mono ?_
  rintro _ ⟨k, -, rfl⟩
  rfl

theorem stamps_registerThisDevice (env : Env) (ledger : Map DeviceRow) :
    SideStamps d { l | l.stage = 6 } c (registerThisDevice env d c ledger).1 := by
  simp only [registerThisDevice]
  split
  · exact .refl _ _ _
  · split
    · exact .refl _ _ _
    · exact stamps_mintDevice d c _ _ fun _ => rfl

theorem stamps_mintSelfName (name : String) :
    SideStamps d { l | l.stage = 7 } c (mintSelfName d c name) := by
  have h : SideStamps d {Loc.selfName} c (mintSelfName d c name) := by
    refine .write (v := .selfName ⟨name, ⟨c.lamport + 1, d⟩⟩) rfl rfl ?_
    intro l hl
    cases l <;> first | rfl | exact absurd rfl hl
  refine h.mono ?_
  rintro _ rfl
  rfl

theorem stamps_registerMyName (ledgers : Ledgers) :
    SideStamps d { l | l.stage = 7 } c (registerMyName d c ledgers).1 := by
  simp only [registerMyName]
  split
  · split
    · exact .refl _ _ _
    · exact stamps_mintSelfName d c _
  · split
    · exact stamps_mintSelfName d c _
    · split
      · exact .refl _ _ _
      · exact stamps_mintSelfName d c _

end Stages

/-! ### The operations on a device -/

theorem stamps_buildLocalSnapshot (env : Env) (d : DeviceId) (dev : Device) :
    SideStamps d Set.univ dev.loadMeta (dev.buildLocalSnapshot env d).1.loadMeta := by
  simp only [Device.buildLocalSnapshot, Device.loadMeta_saveMeta]
  have h₆ := (stamps_foldLedgers d dev.loadMeta dev.ledgers).next
    (stamps_registerThisDevice d _ env dev.ledgers.devices)
  exact (h₆.next (stamps_registerMyName d _ _)).mono (Set.subset_univ _)

theorem stamps_stampMyName (d : DeviceId) (dev : Device) (name : String) :
    SideStamps d Set.univ dev.loadMeta (stampMyName d dev name).loadMeta := by
  unfold stampMyName
  by_cases h : dev.loadMeta.state.selfName.any fun r => r.name == name
  · rw [if_pos h]
    exact .refl _ _ _
  · rw [if_neg h, Device.loadMeta_saveMeta]
    exact (stamps_mintSelfName d dev.loadMeta name).mono (Set.subset_univ _)

theorem stamps_setMyDisplayName (d : DeviceId) (dev : Device) (name : String) :
    SideStamps d Set.univ dev.loadMeta (dev.setMyDisplayName d name).loadMeta := by
  have h := stamps_stampMyName d
    { dev with ledgers := { dev.ledgers with me := sanitizeDisplay (trim name) } }
    (sanitizeDisplay (trim name))
  rwa [Device.loadMeta_ledgers] at h

theorem stamps_forgetDevice (d : DeviceId) (dev : Device) (id : DeviceId) :
    SideStamps d Set.univ dev.loadMeta (dev.forgetDevice d id).loadMeta := by
  simp only [Device.forgetDevice, tombstoneDevice, Device.loadMeta_saveMeta,
    Device.loadMeta_ledgers]
  exact (stamps_mintDevice d dev.loadMeta _ _ fun _ => rfl).mono (Set.subset_univ _)

/-! ### Along a run -/

/-- The device whose files an event touches. -/
def Event.device : Event → DeviceId
  | .edit d _ => d
  | .setMyDisplayName d _ => d
  | .forgetDevice d _ => d
  | .publish d _ => d
  | .apply d _ _ => d

namespace Fleet

/-- The device as the local part of an event leaves it: for a merge that is the
fold of its own edits, before anything incoming is looked at. -/
def localPart (f : Fleet) : Event → Device
  | .edit d ledgers => { f.devices d with ledgers }
  | .setMyDisplayName d name => (f.devices d).setMyDisplayName d name
  | .forgetDevice d id => (f.devices d).forgetDevice d id
  | .publish d env => ((f.devices d).buildLocalSnapshot env d).1
  | .apply d env n =>
      if n < f.posted.length then ((f.devices d).buildLocalSnapshot env d).1 else f.devices d

/-- An event writes the register `x` at `l`. -/
def Mints (f : Fleet) (e : Event) (l : Loc) (x : Cell) : Prop :=
  (f.localPart e).loadMeta.state.cell l = some x ∧ (f.state e.device).cell l ≠ some x

theorem stamps_localPart (f : Fleet) (e : Event) :
    SideStamps e.device Set.univ (f.devices e.device).loadMeta (f.localPart e).loadMeta := by
  cases e with
  | edit d ledgers => exact .refl _ _ _
  | setMyDisplayName d name => exact stamps_setMyDisplayName d _ name
  | forgetDevice d id => exact stamps_forgetDevice d _ id
  | publish d env => exact stamps_buildLocalSnapshot env d _
  | apply d env n =>
      simp only [localPart]
      split
      · exact stamps_buildLocalSnapshot env d _
      · exact .refl _ _ _

theorem Mints.fresh {f : Fleet} {e : Event} {l : Loc} {x : Cell} (h : f.Mints e l x) :
    Fresh e.device (f.lamport e.device) (f.localPart e).loadMeta.lamport x.clock := by
  rcases (f.stamps_localPart e).fresh l with he | ⟨y, hy, hf⟩
  · exact absurd (he.symm.trans h.1) h.2
  · obtain rfl : x = y := Option.some.inj (h.1.symm.trans hy)
    exact hf

theorem lamport_le_fold (f : Fleet) (d : DeviceId) (env : Env) (e : DeviceId) :
    f.lamport e ≤ (f.write d ((f.devices d).buildLocalSnapshot env d).1).lamport e :=
  lamport_le_put (extends_buildLocalSnapshot env d _).lamport_le e

/-- A device's counter never goes back. -/
theorem lamport_le_step (f : Fleet) (e : Event) (d : DeviceId) :
    f.lamport d ≤ (f.step e).lamport d := by
  cases e with
  | edit d' ledgers =>
      by_cases hd : d = d'
      · subst hd
        simp [step, edit, lamport]
      · simp [step, edit, lamport, Function.update_of_ne hd]
  | setMyDisplayName d' name =>
      exact lamport_le_put (extends_setMyDisplayName d' _ name).lamport_le d
  | forgetDevice d' id => exact lamport_le_put (extends_forgetDevice d' _ id).lamport_le d
  | publish d' env => exact lamport_le_fold f d' env d
  | apply d' env n =>
      simp only [step, apply]
      split
      · exact le_rfl
      next p _ =>
        refine (lamport_le_fold f d' env d).trans (lamport_le_put ?_ d)
        simp only [Fleet.write, lamport_put_self, loadMeta_applyMergedState]
        exact (le_max_left _ _).trans (le_max_left _ _)

theorem lamport_le_run (es : List Event) {i j : ℕ} (hij : i ≤ j) (d : DeviceId) :
    (run (es.take i)).lamport d ≤ (run (es.take j)).lamport d := by
  have hsplit : run (es.take j) = ((es.take j).drop i).foldl step (run (es.take i)) := by
    have htake := List.take_append_drop i (es.take j)
    rw [List.take_take, min_eq_left hij] at htake
    rw [run, run, ← List.foldl_append, htake]
  rw [hsplit]
  exact foldl_rel (fun f f' : Fleet => f.lamport d ≤ f'.lamport d) (fun _ => le_rfl) le_trans step
    (fun f e => lamport_le_step f e d) _ _

/-- What an event mints is in the saved counter. -/
theorem lamport_localPart_le (f : Fleet) (e : Event) :
    (f.localPart e).loadMeta.lamport ≤ (f.step e).lamport e.device := by
  cases e with
  | edit d ledgers => simp [localPart, step, edit, lamport, Event.device]
  | setMyDisplayName d name => simp [localPart, step, Event.device, Fleet.write]
  | forgetDevice d id => simp [localPart, step, Event.device, Fleet.write]
  | publish d env =>
      change _ ≤ (f.write d _).lamport d
      rw [Fleet.write, lamport_put_self]
      exact le_rfl
  | apply d env n =>
      simp only [localPart, step, apply, Event.device]
      by_cases hn : n < f.posted.length
      · rw [if_pos hn, List.getElem?_eq_getElem hn]
        simp only [lamport_put_self, loadMeta_applyMergedState]
        exact (le_max_left _ _).trans (le_max_left _ _)
      · rw [if_neg hn, List.getElem?_eq_none (not_lt.mp hn)]
        exact le_rfl

theorem Lamport.lt_of_counter_lt {a b : Lamport} (h : a.counter < b.counter) : a < b := by
  refine lt_of_not_ge fun hge => ?_
  exact absurd (Lamport.counter_le hge) (not_le.mpr h)

/-- What an event mints is above everything its device held. -/
theorem Mints.above {f : Fleet} (hf : f.Inv) {e : Event} {l : Loc} {x : Cell} (h : f.Mints e l x)
    {l' : Loc} {y : Cell} (hy : (f.state e.device).cell l' = some y) : y.clock < x.clock :=
  Lamport.lt_of_counter_lt ((hf.bounded e.device l' y hy).trans_lt h.fresh.above)

/-- Two events that mint one clock are the same event. -/
theorem Mints.index_unique {es : List Event} {i j : ℕ} {e e' : Event} (hi : es[i]? = some e)
    (hij : i < j) {l l' : Loc} {x y : Cell} (h : (run (es.take i)).Mints e l x)
    (h' : (run (es.take j)).Mints e' l' y) : x.clock ≠ y.clock := by
  intro hc
  have hdev : e.device = e'.device := by
    rw [← h.fresh.device, ← h'.fresh.device, hc]
  have hstep : run (es.take (i + 1)) = (run (es.take i)).step e := by
    rw [List.take_add_one, hi, run, List.foldl_append]
    rfl
  have hle : x.clock.counter ≤ (run (es.take j)).lamport e'.device := by
    rw [← hdev]
    calc x.clock.counter ≤ ((run (es.take i)).localPart e).loadMeta.lamport := h.fresh.below
      _ ≤ (run (es.take (i + 1))).lamport e.device := hstep ▸ lamport_localPart_le _ e
      _ ≤ (run (es.take j)).lamport e.device := lamport_le_run es hij _
  rw [hc] at hle
  exact absurd hle (not_le.mpr h'.fresh.above)

/-- Lamport discipline, over every run of edits, merges and restarts. The saved
counter is at least the highest counter of the state it is saved with. Every
register an event mints carries its device's id and a clock above everything in
that device's state; every counter an event passes over is on a register it
minted; and no clock is minted twice, by two events or at two positions. -/
theorem lamport_discipline (es : List Event) :
    (∀ d, ((run es).state d).maxCounter ≤ (run es).lamport d) ∧
    (∀ i e, es[i]? = some e → ∀ l x, (run (es.take i)).Mints e l x →
      x.clock.device = e.device ∧
      ∀ l' y, ((run (es.take i)).state e.device).cell l' = some y → y.clock < x.clock) ∧
    (∀ i e, es[i]? = some e → ∀ n, (run (es.take i)).lamport e.device < n →
      n ≤ ((run (es.take i)).localPart e).loadMeta.lamport →
      ∃ l x, (run (es.take i)).Mints e l x ∧ x.clock = ⟨n, e.device⟩) ∧
    ∀ i e j e', es[i]? = some e → es[j]? = some e' → ∀ l x l' y,
      (run (es.take i)).Mints e l x → (run (es.take j)).Mints e' l' y → x.clock = y.clock →
      i = j ∧ l = l' ∧ x = y := by
  refine ⟨fun d => maxCounter_le ((inv_run es).bounded d), ?_, ?_, ?_⟩
  · intro i e _ l x h
    exact ⟨h.fresh.device, fun l' y hy => h.above (inv_run _) hy⟩
  · intro i e _ n hn hn'
    obtain ⟨l, -, x, hx, hc⟩ := (stamps_localPart (run (es.take i)) e).each n hn hn'
    refine ⟨l, x, ⟨hx, fun hold => ?_⟩, hc⟩
    have hle := (inv_run (es.take i)).bounded _ l x hold
    rw [hc] at hle
    exact absurd hle (not_le.mpr hn)
  · intro i e j e' hi hj l x l' y h h' hc
    obtain hij | rfl | hij := lt_trichotomy i j
    · exact absurd hc (Mints.index_unique hi hij h h')
    · obtain rfl : e = e' := Option.some.inj (hi.symm.trans hj)
      have hl : l = l' := (stamps_localPart (run (es.take i)) e).inj
        ((inv_run (es.take i)).bounded e.device) l l' x y h.1 h'.1 h.fresh.above hc
      subst hl
      exact ⟨rfl, rfl, Option.some.inj (h.1.symm.trans h'.1)⟩
    · exact absurd hc.symm (Mints.index_unique hj hij h' h)

end Fleet

end Arvolo.Sync
