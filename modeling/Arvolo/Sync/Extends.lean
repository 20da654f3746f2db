import Arvolo.Sync.Merge
import Arvolo.Sync.Bridge

/-!
What a device's own writes can do to its sidecar.

Every local write leaves a register as it was or replaces it by one stamped with
this device's id and a counter the device has not used before. `Extends` says
that of two sidecars, and each stage of `buildLocalSnapshot`, like the two edits
that write the sidecar directly, is shown to extend what it started from.
-/

namespace Arvolo.Sync

open Lib
open Std (ExtTreeMap)

/-- A clock minted by `d` while its counter went from `l` to `l'`. -/
structure Fresh (d : DeviceId) (l l' : ℕ) (c : Lamport) : Prop where
  device : c.device = d
  above : l < c.counter
  below : c.counter ≤ l'

theorem Fresh.mono {d : DeviceId} {l₁ l₂ l₃ l₄ : ℕ} {c : Lamport} (h : Fresh d l₂ l₃ c)
    (hl : l₁ ≤ l₂) (hr : l₃ ≤ l₄) : Fresh d l₁ l₄ c :=
  ⟨h.device, hl.trans_lt h.above, h.below.trans hr⟩

/-! ### One map of registers -/

structure MapExtends {R : Type} (clock : R → Lamport) (d : DeviceId) (a b : Map R × ℕ) : Prop where
  lamport_le : a.2 ≤ b.2
  reg : ∀ k : String, b.1[k]? = a.1[k]? ∨ ∃ r, b.1[k]? = some r ∧ Fresh d a.2 b.2 (clock r)

namespace MapExtends

variable {V R : Type} {clock : R → Lamport} {d : DeviceId}

theorem refl (a : Map R × ℕ) : MapExtends clock d a a := ⟨le_rfl, fun _ => .inl rfl⟩

theorem trans {a b c : Map R × ℕ} (hab : MapExtends clock d a b) (hbc : MapExtends clock d b c) :
    MapExtends clock d a c where
  lamport_le := hab.lamport_le.trans hbc.lamport_le
  reg k := by
    rcases hbc.reg k with hk | ⟨r, hr, hf⟩
    · rcases hab.reg k with hk' | ⟨r, hr, hf⟩
      · exact .inl (hk.trans hk')
      · exact .inr ⟨r, hk.trans hr, hf.mono le_rfl hbc.lamport_le⟩
    · exact .inr ⟨r, hr, hf.mono hab.lamport_le le_rfl⟩

theorem mint (a : Map R × ℕ) (k : String) (reg : Lamport → R) (hreg : ∀ c, clock (reg c) = c) :
    MapExtends clock d a (mint d a k reg) where
  lamport_le := Nat.le_succ _
  reg j := by
    by_cases hj : j = k
    · subst hj
      refine .inr ⟨reg ⟨a.2 + 1, d⟩, by simp [Sync.mint], ?_⟩
      rw [hreg]
      exact ⟨rfl, Nat.lt_succ_self _, le_rfl⟩
    · left
      have hne : compare k j ≠ .eq := fun he => hj (Std.LawfulEqCmp.eq_of_compare he).symm
      simp [Sync.mint, ExtTreeMap.getElem?_insert, hne]

end MapExtends

/-- The registers a rule writes carry the clock they were asked to carry. -/
structure LedgerRule.Stamps {V R : Type} (rule : LedgerRule V R) (clock : R → Lamport) : Prop where
  live : ∀ v c, clock (rule.live v c) = c
  tomb : ∀ r c, clock (rule.tomb r c) = c

theorem contactRule_stamps : contactRule.Stamps ContactReg.clock := ⟨fun _ _ => rfl, fun _ _ => rfl⟩

theorem markRule_stamps : markRule.Stamps MarkReg.clock := ⟨fun _ _ => rfl, fun _ _ => rfl⟩

theorem nameRule_stamps : nameRule.Stamps NameReg.clock := ⟨fun _ _ => rfl, fun _ _ => rfl⟩

theorem relayRule_stamps : relayRule.Stamps RelayReg.clock := ⟨fun _ _ => rfl, fun _ _ => rfl⟩

theorem mapExtends_addRow {V R : Type} {rule : LedgerRule V R} {clock : R → Lamport}
    (hr : rule.Stamps clock) (d : DeviceId) (acc : Map R × ℕ) (k : String) (v : V) :
    MapExtends clock d acc (addRow rule d acc k v) := by
  unfold addRow
  split
  · exact .mint acc k _ (hr.live v)
  · exact .refl acc

/-- Both loops of a reconciliation only write fresh registers. -/
theorem mapExtends_reconcile {V R : Type} {rule : LedgerRule V R} {clock : R → Lamport}
    (hr : rule.Stamps clock) (d : DeviceId) (ledger : Map V) (acc : Map R × ℕ) :
    MapExtends clock d acc (reconcile rule d ledger acc) := by
  unfold reconcile
  refine MapExtends.trans (b := ledger.foldl (addRow rule d) acc) ?_ ?_
  · rw [ExtTreeMap.foldl_eq_foldl_toList]
    exact foldl_rel (MapExtends clock d) .refl .trans _
      (fun acc (e : String × V) => mapExtends_addRow hr d acc e.1 e.2) _ _
  · exact foldl_rel (MapExtends clock d) .refl .trans _
      (fun acc (e : String × R) => .mint acc e.1 _ (hr.tomb e.2)) _ _

/-! ### The whole sidecar -/

structure Extends (d : DeviceId) (c c' : Sidecar) : Prop where
  lamport_le : c.lamport ≤ c'.lamport
  cell : ∀ l, c'.state.cell l = c.state.cell l ∨
    ∃ x, c'.state.cell l = some x ∧ Fresh d c.lamport c'.lamport x.clock
  seen : ∀ k : String, seenLe c.state.seen[k]? c'.state.seen[k]?
  authored : SelfAuthored c.state.devices → SelfAuthored c'.state.devices

namespace Extends

variable {d : DeviceId} {c c' c'' : Sidecar}

theorem refl (c : Sidecar) : Extends d c c :=
  ⟨le_rfl, fun _ => .inl rfl, fun _ => seenLe_refl _, id⟩

theorem trans (h : Extends d c c') (h' : Extends d c' c'') : Extends d c c'' where
  lamport_le := h.lamport_le.trans h'.lamport_le
  cell l := by
    rcases h'.cell l with hl | ⟨x, hx, hf⟩
    · rcases h.cell l with hl' | ⟨x, hx, hf⟩
      · exact .inl (hl.trans hl')
      · exact .inr ⟨x, hl.trans hx, hf.mono le_rfl h'.lamport_le⟩
    · exact .inr ⟨x, hx, hf.mono h.lamport_le le_rfl⟩
  seen k := seenLe_trans (h.seen k) (h'.seen k)
  authored := h'.authored ∘ h.authored

/-- A write to one map of registers, the rest of the state untouched. -/
theorem of_map {R : Type} {clock : R → Lamport} (wrap : R → Cell) (loc : String → Loc)
    {m : Map R} {s' : SyncState} {out : Map R × ℕ}
    (hm : MapExtends clock d (m, c.lamport) out) (hclock : ∀ r, (wrap r).clock = clock r)
    (hold : ∀ k, c.state.cell (loc k) = m[k]?.map wrap)
    (hnew : ∀ k, s'.cell (loc k) = out.1[k]?.map wrap)
    (hframe : ∀ l, (∀ k, l ≠ loc k) → s'.cell l = c.state.cell l)
    (hseen : s'.seen = c.state.seen)
    (hdev : SelfAuthored c.state.devices → SelfAuthored s'.devices) :
    Extends d c ⟨s', out.2⟩ where
  lamport_le := hm.lamport_le
  cell l := by
    by_cases hl : ∃ k, l = loc k
    · obtain ⟨k, rfl⟩ := hl
      rcases hm.reg k with hk | ⟨r, hr, hf⟩
      · left
        rw [hnew, hold, hk]
      · refine .inr ⟨wrap r, by rw [hnew, hr]; rfl, ?_⟩
        rw [hclock]
        exact hf
    · exact .inl (hframe l fun k hk => hl ⟨k, hk⟩)
  seen k := by
    change seenLe c.state.seen[k]? s'.seen[k]?
    rw [hseen]
    exact seenLe_refl _
  authored := hdev

end Extends

section Stages

variable (d : DeviceId) (c : Sidecar)

theorem extends_foldContacts (contacts : Map String) :
    Extends d c (foldContacts d contacts c) :=
  .of_map .contact .contact
    (mapExtends_reconcile contactRule_stamps d contacts _) (fun _ => rfl) (fun _ => rfl)
    (fun _ => rfl) (fun l hl => by cases l <;> first | rfl | exact absurd rfl (hl _)) rfl id

theorem extends_foldVerified (marks : Map ℕ) : Extends d c (foldVerified d marks c) :=
  .of_map .mark .verified
    (mapExtends_reconcile markRule_stamps d marks _) (fun _ => rfl) (fun _ => rfl)
    (fun _ => rfl) (fun l hl => by cases l <;> first | rfl | exact absurd rfl (hl _)) rfl id

theorem extends_foldTrusted (marks : Map ℕ) : Extends d c (foldTrusted d marks c) :=
  .of_map .mark .trusted
    (mapExtends_reconcile markRule_stamps d marks _) (fun _ => rfl) (fun _ => rfl)
    (fun _ => rfl) (fun l hl => by cases l <;> first | rfl | exact absurd rfl (hl _)) rfl id

theorem extends_foldBlocked (marks : Map ℕ) : Extends d c (foldBlocked d marks c) :=
  .of_map .mark .blocked
    (mapExtends_reconcile markRule_stamps d marks _) (fun _ => rfl) (fun _ => rfl)
    (fun _ => rfl) (fun l hl => by cases l <;> first | rfl | exact absurd rfl (hl _)) rfl id

theorem extends_foldNames (names : Map NameRow) : Extends d c (foldNames d names c) :=
  .of_map .name .name
    (mapExtends_reconcile nameRule_stamps d names _) (fun _ => rfl) (fun _ => rfl)
    (fun _ => rfl) (fun l hl => by cases l <;> first | rfl | exact absurd rfl (hl _)) rfl id

theorem extends_foldRelays (relays : Map String) : Extends d c (foldRelays d relays c) :=
  .of_map .relay .relay
    (mapExtends_reconcile relayRule_stamps d relays _) (fun _ => rfl) (fun _ => rfl)
    (fun _ => rfl) (fun l hl => by cases l <;> first | rfl | exact absurd rfl (hl _)) rfl id

/-- Raising counters key by key only moves them up. -/
theorem seenLe_foldInto (rule : String → Option SeenReg → ℕ → Option SeenReg)
    (hrule : ∀ k cur v, seenLe cur ((rule k cur v).or cur)) (m : Map SeenReg) (other : Map ℕ)
    (k : String) : seenLe m[k]? (foldInto rule m other)[k]? := by
  rw [getElem?_foldInto]
  cases other[k]? with
  | none => exact seenLe_refl _
  | some v => exact hrule k _ v

theorem extends_foldSeen (seen last : Map ℕ) : Extends d c (foldSeen seen last c) where
  lamport_le := le_rfl
  cell l := .inl (by cases l <;> rfl)
  seen k := by
    refine seenLe_trans (seenLe_foldInto raiseCount ?_ _ seen k)
      (seenLe_foldInto raiseLast ?_ _ last k)
    · intro k cur v
      cases cur <;> simp [raiseCount, seenLe]
    · intro k cur v
      cases cur <;> simp [raiseLast, seenLe]
  authored := id

theorem extends_foldLedgers (ledgers : Ledgers) : Extends d c (foldLedgers d ledgers c) :=
  (extends_foldContacts d c _).trans <| (extends_foldVerified d _ _).trans <|
    (extends_foldTrusted d _ _).trans <| (extends_foldBlocked d _ _).trans <|
    (extends_foldSeen d _ _ _).trans <| (extends_foldNames d _ _).trans (extends_foldRelays d _ _)

/-- One row of the device register: a tombstone, or this machine's own. -/
theorem extends_mintDevice (key : String) (reg : Lamport → DeviceReg)
    (hclock : ∀ k, (reg k).clock = k) (hreg : ∀ k, (reg k).deleted = false → key = deviceKey d) :
    Extends d c ⟨{ c.state with devices := (mint d (c.state.devices, c.lamport) key reg).1 },
      (mint d (c.state.devices, c.lamport) key reg).2⟩ := by
  refine .of_map .device .device (.mint _ key reg hclock)
    (fun _ => rfl) (fun _ => rfl) (fun _ => rfl)
    (fun l hl => by cases l <;> first | rfl | exact absurd rfl (hl _)) rfl ?_
  intro h id r hr hd
  by_cases hid : id = key
  · subst hid
    have hreg' : r = reg ⟨c.lamport + 1, d⟩ := by simpa [mint] using hr.symm
    subst hreg'
    rw [hclock]
    exact (hreg _ hd).symm
  · have hne : compare key id ≠ .eq := fun he => hid (Std.LawfulEqCmp.eq_of_compare he).symm
    refine h id r ?_ hd
    simpa [mint, ExtTreeMap.getElem?_insert, hne] using hr

theorem extends_registerThisDevice (env : Env) (ledger : Map DeviceRow) :
    Extends d c (registerThisDevice env d c ledger).1 := by
  simp only [registerThisDevice]
  split
  · exact .refl c
  · split
    · exact .refl c
    · exact extends_mintDevice d c _ _ (fun _ => rfl) (fun _ _ => rfl)

theorem extends_mintSelfName (name : String) : Extends d c (mintSelfName d c name) where
  lamport_le := Nat.le_succ _
  cell l := by
    cases l with
    | selfName =>
        exact .inr ⟨.selfName ⟨name, ⟨c.lamport + 1, d⟩⟩, rfl, rfl, Nat.lt_succ_self _, le_rfl⟩
    | _ => exact .inl rfl
  seen _ := seenLe_refl _
  authored := id

theorem extends_registerMyName (ledgers : Ledgers) :
    Extends d c (registerMyName d c ledgers).1 := by
  simp only [registerMyName]
  split
  · split
    · exact .refl c
    · exact extends_mintSelfName d c _
  · split
    · exact extends_mintSelfName d c _
    · split
      · exact .refl c
      · exact extends_mintSelfName d c _

end Stages

/-! ### The operations on a device -/

theorem extends_buildLocalSnapshot (env : Env) (d : DeviceId) (dev : Device) :
    Extends d dev.loadMeta (dev.buildLocalSnapshot env d).1.loadMeta := by
  simp only [Device.buildLocalSnapshot, Device.loadMeta_saveMeta]
  exact (extends_foldLedgers d _ _).trans <|
    (extends_registerThisDevice d _ env _).trans (extends_registerMyName d _ _)

/-- The snapshot handed out is what the sidecar now holds. -/
theorem buildLocalSnapshot_snd (env : Env) (d : DeviceId) (dev : Device) :
    SyncState.fromSnapshot (dev.buildLocalSnapshot env d).2 =
      (dev.buildLocalSnapshot env d).1.loadMeta.state := by
  simp [Device.buildLocalSnapshot]

theorem extends_stampMyName (d : DeviceId) (dev : Device) (name : String) :
    Extends d dev.loadMeta (stampMyName d dev name).loadMeta := by
  unfold stampMyName
  by_cases h : dev.loadMeta.state.selfName.any fun r => r.name == name
  · rw [if_pos h]
    exact .refl _
  · rw [if_neg h, Device.loadMeta_saveMeta]
    exact extends_mintSelfName d dev.loadMeta name

theorem extends_setMyDisplayName (d : DeviceId) (dev : Device) (name : String) :
    Extends d dev.loadMeta (dev.setMyDisplayName d name).loadMeta := by
  have h := extends_stampMyName d
    { dev with ledgers := { dev.ledgers with me := sanitizeDisplay (trim name) } }
    (sanitizeDisplay (trim name))
  rwa [Device.loadMeta_ledgers] at h

theorem extends_forgetDevice (d : DeviceId) (dev : Device) (id : DeviceId) :
    Extends d dev.loadMeta (dev.forgetDevice d id).loadMeta := by
  simp only [Device.forgetDevice, tombstoneDevice, Device.loadMeta_saveMeta,
    Device.loadMeta_ledgers]
  exact extends_mintDevice d dev.loadMeta _ _ (fun _ => rfl) (fun _ h => by cases h)

theorem loadMeta_applyMergedState (env : Env) (d : DeviceId) (dev : Device)
    (incoming : SyncSnapshot) : (dev.applyMergedState env d incoming).loadMeta =
      (dev.buildLocalSnapshot env d).1.loadMeta.absorb incoming := by
  simp only [Device.applyMergedState, Device.loadMeta_ledgers, Device.loadMeta_saveMeta]

end Arvolo.Sync
