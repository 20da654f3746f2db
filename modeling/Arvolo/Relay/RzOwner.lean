import Arvolo.Lib.Machine
import Arvolo.Relay.Rendezvous

/-!
Who owns a rendezvous slot. A claim for version 2 looks at `ms` alone, so the rows that
decide whether the two protocols share a slot are those that are there when the `own` row
lands, and the requests then under way. From that moment on the handlers keep
version 1 out, and only the owner's token deletes the slot.
-/

namespace Arvolo.Relay.Slot

open Lib

variable {blake3 : Bytes → Bytes} {s : Slot}

def v1Keys : List Key := [rzClaimKey, rzReplyKey, rzTicketKey]

/-- A live claim for version 2 beside a live row of version 1. -/
def Mixed (s : Slot) : Prop :=
  (s.liveRow rzOwnKey).isSome ∧ ∃ key ∈ v1Keys, (s.liveRow key).isSome

/-- A live claim is taken away only by a DELETE with the token it names. -/
def OwnerOnly (blake3 : Bytes → Bytes) (s : Slot) (e : RzEvent) : Prop :=
  ∀ row, s.liveRow rzOwnKey = some row → (s.step blake3 e).rows.lookup rzOwnKey = none →
    ∃ i token, e = .turn i ∧ s.jobs[i]? = some (.deleteSlot (some token)) ∧
      blake3 token = row.value.take 32

/-- A request under way that can coexist with a claim of the owner with this hash. -/
def Harmless (blake3 : Bytes → Bytes) (hash : Bytes) : RzJob → Prop
  | .write key _ _ _ => key ∉ v1Keys
  | .deleteSlot bearer => ∃ token ∈ bearer, blake3 token = hash
  | _ => True

/-- Nothing of version 1 is in the slot or on its way to it, and nobody but the owner is
about to delete it. -/
def Settled (blake3 : Bytes → Bytes) (s : Slot) (hash : Bytes) : Prop :=
  (∀ key ∈ v1Keys, s.liveRow key = none) ∧ ∀ job ∈ s.jobs, Harmless blake3 hash job

/-- An `own` row that lands finds the slot settled. -/
def CalmLanding (blake3 : Bytes → Bytes) (s : Slot) : RzJob → Prop
  | .write key value _ _ =>
      key = rzOwnKey → s.rows.lookup rzOwnKey = none → s.Settled blake3 (value.take 32)
  | _ => True

def CalmClaim (blake3 : Bytes → Bytes) (s : Slot) : RzEvent → Prop
  | .turn i => ∀ job ∈ s.jobs[i]?, s.CalmLanding blake3 job
  | _ => True

section Decidable

variable (blake3 : Bytes → Bytes) (s : Slot)

instance : Decidable s.Mixed := inferInstanceAs (Decidable (_ ∧ _))

instance (hash : Bytes) : DecidablePred (Harmless blake3 hash)
  | .write key _ _ _ => inferInstanceAs (Decidable (key ∉ v1Keys))
  | .deleteSlot bearer => inferInstanceAs (Decidable (∃ token ∈ bearer, blake3 token = hash))
  | .deleteKeys _ | .touch .. | .list .. => .isTrue trivial

instance (hash : Bytes) : Decidable (s.Settled blake3 hash) :=
  inferInstanceAs (Decidable (_ ∧ _))

instance : DecidablePred (s.CalmLanding blake3)
  | .write .. => inferInstanceAs (Decidable (_ → _ → _))
  | .deleteSlot _ | .deleteKeys _ | .touch .. | .list .. => .isTrue trivial

instance : DecidablePred (s.CalmClaim blake3)
  | .turn i => inferInstanceAs (Decidable (∀ job ∈ s.jobs[i]?, s.CalmLanding blake3 job))
  | .request _ | .reap | .tick _ => .isTrue trivial

end Decidable

theorem class_of_v1Keys : ∀ key ∈ v1Keys, key ≠ rzOwnKey ∧ rzSessionPrefix key = none := by
  decide

theorem rzSessionPrefix_own : rzSessionPrefix rzOwnKey = none := by decide

/-- An `own` row is a hash and a stamp, and so is one on its way; and no session takes it
along. -/
structure OwnFormed (s : Slot) : Prop where
  row (row : RzRow) : s.rows.lookup rzOwnKey = some row → row.value.length = rzOwnRowLen
  job (value : Bytes) (exp : ℕ) (poster : Poster) :
    .write rzOwnKey value exp poster ∈ s.jobs → value.length = rzOwnRowLen
  keys (keys : List Key) : .deleteKeys keys ∈ s.jobs → rzOwnKey ∉ keys

theorem OwnFormed.rzOwnRow_eq (h : s.OwnFormed) {row : RzRow}
    (hrow : s.liveRow rzOwnKey = some row) :
    s.rzOwnRow = some (row.value.take 32, ofLeBytes (row.value.drop 32)) := by
  have hlen := h.row row (liveRow_eq_some.1 hrow).1
  simp [rzOwnRow, rzGet, hrow, hlen]

/-- A claim that passes its checks has the length of a hash. -/
theorem length_of_postExpiry {body : Bytes} {bearer : Option Bytes} {exp : ℕ}
    (h : s.postExpiry blake3 rzOwnKey body bearer = .ok exp) : body.length = 32 := by
  by_contra hlen
  simp [postExpiry, hlen] at h

theorem own_notMem_sessionKeys (sid : Key) : rzOwnKey ∉ sessionKeys sid := by
  simp [sessionKeys, rzOwnKey, rzPRecv, rzPSend, rzPConf, rzPTkt]

theorem OwnFormed.step (h : s.OwnFormed) (e : RzEvent) : (s.step blake3 e).OwnFormed where
  row row hrow := by
    rcases lookup_step hrow with ⟨old, hold, exp, rfl⟩ | ⟨i, value, exp, poster, rfl, hjob, -, rfl⟩
    · exact h.row old hold
    · exact h.job value exp poster (List.mem_of_getElem? hjob)
  job value exp poster hjob := by
    rcases mem_jobs_step hjob with hjob | ⟨r, -, hbegun⟩ | ⟨_, _, _, _, -, hlist⟩
    · exact h.job value exp poster hjob
    · cases hbegun with
      | post hroom hexp =>
          simp [rowValue, length_of_postExpiry hexp, rzOwnRowLen]
    · cases hlist
  keys keys hjob := by
    rcases mem_jobs_step hjob with hjob | ⟨r, -, hbegun⟩ | ⟨_, _, _, _, -, hlist⟩
    · exact h.keys keys hjob
    · cases hbegun with
      | session hp hv hkeys =>
          rcases hkeys with ⟨-, rfl⟩ | ⟨-, rfl⟩
          · exact own_notMem_sessionKeys _
          · intro hmem
            obtain rfl := List.mem_singleton.1 hmem
            simp [rzSessionPrefix_own] at hp
    · cases hlist

theorem ownFormed_empty (clock : Clock) : (empty clock).OwnFormed where
  row row h := by cases (AList.lookup_empty rzOwnKey).symm.trans h
  job value exp poster h := by cases h
  keys keys h := by cases h

/-- What the handlers let through while a claim is live keeps the slot settled. -/
theorem Begun.harmless (hformed : s.OwnFormed) {row : RzRow} (hrow : s.liveRow rzOwnKey = some row)
    (hv1 : ∀ key ∈ v1Keys, s.liveRow key = none) {r : RzRequest} {job : RzJob}
    (h : Begun blake3 s r job) : Harmless blake3 (row.value.take 32) job := by
  have hown := hformed.rzOwnRow_eq hrow
  cases h with
  | post hroom hexp =>
      intro hkey
      obtain ⟨hne, hprefix⟩ := class_of_v1Keys _ hkey
      simp [postExpiry, hne, hprefix, hown] at hexp
  | ticket hv =>
      have hnone := hv1 rzTicketKey (by decide)
      simp [rzGet, hnone] at hv
  | delete howner =>
      obtain ⟨token, rfl, hlive⟩ := rzOwner_eq_ok howner
      obtain ⟨hhash, -⟩ := Prod.mk.inj (Option.some.inj (hlive.symm.trans hown))
      exact ⟨token, rfl, hhash⟩
  | session hp hv hkeys => trivial
  | sessions howner => trivial

/-- While a claim is live, the slot is settled for its owner. -/
def Claimed (blake3 : Bytes → Bytes) (s : Slot) : Prop :=
  s.OwnFormed ∧ ∀ row, s.liveRow rzOwnKey = some row → s.Settled blake3 (row.value.take 32)

theorem Claimed.step (h : s.Claimed blake3) (e : RzEvent) (hcalm : s.CalmClaim blake3 e) :
    (s.step blake3 e).Claimed blake3 := by
  refine ⟨h.1.step e, fun row hrow => ?_⟩
  rcases liveRow_step hrow with ⟨old, hold, exp, rfl⟩ | ⟨i, value, exp, poster, rfl, hjob, hnone, rfl⟩
  · obtain ⟨hv1, hjobs⟩ := h.2 old hold
    refine ⟨fun key hkey => ?_, fun job hjob => ?_⟩
    · refine Option.eq_none_iff_forall_ne_some.2 fun row' hrow' => ?_
      rcases liveRow_step hrow' with ⟨old', hold', -⟩ | ⟨i, value, exp, poster, -, hjob, -, -⟩
      · simp [hv1 key hkey] at hold'
      · exact hjobs _ (List.mem_of_getElem? hjob) hkey
    · rcases mem_jobs_step hjob with hjob | ⟨r, -, hbegun⟩ | ⟨_, _, _, _, -, rfl⟩
      · exact hjobs job hjob
      · exact hbegun.harmless h.1 hold hv1
      · trivial
  · have hsettled : s.Settled blake3 (value.take 32) := by
      exact hcalm _ hjob rfl hnone
    obtain ⟨hv1, hjobs⟩ := hsettled
    refine ⟨fun key hkey => ?_, fun job hjob' => ?_⟩
    · refine Option.eq_none_iff_forall_ne_some.2 fun row' hrow' => ?_
      rcases liveRow_step hrow' with ⟨old', hold', -⟩ | ⟨j, value', exp', poster', hij, hjob', -, -⟩
      · simp [hv1 key hkey] at hold'
      · obtain rfl := RzEvent.turn.inj hij
        obtain ⟨rfl, -⟩ := RzJob.write.inj (Option.some.inj (hjob.symm.trans hjob'))
        exact absurd rfl (class_of_v1Keys _ hkey).1
    · rcases mem_jobs_step hjob' with hjob' | ⟨r, hr, -⟩ | ⟨_, _, _, _, -, rfl⟩
      · exact hjobs job hjob'
      · cases hr
      · trivial

theorem claimed_empty (clock : Clock) : (empty clock).Claimed blake3 :=
  ⟨ownFormed_empty clock, fun row hrow => by
    cases (AList.lookup_empty rzOwnKey).symm.trans (liveRow_eq_some.1 hrow).1⟩

theorem Claimed.not_mixed (h : s.Claimed blake3) : ¬ s.Mixed := by
  rintro ⟨hown, key, hkey, hlive⟩
  obtain ⟨row, hrow⟩ := Option.isSome_iff_exists.1 hown
  rw [(h.2 row hrow).1 key hkey] at hlive
  cases hlive

theorem Claimed.ownerOnly (h : s.Claimed blake3) (e : RzEvent) : s.OwnerOnly blake3 e := by
  intro row hrow hgone
  obtain ⟨hlookup, hlive⟩ := liveRow_eq_some.1 hrow
  cases e with
  | request r => simp [Slot.step, hlookup] at hgone
  | turn i =>
      simp only [Slot.step] at hgone
      split at hgone
      · next job hjob =>
        have hmem : job ∈ s.jobs := List.mem_of_getElem? hjob
        rw [rows_setJob] at hgone
        cases job with
        | write key value exp poster =>
            cases hkey : s.rows.lookup key with
            | some old =>
                rw [finish, land_of_some hkey, hlookup] at hgone
                cases hgone
            | none =>
                rw [finish, lookup_land_of_none hkey] at hgone
                split_ifs at hgone
                simp [hlookup] at hgone
        | deleteSlot bearer =>
            obtain ⟨token, hbearer, hhash⟩ := (h.2 row hrow).2 _ hmem
            obtain rfl : bearer = some token := hbearer
            exact ⟨i, token, rfl, hjob, hhash⟩
        | deleteKeys keys =>
            simp [finish, h.1.keys keys hmem, hlookup] at hgone
        | touch claim exp wait => simp [finish, hlookup] at hgone
        | list claim deadline => simp [finish, hlookup] at hgone
      · simp [hlookup] at hgone
  | reap => simp [Slot.step, lookup_rzReap, hrow] at hgone
  | tick secs => simp [Slot.step, hlookup] at hgone

/-- In a run whose claims land in settled slots, no slot is ever shared by the two
versions, and a live claim is only deleted by its owner. -/
theorem owned_of_calm (blake3 : Bytes → Bytes) (clock : Clock) (es : List RzEvent)
    (h : Along (step blake3) (CalmClaim blake3) (empty clock) es) :
    (∀ n, ¬ ((empty clock).run blake3 (es.take n)).Mixed) ∧
      Along (step blake3) (OwnerOnly blake3) (empty clock) es := by
  constructor
  · intro n
    have hclaimed := (h.take n).foldl_inv (Claimed blake3)
      (fun _ e hs hc => hs.step e hc) (claimed_empty clock)
    exact Claimed.not_mixed hclaimed
  · exact Along.imp (Claimed blake3) (fun _ e _ hs hc => hs.step e hc)
      (fun _ e _ hs _ => hs.ownerOnly e) (claimed_empty clock) h

/-- A ticket of version 1 is there before the claim: its reader deletes the slot. -/
def ticketThenClaim : List RzEvent :=
  [.request (.post rzTicketKey [1] none), .turn 0,
    .request (.post rzOwnKey (List.replicate 32 7) none), .turn 0]

theorem mixed_ticketThenClaim :
    ¬ ∀ (blake3 : Bytes → Bytes) (clock : Clock) (es : List RzEvent),
      (∀ n, ¬ ((empty clock).run blake3 (es.take n)).Mixed) ∧
        Along (step blake3) (OwnerOnly blake3) (empty clock) es := by
  intro h
  have hrun := And.left (h id ⟨0, by norm_num⟩ ticketThenClaim)
  have hmixed : ((empty ⟨0, by norm_num⟩).run id (ticketThenClaim.take 4)).Mixed := by
    decide +kernel
  exact hrun 4 hmixed

/-- A claim, a receiver, a poll, an answer, and the owner's DELETE. -/
def servedSession : List RzEvent :=
  let token : Bytes := List.replicate 32 7
  [.request (.post rzOwnKey token none), .turn 0,
    .request (.post (rzPRecv ++ ['a']) [1] none), .turn 0,
    .request (.get rzSessionsKey (some token) 0), .turn 0, .turn 0,
    .request (.post (rzPSend ++ ['a']) [2] (some token)), .turn 0,
    .request (.delete rzOwnKey (some token)), .turn 0]

theorem owned_servedSession :
    ¬ ((empty ⟨0, by norm_num⟩).run id (servedSession.take 9)).Mixed :=
  (owned_of_calm id ⟨0, by norm_num⟩ servedSession (by decide +kernel)).1 9

end Arvolo.Relay.Slot
