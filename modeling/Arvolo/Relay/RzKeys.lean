import Arvolo.Lib.Machine
import Arvolo.Relay.Rendezvous

/-!
Who may write and who may read under a session of the rendezvous, and what a read takes
with it. What the owner says is posted with the owner's token, what the receiver says is
read with it, the first writer of a key wins, and reading a ticket takes the four keys of
the exchange that led to it; the receiver's reply, written after the ticket is
read, stays.
-/

namespace Arvolo.Relay.Slot

open Lib

variable {blake3 : Bytes → Bytes} {s : Slot}

/-- It was posted with the token of the owner row that was live when it was checked. -/
def Poster.Owner (blake3 : Bytes → Bytes) (p : Poster) : Prop :=
  ∃ token, p.bearer = some token ∧ p.owner = some (blake3 token)

/-- The owner's side of a session: `s.` and `t.`. -/
def OwnersKey (key : Key) : Prop :=
  rzSessionPrefix key = some rzPSend ∨ rzSessionPrefix key = some rzPTkt

theorem ne_own_of_ownersKey {key : Key} (h : OwnersKey key) : key ≠ rzOwnKey := by
  rintro rfl
  have hnone : rzSessionPrefix rzOwnKey = none := by decide
  rcases h with h | h <;> cases hnone.symm.trans h

/-- What is under the owner's keys, or on its way there, the owner has posted. -/
structure Signed (blake3 : Bytes → Bytes) (s : Slot) : Prop where
  row (key : Key) (row : RzRow) : OwnersKey key → s.rows.lookup key = some row →
    Poster.Owner blake3 row.poster
  job (key : Key) (value : Bytes) (exp : ℕ) (poster : Poster) : OwnersKey key →
    .write key value exp poster ∈ s.jobs → Poster.Owner blake3 poster

theorem signed_empty (clock : Clock) : (empty clock).Signed blake3 where
  row key row _ h := by cases (AList.lookup_empty key).symm.trans h
  job key value exp poster _ h := by cases h

/-- The owner's keys are checked against the owner row. -/
theorem owner_of_postExpiry {key : Key} {body : Bytes} {bearer : Option Bytes} {exp : ℕ}
    (hkey : OwnersKey key) (h : s.postExpiry blake3 key body bearer = .ok exp) :
    Poster.Owner blake3 ⟨bearer, s.rzOwnRow.map (·.1)⟩ := by
  have hne := ne_own_of_ownersKey hkey
  obtain ⟨p, hp, hside⟩ : ∃ p, rzSessionPrefix key = some p ∧ (p = rzPSend ∨ p = rzPTkt) := by
    rcases hkey with hkey | hkey
    · exact ⟨rzPSend, hkey, .inl rfl⟩
    · exact ⟨rzPTkt, hkey, .inr rfl⟩
  cases hrow : s.rzOwnRow with
  | none => simp [postExpiry, hne, hp, hrow] at h
  | some own =>
      cases howner : s.rzOwner blake3 bearer with
      | error e => simp [postExpiry, hne, hp, hrow, hside, howner, bind, Except.bind] at h
      | ok created =>
          obtain ⟨token, rfl, hown⟩ := rzOwner_eq_ok howner
          obtain rfl := Option.some.inj (hrow.symm.trans hown)
          exact ⟨token, rfl, rfl⟩

theorem Signed.step (h : s.Signed blake3) (e : RzEvent) : (s.step blake3 e).Signed blake3 where
  row key row hkey hrow := by
    rcases lookup_step hrow with ⟨old, hold, exp, rfl⟩ | ⟨i, value, exp, poster, rfl, hjob, -, rfl⟩
    · exact h.row key old hkey hold
    · exact h.job key value exp poster hkey (List.mem_of_getElem? hjob)
  job key value exp poster hkey hjob := by
    rcases mem_jobs_step hjob with hjob | ⟨r, -, hbegun⟩ | ⟨_, _, _, _, -, hlist⟩
    · exact h.job key value exp poster hkey hjob
    · cases hbegun with
      | post hroom hexp => exact owner_of_postExpiry hkey hexp
    · cases hlist

/-- The first writer wins: a row is there until it is gone, and only its expiry moves. -/
theorem lookup_step_of_some {key : Key} {old : RzRow} (h : s.rows.lookup key = some old)
    (e : RzEvent) :
    (s.step blake3 e).rows.lookup key = none ∨
      ∃ row, (s.step blake3 e).rows.lookup key = some row ∧ Renewed old row := by
  cases hrow : (s.step blake3 e).rows.lookup key with
  | none => exact .inl rfl
  | some row =>
      rcases lookup_step hrow with ⟨old', hold, hrenewed⟩ | ⟨_, _, _, _, -, -, hnone, -⟩
      · obtain rfl := Option.some.inj (h.symm.trans hold)
        exact .inr ⟨row, rfl, hrenewed⟩
      · cases h.symm.trans hnone

/-- A session's key is read by the handler for sessions. -/
theorem rzGetHandler_session {key p : Key} {bearer : Option Bytes} {wait : ℕ} {ans : RzAnswer}
    (hp : rzSessionPrefix key = some p) (h : s.rzGetHandler blake3 key bearer wait = .ok ans) :
    s.getSessionKey blake3 key p bearer = .ok ans := by
  have hown : key ≠ rzOwnKey := by
    rintro rfl
    exact absurd hp (by simp [show rzSessionPrefix rzOwnKey = none by decide])
  have hsessions : key ≠ rzSessionsKey := by
    rintro rfl
    exact absurd hp (by simp [show rzSessionPrefix rzSessionsKey = none by decide])
  unfold rzGetHandler at h
  split_ifs at h
  simpa [hp] using h

theorem rzGet_eq_some {key : Key} {v : Bytes} (h : s.rzGet key = some v) :
    ∃ row, s.liveRow key = some row ∧ row.value = v := by
  simpa [rzGet] using h

theorem mem_sessionKeys {key sid : Key} :
    key ∈ sessionKeys sid ↔ ∃ p ∈ [rzPRecv, rzPSend, rzPConf, rzPTkt], key = p ++ sid := by
  simp [sessionKeys]

/-- The keys that go with a ticket are those of its session, and not its replies. -/
theorem append_mem_sessionKeys {p sid sid' : Key} (hp : p ∈ rzPrefixes) :
    p ++ sid' ∈ sessionKeys sid ↔ sid' = sid ∧ p ≠ rzPBack ∧ p ≠ rzPXtra := by
  rw [mem_sessionKeys]
  fin_cases hp <;>
    simp [rzPRecv, rzPSend, rzPConf, rzPTkt, rzPBack, rzPXtra]

/-- In every run: what is read at the owner's keys was posted with the token of the owner
row then live; the receiver's keys are read only with the token of the live owner row; a
row is never overwritten; and a ticket that is read takes exactly the four keys of its
exchange. -/
theorem authorized (blake3 : Bytes → Bytes) (clock : Clock) (es : List RzEvent) :
    let s := (empty clock).run blake3 es
    (∀ key bearer wait ans, OwnersKey key → s.rzGetHandler blake3 key bearer wait = .ok ans →
      ∃ row, s.liveRow key = some row ∧ ans.told = some row.value ∧
        Poster.Owner blake3 row.poster) ∧
    (∀ key p bearer wait ans, rzSessionPrefix key = some p → ¬ OwnersKey key →
      s.rzGetHandler blake3 key bearer wait = .ok ans →
      ∃ token created, bearer = some token ∧ s.rzOwnRow = some (blake3 token, created)) ∧
    (∀ key old e, s.rows.lookup key = some old →
      (s.step blake3 e).rows.lookup key = none ∨
        ∃ row, (s.step blake3 e).rows.lookup key = some row ∧ Renewed old row) ∧
    (∀ sid bearer wait ans, rzSessionPrefix (rzPTkt ++ sid) = some rzPTkt →
      s.rzGetHandler blake3 (rzPTkt ++ sid) bearer wait = .ok ans →
      ∃ job, ans.job = some job ∧
        (∀ (t : Slot) key, (t.finish job).1.rows.lookup key =
          if key ∈ sessionKeys sid then none else t.rows.lookup key) ∧
        ∀ p ∈ rzPrefixes, ∀ sid', p ++ sid' ∈ sessionKeys sid ↔
          sid' = sid ∧ p ≠ rzPBack ∧ p ≠ rzPXtra) := by
  intro s
  have hsigned : s.Signed blake3 :=
    foldl_inv (Signed blake3) (fun _ e h => h.step e) (signed_empty clock) es
  refine ⟨fun key bearer wait ans hkey hget => ?_, fun key p bearer wait ans hp hkey hget => ?_,
    fun key old e hold => lookup_step_of_some hold e, fun sid bearer wait ans hp hget => ?_⟩
  · obtain ⟨p, hp⟩ : ∃ p, rzSessionPrefix key = some p := by
      rcases hkey with hkey | hkey <;> exact ⟨_, hkey⟩
    obtain ⟨v, hv, htold, -⟩ :=
      readSessionKey_eq_ok (getSessionKey_eq_ok (rzGetHandler_session hp hget)).1
    obtain ⟨row, hrow, rfl⟩ := rzGet_eq_some hv
    exact ⟨row, hrow, htold, hsigned.row key row hkey (liveRow_eq_some.1 hrow).1⟩
  · have hside : p = rzPRecv ∨ p = rzPConf ∨ p = rzPBack ∨ p = rzPXtra := by
      have hmem : p ∈ rzPrefixes := List.mem_of_find?_eq_some hp
      have hsend : p ≠ rzPSend := fun h => hkey (.inl (h ▸ hp))
      have htkt : p ≠ rzPTkt := fun h => hkey (.inr (h ▸ hp))
      simpa [rzPrefixes, hsend, htkt] using hmem
    obtain ⟨created, howner⟩ := (getSessionKey_eq_ok (rzGetHandler_session hp hget)).2 hside
    obtain ⟨token, hbearer, hown⟩ := rzOwner_eq_ok howner
    exact ⟨token, created, hbearer, hown⟩
  · have hread := (getSessionKey_eq_ok (rzGetHandler_session hp hget)).1
    refine ⟨.deleteKeys (sessionKeys sid), ?_, fun t key => lookup_rzDeleteKeys _,
      fun p hp sid' => append_mem_sessionKeys hp⟩
    unfold readSessionKey at hread
    split at hread
    · cases hread
    · obtain rfl : _ = ans := by simpa using hread
      simp

/-- A reply that is there before the ticket is read is left by the reading. -/
def earlyReply : List RzEvent :=
  let token : Bytes := List.replicate 32 7
  [.request (.post rzOwnKey token none), .turn 0,
    .request (.post (rzPBack ++ ['x']) [1] none), .turn 0,
    .request (.post (rzPTkt ++ ['x']) [2] (some token)), .turn 0,
    .request (.get (rzPTkt ++ ['x']) none 0)]

theorem reply_left_earlyReply :
    ¬ ∀ (blake3 : Bytes → Bytes) (clock : Clock) (es : List RzEvent) (i : ℕ) (sid : Key),
      let s := (empty clock).run blake3 es
      s.jobs[i]? = some (.deleteKeys (sessionKeys sid)) → ∀ p ∈ rzPrefixes,
        (s.step blake3 (.turn i)).rows.lookup (p ++ sid) = none := by
  intro h
  have hleft := h id ⟨0, by norm_num⟩ earlyReply 0 ['x'] (by decide +kernel) rzPBack (by decide)
  revert hleft
  decide +kernel

end Arvolo.Relay.Slot
