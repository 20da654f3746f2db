import Arvolo.Lib.Machine
import Arvolo.Relay.Rendezvous

/-!
Which claim of a rendezvous slot its session rows belong to. A session row carries its
own expiry, set when it is posted and pushed out by every poll, and the `own` row carries
another; nothing takes the sessions away when the claim ends. So a later owner inherits
what the earlier one's receivers have posted, where it is still live.
-/

namespace Arvolo.Relay.Slot

open Lib

variable {blake3 : Bytes → Bytes} {s : Slot}

/-- What a listing names, and all the owner can read under it, was posted while the claim
the poll was made under was live. -/
def IsolatedJob (s : Slot) : RzJob → Prop
  | .list claim _ =>
      ∀ sid ∈ s.pendingSids, sid ≠ [] → ∀ p ∈ rzPrefixes, ∀ row ∈ s.liveRow (p ++ sid),
        row.under = some claim
  | _ => True

def Isolated (s : Slot) : RzEvent → Prop
  | .turn i => ∀ job ∈ s.jobs[i]?, s.IsolatedJob job
  | _ => True

/-- A claim lands where no session is left, a session's row lands under a live claim, and a
poll is answered before the next claim. -/
def AloneJob (s : Slot) : RzJob → Prop
  | .write key _ _ _ =>
      s.rows.lookup key = none →
        if key = rzOwnKey then
          ∀ r ∈ s.rows.entries, (rzSessionPrefix r.1).isSome → s.live r.2 = false
        else (rzSessionPrefix key).isSome → (s.liveRow rzOwnKey).isSome
  | .list claim _ => claim = s.claims
  | _ => True

def Alone (s : Slot) : RzEvent → Prop
  | .turn i => ∀ job ∈ s.jobs[i]?, s.AloneJob job
  | _ => True

instance (s : Slot) : DecidablePred s.IsolatedJob
  | .list claim _ => inferInstanceAs (Decidable (∀ sid ∈ s.pendingSids, sid ≠ [] →
      ∀ p ∈ rzPrefixes, ∀ row ∈ s.liveRow (p ++ sid), row.under = some claim))
  | .write .. | .deleteSlot _ | .deleteKeys _ | .touch .. => .isTrue trivial

instance (s : Slot) : DecidablePred s.Isolated
  | .turn i => inferInstanceAs (Decidable (∀ job ∈ s.jobs[i]?, s.IsolatedJob job))
  | .request _ | .reap | .tick _ => .isTrue trivial

instance (s : Slot) : DecidablePred s.AloneJob
  | .write .. => inferInstanceAs (Decidable (_ → _))
  | .list claim _ => inferInstanceAs (Decidable (claim = s.claims))
  | .deleteSlot _ | .deleteKeys _ | .touch .. => .isTrue trivial

instance (s : Slot) : DecidablePred s.Alone
  | .turn i => inferInstanceAs (Decidable (∀ job ∈ s.jobs[i]?, s.AloneJob job))
  | .request _ | .reap | .tick _ => .isTrue trivial

/-- The `own` row is the last claim's, and so are the sessions that are live. -/
structure Inherited (s : Slot) : Prop where
  own (row : RzRow) : s.rows.lookup rzOwnKey = some row → row.under = some s.claims
  session (key : Key) (row : RzRow) : (rzSessionPrefix key).isSome →
    s.liveRow key = some row → row.under = some s.claims

theorem Inherited.liveClaim_eq (h : s.Inherited) (hlive : (s.liveRow rzOwnKey).isSome) :
    s.liveClaim = some s.claims := by
  obtain ⟨row, hrow⟩ := Option.isSome_iff_exists.1 hlive
  simpa [liveClaim, hrow] using h.own row (liveRow_eq_some.1 hrow).1

theorem claims_land_own {value : Bytes} {exp : ℕ} {poster : Poster}
    (h : s.rows.lookup rzOwnKey = none) :
    (s.land rzOwnKey value exp poster).claims = s.claims + 1 := by
  simp [land, h]

theorem claims_land_of_ne {key : Key} {value : Bytes} {exp : ℕ} {poster : Poster}
    (h : key ≠ rzOwnKey) : (s.land key value exp poster).claims = s.claims := by
  simp only [land, h, if_false, rzClaim]
  split <;> rfl

/-- Only a claim that lands is counted. -/
theorem claims_step_of_not_lands {e : RzEvent} (h : ∀ row, ¬ s.Lands e rzOwnKey row) :
    (s.step blake3 e).claims = s.claims := by
  cases e with
  | turn i =>
      simp only [step]
      split
      · next job hjob =>
        rw [claims_setJob]
        cases job with
        | write key value exp poster =>
            by_cases hown : key = rzOwnKey
            · subst hown
              cases hrow : s.rows.lookup rzOwnKey with
              | none => exact absurd ⟨i, value, exp, poster, rfl, hjob, hrow, rfl⟩ (h _)
              | some row => rw [finish, land_of_some hrow]
            · exact claims_land_of_ne hown
        | _ => rfl
      · rfl
  | _ => rfl

theorem ne_own_of_session {key : Key} (h : (rzSessionPrefix key).isSome) : key ≠ rzOwnKey := by
  rintro rfl
  revert h
  decide

theorem Inherited.step (h : s.Inherited) (e : RzEvent) (halone : s.Alone e) :
    (s.step blake3 e).Inherited := by
  by_cases hland : ∃ row, s.Lands e rzOwnKey row
  · obtain ⟨row, i, value, exp, poster, rfl, hjob, hnone, -⟩ := hland
    have hclaims : (s.step blake3 (.turn i)).claims = s.claims + 1 := by
      simp only [Slot.step, hjob, claims_setJob]
      exact claims_land_own hnone
    have hgone : ∀ r ∈ s.rows.entries, (rzSessionPrefix r.1).isSome → s.live r.2 = false := by
      simpa using halone _ hjob hnone
    refine ⟨fun row hrow => ?_, fun key row hkey hrow => ?_⟩
    · rcases lookup_step hrow with ⟨old, hold, -⟩ | ⟨_, value', exp', poster', -, -, -, rfl⟩
      · cases hnone.symm.trans hold
      · simp [landed, hclaims]
    · rcases liveRow_step hrow with ⟨old, hold, -⟩ | ⟨j, value', exp', poster', hij, hjob', -, -⟩
      · obtain ⟨hlookup, hlive⟩ := liveRow_eq_some.1 hold
        have hdead := hgone _ (Table.mem_of_lookup hlookup) hkey
        simp [hdead] at hlive
      · obtain rfl := RzEvent.turn.inj hij
        obtain ⟨rfl, -⟩ := RzJob.write.inj (Option.some.inj (hjob.symm.trans hjob'))
        exact absurd rfl (ne_own_of_session hkey)
  · have hland : ∀ row, ¬ s.Lands e rzOwnKey row := fun row h => hland ⟨row, h⟩
    have hclaims : (s.step blake3 e).claims = s.claims := claims_step_of_not_lands hland
    refine ⟨fun row hrow => ?_, fun key row hkey hrow => ?_⟩
    · rcases lookup_step hrow with ⟨old, hold, exp, rfl⟩ | hlands
      · exact (h.own old hold).trans (congrArg some hclaims.symm)
      · exact absurd hlands (hland row)
    · rcases liveRow_step hrow with ⟨old, hold, exp, rfl⟩ | ⟨i, value, exp, poster, rfl, hjob, hnone, rfl⟩
      · exact (h.session key old hkey hold).trans (congrArg some hclaims.symm)
      · have hne := ne_own_of_session hkey
        have hown : (s.liveRow rzOwnKey).isSome := by
          have := halone _ hjob hnone
          rw [if_neg hne] at this
          exact this hkey
        rw [hclaims, landed, if_neg hne]
        exact h.liveClaim_eq hown

theorem inherited_empty (clock : Clock) : (empty clock).Inherited where
  own row h := by cases (AList.lookup_empty rzOwnKey).symm.trans h
  session key row _ h := by
    cases (AList.lookup_empty key).symm.trans (liveRow_eq_some.1 h).1

/-- A prefix and a session id make a key of that session. -/
theorem rzSessionPrefix_append {p sid : Key} (hp : p ∈ rzPrefixes) (hsid : sid ≠ []) :
    rzSessionPrefix (p ++ sid) = some p := by
  obtain ⟨c, sid, rfl⟩ := List.exists_cons_of_ne_nil hsid
  fin_cases hp <;> rfl

theorem Inherited.isolated (h : s.Inherited) {e : RzEvent} (halone : s.Alone e) : s.Isolated e := by
  cases e with
  | turn i =>
      intro job hjob
      have hjob' := halone job hjob
      cases job with
      | list claim deadline =>
          intro sid _ hsid p hp row hrow
          obtain rfl : claim = s.claims := hjob'
          exact h.session _ row (by rw [rzSessionPrefix_append hp hsid]; rfl) hrow
      | _ => trivial
  | _ => trivial

/-- In a run where the claims follow each other without overlap, a listing names only what
was posted under the claim it is made for. -/
theorem isolated_of_alone (blake3 : Bytes → Bytes) (clock : Clock) (es : List RzEvent)
    (h : Along (step blake3) Alone (empty clock) es) :
    Along (step blake3) Isolated (empty clock) es :=
  Along.imp Inherited (fun _ e _ hs hc => hs.step e hc) (fun _ _ _ hs hc => hs.isolated hc)
    (inherited_empty clock) h

/-- A receiver posts late under one claim; the claim expires and another follows. -/
def inheritedSession : List RzEvent :=
  let a : Bytes := List.replicate 32 7
  let b : Bytes := List.replicate 32 8
  [.request (.post rzOwnKey a none), .turn 0,
    .tick 3000, .request (.post (rzPRecv ++ ['x']) [1] none), .turn 0,
    .tick 600, .reap,
    .request (.post rzOwnKey b none), .turn 0,
    .request (.get rzSessionsKey (some b) 0), .turn 0, .turn 0]

theorem not_isolated_inheritedSession :
    ¬ ∀ (blake3 : Bytes → Bytes) (clock : Clock) (es : List RzEvent),
      Along (step blake3) Isolated (empty clock) es := by
  intro h
  have hrun := h id ⟨0, by norm_num⟩ inheritedSession
  revert hrun
  decide +kernel

/-- Two claims, the second after the first one's session has been collected. -/
def successiveClaims : List RzEvent :=
  let a : Bytes := List.replicate 32 7
  let b : Bytes := List.replicate 32 8
  [.request (.post rzOwnKey a none), .turn 0,
    .request (.post (rzPRecv ++ ['x']) [1] none), .turn 0,
    .request (.post (rzPTkt ++ ['x']) [2] (some a)), .turn 0,
    .request (.get (rzPTkt ++ ['x']) none 0), .turn 0,
    .tick 3600, .reap,
    .request (.post rzOwnKey b none), .turn 0,
    .request (.post (rzPRecv ++ ['y']) [1] none), .turn 0,
    .request (.get rzSessionsKey (some b) 0), .turn 0, .turn 0]

theorem isolated_successiveClaims :
    Along (step id) Isolated (empty ⟨0, by norm_num⟩) successiveClaims :=
  isolated_of_alone id ⟨0, by norm_num⟩ successiveClaims (by decide +kernel)

end Arvolo.Relay.Slot
