import Arvolo.Presence.Acked
import Arvolo.Relay.InboxLadder

/-!
Where an offer is posted, and where it is looked for afterwards: `slot_for_at`,
`inbox_slots_at`, `post_offer`, `offer_status` and `retract_offer` of `core/src/presence.rs`.

A slot lasts for one epoch, and whoever looks for an offer looks in two of them. What holds
this up is that an offer lives no longer than an epoch. The poster finds its offer by going
through the slots until one answers; the recipient has noted down where it read a row.
-/

namespace Arvolo.Presence

open Lib
open Sync (trim)
open Relay (Inbox InboxPrims InboxAnswer InboxEvent InboxRow inboxAt asBytes)

/-! ### Slots -/

section

variable (slotForEpoch : ℕ → String)

def slotForAt (unix : ℕ) : String := slotForEpoch (unix / inboxEpochSecs)

/-- Every slot that can still hold a live row, the current epoch's first. -/
def inboxSlotsAt (unix : ℕ) : List String :=
  [0, 1].foldl (fun out n =>
    let s := slotForEpoch (unix / inboxEpochSecs - n)
    if s ∈ out then out else out ++ [s]) []

end

/-- The time to live that goes with a post, if any does. -/
def clampInboxTtl (ttl : Option ℕ) : Option ℕ := ttl.map fun t => min t inboxEpochSecs

/-- How long the offer lives: the relay has a time of its own for one that says none. -/
def lifetime (ttl : Option ℕ) : ℕ := (clampInboxTtl ttl).getD Relay.inboxTtlSecs

theorem lifetime_le (ttl : Option ℕ) : lifetime ttl ≤ inboxEpochSecs := by
  cases ttl with
  | none => exact (by decide : Relay.inboxTtlSecs ≤ inboxEpochSecs)
  | some t => exact min_le_right t inboxEpochSecs

theorem mem_inboxSlotsAt {slotForEpoch : ℕ → String} {unix : ℕ} {slot : String} :
    slot ∈ inboxSlotsAt slotForEpoch unix ↔ slot = slotForEpoch (unix / inboxEpochSecs) ∨
      slot = slotForEpoch (unix / inboxEpochSecs - 1) := by
  simp only [inboxSlotsAt, List.foldl_cons, List.foldl_nil, List.not_mem_nil, if_false,
    List.nil_append, Nat.sub_zero, List.mem_singleton]
  split_ifs with h
  · rw [List.mem_singleton, h, or_self]
  · rw [List.mem_append, List.mem_singleton, List.mem_singleton]

theorem readSlots_eq {Identity Rand : Type} (r : Reader Identity Rand) (now : ℕ) :
    Client.readSlots r now = inboxSlotsAt r.slotForEpoch now := by
  simp only [Client.readSlots, inboxSlotsAt, List.foldl_cons, List.foldl_nil, List.not_mem_nil,
    if_false, List.nil_append, Nat.sub_zero, List.mem_singleton]
  split_ifs with h
  · rw [h]
  · rfl

/-- Within its life an offer is at most one boundary away. -/
theorem slotForAt_mem (slotForEpoch : ℕ → String) {t t' : ℕ} {ttl : Option ℕ} (hle : t ≤ t')
    (hlt : t' < t + lifetime ttl) :
    slotForAt slotForEpoch t ∈ inboxSlotsAt slotForEpoch t' := by
  have hlife := lifetime_le ttl
  have hlow : t / inboxEpochSecs ≤ t' / inboxEpochSecs := Nat.div_le_div_right hle
  have hhigh : t' / inboxEpochSecs ≤ t / inboxEpochSecs + 1 := by
    calc t' / inboxEpochSecs ≤ (t + inboxEpochSecs) / inboxEpochSecs :=
          Nat.div_le_div_right (by omega)
      _ = t / inboxEpochSecs + 1 := Nat.add_div_right t (by decide)
  rw [mem_inboxSlotsAt, slotForAt]
  rcases Nat.eq_or_lt_of_le hlow with heq | hnext
  · exact .inl (by rw [heq])
  · have hnext : t' / inboxEpochSecs = t / inboxEpochSecs + 1 := le_antisymm hhigh hnext
    exact .inr (by rw [hnext, Nat.add_sub_cancel])

/-! ### The poster -/

inductive OfferStatus
  | pending
  | arrived
  | taken
  | gone
  deriving DecidableEq

/-- What the poster makes of an answer; `none` where the request failed or was refused. -/
def heard : Option InboxAnswer → Option OfferStatus
  | some (.word w) =>
      if trim w = "fetched" then some .arrived
      else if trim w = "taken" then some .taken
      else if trim w = "gone" then some .gone
      else some .pending
  | _ => none

/-- The loop of `offer_status_once`. It goes on while the answer is `gone`, and ends in an
error if it was never answered otherwise and one request failed. -/
def offerStatus (answer : String → Option InboxAnswer) (failed : Bool) :
    List String → Option OfferStatus
  | [] => if failed then none else some .gone
  | slot :: rest =>
      match heard (answer slot) with
      | none => offerStatus answer true rest
      | some .gone => offerStatus answer failed rest
      | some st => some st

/-- The loop of `retract_offer`: the slots that are sent a delete, up to the one where it
was a success. -/
def retractOffer (answer : String → Option InboxAnswer) : List String → List String
  | [] => []
  | slot :: rest =>
      if answer slot = some .noContent then [slot] else slot :: retractOffer answer rest

/-- The walk ends at the slot the offer is in, whatever the others have to say of it. -/
theorem offerStatus_eq {answer : String → Option InboxAnswer} {home : String} {slots : List String}
    (hhome : heard (answer home) ≠ some .gone)
    (hother : ∀ slot, slot ≠ home → heard (answer slot) = none ∨ heard (answer slot) = some .gone)
    (hmem : home ∈ slots) (failed : Bool) :
    offerStatus answer failed slots = heard (answer home) := by
  -- once a request has failed and there is no other news, it is an error
  have hfailed : ∀ rest : List String, heard (answer home) = none →
      offerStatus answer true rest = none := by
    intro rest hnone
    induction rest with
    | nil => rfl
    | cons slot rest ih =>
        rw [offerStatus]
        by_cases heq : slot = home
        · rw [heq, hnone]
          exact ih
        · rcases hother slot heq with h | h
          · rw [h]
            exact ih
          · rw [h]
            exact ih
  induction slots generalizing failed with
  | nil => cases hmem
  | cons slot rest ih =>
      rw [offerStatus]
      by_cases heq : slot = home
      · subst heq
        cases hstatus : heard (answer slot) with
        | none => exact hfailed rest hstatus
        | some st =>
            cases st with
            | gone => exact absurd hstatus hhome
            | pending => rfl
            | arrived => rfl
            | taken => rfl
      · have hrest : home ∈ rest := (List.mem_cons.1 hmem).resolve_left (Ne.symm heq)
        rcases hother slot heq with h | h
        · rw [h]
          exact ih hrest true
        · rw [h]
          exact ih hrest failed

/-- A walk that no other slot brings to an end comes to the slot the offer is in. -/
theorem mem_retractOffer {answer : String → Option InboxAnswer} {home : String}
    {slots : List String} (hother : ∀ slot, slot ≠ home → answer slot ≠ some .noContent)
    (hmem : home ∈ slots) : home ∈ retractOffer answer slots := by
  induction slots with
  | nil => cases hmem
  | cons slot rest ih =>
      rw [retractOffer]
      by_cases heq : slot = home
      · subst heq
        split_ifs
        · exact List.mem_cons_self
        · exact List.mem_cons_self
      · rw [if_neg (hother slot heq)]
        exact List.mem_cons_of_mem _ (ih ((List.mem_cons.1 hmem).resolve_left (Ne.symm heq)))

/-! ### The relay's answers -/

/-- What the poster is told of a row. -/
def told : Relay.InboxStatus → Option OfferStatus
  | .badToken => none
  | .pending => some .pending
  | .arrived => some .arrived
  | .taken => some .taken
  | .gone => some .gone

theorem eq_gone_of_told {st : Relay.InboxStatus} (h : told st = some .gone) : st = .gone := by
  cases st with
  | gone => rfl
  | _ => cases h

/-- The relay answers a status request in this state, however long it was held. -/
def StatusAnswer (p : InboxPrims) (s : Inbox) (slot id token : String) (a : InboxAnswer) : Prop :=
  ∃ now draw since deadline,
    (s.finish p now draw (.status slot id (trim token) since deadline)).2 = .inl a

section

variable {p : InboxPrims} {s : Inbox} {slot id token : String}

theorem StatusAnswer.heard_eq {a : InboxAnswer} (h : StatusAnswer p s slot id token a) :
    heard (some a) = told (s.inboxStatusByPoster p slot id (trim token)) := by
  obtain ⟨now, draw, since, deadline, ha⟩ := h
  rw [Inbox.finish] at ha
  cases hst : s.inboxStatusByPoster p slot id (trim token) with
  | badToken =>
      simp only [hst] at ha
      cases ha
      rfl
  | gone =>
      simp only [hst] at ha
      cases ha
      decide
  | pending | arrived | taken =>
      simp only [hst] at ha
      split_ifs at ha
      cases ha
      decide

theorem inboxStatusByPoster_ne_gone {row : InboxRow} (h : s.rows.lookup (slot, id) = some row) :
    s.inboxStatusByPoster p slot id token ≠ .gone := by
  unfold Inbox.inboxStatusByPoster
  rw [h]
  dsimp only
  split
  · nofun
  · split_ifs <;> nofun

/-- A delete for a row that is not there. -/
theorem receive_delete_of_none (cap now : ℕ) (h : s.rows.lookup (slot, id) = none) :
    s.receive p cap now (.delete slot id (some token) none) = (s, .inl .unauthorized) := by
  have hdel : s.inboxDeleteByPoster p slot id (trim token) = none := by
    rw [Inbox.inboxDeleteByPoster, h]
    rfl
  rw [Inbox.receive, Option.bind_some, hdel]
  rfl

/-- And for one that is there, with the token it was posted under. -/
theorem receive_delete_of_some (cap now : ℕ) {row : InboxRow}
    (h : s.rows.lookup (slot, id) = some row)
    (hhash : row.posterHash = some (p.blake3 (asBytes (trim token)))) :
    s.receive p cap now (.delete slot id (some token) none) =
      ({ s with rows := s.rows.erase (slot, id) }, .inl .noContent) := by
  have hdel : s.inboxDeleteByPoster p slot id (trim token) =
      some { s with rows := s.rows.erase (slot, id) } := by
    rw [Inbox.inboxDeleteByPoster, h, Option.bind_some, hhash]
    exact if_pos rfl
  rw [Inbox.receive, Option.bind_some, hdel]

end

/-! ### A run of the relay -/

section

variable {p : InboxPrims} {cap : ℕ} {secret : List UInt8} {es : List InboxEvent} {k : ℕ}
  {home id token : String}

/-- The poster of a row that is in the slot `home` from event `k` on, going through `slots`
afterwards, each request answered whenever the relay comes to it, or lost. -/
structure PosterReaches (p : InboxPrims) (cap : ℕ) (secret : List UInt8) (es : List InboxEvent)
    (k : ℕ) (home id token : String) (slots : List String) : Prop where
  /-- The status is that of the row. -/
  status : ∀ (n : String → ℕ) (answer : String → Option InboxAnswer), (∀ slot, k ≤ n slot) →
    (∀ slot, ∀ a ∈ answer slot,
      StatusAnswer p (inboxAt p cap secret es (n slot)) slot id token a) →
    (answer home).isSome → (inboxAt p cap secret es (n home)).rows.lookup (home, id) ≠ none →
    offerStatus answer false slots =
      told ((inboxAt p cap secret es (n home)).inboxStatusByPoster p home id (trim token))
  /-- A delete is sent to the slot. -/
  sent : ∀ (n : String → ℕ) (answer : String → Option InboxAnswer), (∀ slot, k ≤ n slot) →
    (∀ slot, ∀ a ∈ answer slot, ∃ now,
      ((inboxAt p cap secret es (n slot)).receive p cap now
        (.delete slot id (some token) none)).2 = .inl a) →
    home ∈ retractOffer answer slots
  /-- There it takes the offer back. -/
  deleted : ∀ n now, k ≤ n → (inboxAt p cap secret es n).rows.lookup (home, id) ≠ none →
    (inboxAt p cap secret es n).receive p cap now (.delete home id (some token) none) =
      ({ inboxAt p cap secret es n with
        rows := (inboxAt p cap secret es n).rows.erase (home, id) }, .inl .noContent)
  /-- Elsewhere it does nothing. -/
  refused : ∀ n now slot, k ≤ n → slot ≠ home →
    (inboxAt p cap secret es n).receive p cap now (.delete slot id (some token) none) =
      (inboxAt p cap secret es n, .inl .unauthorized)

theorem lookup_inboxAt_of_ne {row : InboxRow} {n : ℕ} {slot : String} (hkn : k ≤ n)
    (hrow : (inboxAt p cap secret es k).rows.lookup (home, id) = some row) (hne : slot ≠ home) :
    (inboxAt p cap secret es n).rows.lookup (slot, id) = none := by
  have hempty : (Inbox.empty secret).Single := by
    intro id slot slot' row row' hnone
    rw [Inbox.empty, AList.lookup_empty] at hnone
    cases hnone
  have hsingle : (inboxAt p cap secret es k).Single :=
    Inbox.single_run (Inbox.sound_empty secret) hempty _
  rw [Relay.inboxAt_of_le hkn]
  exact Inbox.lookup_run_of_ne (Relay.sound_inboxAt k) hsingle hrow hne _

theorem poster_reaches {row : InboxRow} {slots : List String}
    (hrow : (inboxAt p cap secret es k).rows.lookup (home, id) = some row)
    (hhash : row.posterHash = some (p.blake3 (asBytes (trim token)))) (hmem : home ∈ slots) :
    PosterReaches p cap secret es k home id token slots where
  status n answer hn hanswer hsome hthere := by
    obtain ⟨a, ha⟩ := Option.isSome_iff_exists.1 hsome
    obtain ⟨row', hrow'⟩ := Option.ne_none_iff_exists'.1 hthere
    have hhome : heard (answer home) =
        told ((inboxAt p cap secret es (n home)).inboxStatusByPoster p home id (trim token)) := by
      rw [ha]
      exact (hanswer home a ha).heard_eq
    rw [← hhome]
    refine offerStatus_eq ?_ (fun slot hne => ?_) hmem false
    · rw [hhome]
      exact fun hgone => inboxStatusByPoster_ne_gone hrow' (eq_gone_of_told hgone)
    · cases hslot : answer slot with
      | none => exact .inl rfl
      | some b =>
          right
          rw [(hanswer slot b hslot).heard_eq, Inbox.inboxStatusByPoster,
            lookup_inboxAt_of_ne (hn slot) hrow hne]
          rfl
  sent n answer hn hanswer := by
    refine mem_retractOffer (fun slot hne hslot => ?_) hmem
    obtain ⟨now, hnow⟩ := hanswer slot .noContent hslot
    rw [receive_delete_of_none cap now (lookup_inboxAt_of_ne (hn slot) hrow hne)] at hnow
    cases hnow
  deleted n now hn hthere := by
    obtain ⟨row', hrow'⟩ := Option.ne_none_iff_exists'.1 hthere
    have hahead := (Relay.ahead_inboxAt hn le_rfl hrow).1
    rw [hrow'] at hahead
    cases hahead with
    | on hsame => exact receive_delete_of_some cap now hrow' (hsame.trans hhash)
  refused n now slot hn hne := receive_delete_of_none cap now (lookup_inboxAt_of_ne hn hrow hne)

end

/-! ### An offer within its life -/

/-- An offer of any time is, while it lives, in a slot that its recipient reads. Its poster
reaches it there, and so does the recipient's ack as long as it is remembered where the row
was read; otherwise the ack goes to the slot of its own epoch. -/
theorem offer_within_reach {Identity Rand : Type} (r : Reader Identity Rand) {t t' : ℕ}
    {ttl : Option ℕ} (hle : t ≤ t') (hlt : t' < t + lifetime ttl) :
    slotForAt r.slotForEpoch t ∈ Client.readSlots r t' ∧
    (∀ p cap secret es k id token row,
      (inboxAt p cap secret es k).rows.lookup (slotForAt r.slotForEpoch t, id) = some row →
      row.posterHash = some (p.blake3 (asBytes (trim token))) →
      PosterReaches p cap secret es k (slotForAt r.slotForEpoch t) id token
        (inboxSlotsAt r.slotForEpoch t')) ∧
    ∀ events before id slot now after,
      (Client.fresh.run r events).log = before ++ .ack id slot now :: after →
      Client.LivesIn before id (slotForAt r.slotForEpoch t) →
      (Client.Remembered before id → slot = slotForAt r.slotForEpoch t) ∧
      (¬ Client.Remembered before id → slot = slotForAt r.slotForEpoch now) := by
  have hmem := slotForAt_mem r.slotForEpoch hle hlt
  refine ⟨by rwa [readSlots_eq], fun p cap secret es k id token row hrow hhash =>
    poster_reaches hrow hhash hmem, fun events before id slot now after hlog hlives => ?_⟩
  obtain ⟨hremembered, hforgotten⟩ := Client.ack_slot r hlog
  exact ⟨fun hrem => hremembered hrem _ hlives, hforgotten⟩

theorem offer_within_reach_noon :
    slotForAt Client.plainReader.slotForEpoch (Client.noon - 1) ∈
      Client.readSlots Client.plainReader Client.noon := by
  have hlt : Client.noon < Client.noon - 1 + lifetime (some 60) := by decide
  exact (offer_within_reach Client.plainReader (Nat.sub_le _ _) hlt).1

/-- An offer of the last second of an epoch, and a recipient who reads more than 1024 rows
beside it in the first of the next. -/
theorem not_ack_within_reach :
    Client.noon < Client.noon - 1 + lifetime (some 60) ∧
    ∃ before after, (Client.fresh.run Client.plainReader Client.crowded).log =
        before ++ .ack "rr" (slotForAt Client.plainReader.slotForEpoch Client.noon) Client.noon ::
          after ∧
      Client.Delivered before "rr" ∧
      (∃ ids, .listed (slotForAt Client.plainReader.slotForEpoch (Client.noon - 1)) ids ∈ before ∧
        "rr" ∈ ids) ∧
      slotForAt Client.plainReader.slotForEpoch Client.noon ≠
        slotForAt Client.plainReader.slotForEpoch (Client.noon - 1) := by
  have hposted : slotForAt Client.plainReader.slotForEpoch (Client.noon - 1) = "a" := by decide
  have hcurrent : slotForAt Client.plainReader.slotForEpoch Client.noon = "b" := by decide
  rw [hposted, hcurrent]
  obtain ⟨before, after, hlog, hdelivered, hlisted, -⟩ := Client.ack_crowded
  exact ⟨by decide, before, after, hlog, hdelivered, hlisted, by decide⟩

end Arvolo.Presence
