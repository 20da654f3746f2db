import Arvolo.Relay.Limits

/-!
What the limiters come to: the windows of an address, and what it is allowed in each.

A request that the limiter has a record for is answered as if no record was ever dropped;
the others it lets pass.
-/

namespace Arvolo.Relay

open Lib

section

variable {Ip : Type} [DecidableEq Ip] {Q ρ ω : Type}

/-! ### What a record of the rendezvous keeps -/

/-- The caps of a relay. -/
structure RzCaps where
  posts : ℕ
  slots : ℕ
  claims : ℕ

/-- What goes for the cap of posts. -/
def RzCaps.postCap (caps : RzCaps) : RzAction → ℕ
  | .claim => caps.claims
  | _ => caps.posts

/-- The cap of what an action asks for. -/
def RzCaps.capOf (caps : RzCaps) : RzAction → ℕ
  | .post => caps.posts
  | .getSlot _ => caps.slots
  | .claim => caps.claims

def rzLimiter (caps : RzCaps) : Limiter Ip RzAction RzIpWindow := fun t r =>
  rzRateLimit t r.ip r.query r.now (caps.postCap r.query) caps.slots

/-- The minute of a record, and its hour where the action looks at that. -/
def rzWindows : RzAction → RzIpWindow → ℕ × ℕ
  | .claim, w => (w.windowStart, w.claimWindowStart)
  | _, w => (w.windowStart, 0)

namespace RzIpWindow

variable {now postCap slotCap : ℕ} {w w' : RzIpWindow}

/-- The same minute with the same in it, and the same hour, each unless it is over. -/
structure Alike (now : ℕ) (w w' : RzIpWindow) : Prop where
  minute : (w.windowStart = w'.windowStart ∧ w.posts = w'.posts ∧ w.slots = w'.slots) ∨
    w.windowStart + rzLimiterWindowSecs ≤ now ∧ w'.windowStart + rzLimiterWindowSecs ≤ now
  hour : (w.claimWindowStart = w'.claimWindowStart ∧ w.claims = w'.claims) ∨
    w.claimWindowStart + rzClaimWindowSecs ≤ now ∧ w'.claimWindowStart + rzClaimWindowSecs ≤ now

theorem Alike.refl (now : ℕ) (w : RzIpWindow) : Alike now w w :=
  ⟨.inl ⟨rfl, rfl, rfl⟩, .inl ⟨rfl, rfl⟩⟩

theorem Alike.later (h : Alike now w w') {now' : ℕ} (hle : now ≤ now') : Alike now' w w' :=
  ⟨h.minute.imp_right fun ⟨h₁, h₂⟩ => ⟨h₁.trans hle, h₂.trans hle⟩,
    h.hour.imp_right fun ⟨h₁, h₂⟩ => ⟨h₁.trans hle, h₂.trans hle⟩⟩

theorem live_eq_false : w.live now = false ↔ w.windowStart + rzLimiterWindowSecs ≤ now ∧
    w.claimWindowStart + rzClaimWindowSecs ≤ now := by
  simp [live]

/-- Where both windows are over, a new record is as good. -/
theorem Alike.fresh (hidle : w.live now = false) (h : Alike now w w') : Alike now {} w' := by
  obtain ⟨hminute, hhour⟩ := live_eq_false.1 hidle
  have hfresh : rzLimiterWindowSecs ≤ now ∧ rzClaimWindowSecs ≤ now := by omega
  constructor
  · refine .inr ⟨(Nat.zero_add _).trans_le hfresh.1, ?_⟩
    exact h.minute.elim (fun hsame => hsame.1 ▸ hminute) (·.2)
  · refine .inr ⟨(Nat.zero_add _).trans_le hfresh.2, ?_⟩
    exact h.hour.elim (fun hsame => hsame.1 ▸ hhour) (·.2)

theorem roll_hour (w : RzIpWindow) (now : ℕ) :
    (w.roll now).claimWindowStart = w.claimWindowStart ∧ (w.roll now).claims = w.claims := by
  unfold RzIpWindow.roll
  split_ifs
  · exact ⟨rfl, rfl⟩
  · exact ⟨rfl, rfl⟩

/-- A minute that is rolled is the same one in both. -/
theorem Alike.roll (h : Alike now w w') : Alike now (w.roll now) (w'.roll now) ∧
    (w.roll now).windowStart = (w'.roll now).windowStart ∧
      (w.roll now).posts = (w'.roll now).posts ∧ (w.roll now).slots = (w'.roll now).slots := by
  have hsame : (w.roll now).windowStart = (w'.roll now).windowStart ∧
      (w.roll now).posts = (w'.roll now).posts ∧ (w.roll now).slots = (w'.roll now).slots := by
    rcases h.minute with ⟨hstart, hposts, hslots⟩ | ⟨hover, hover'⟩
    · unfold RzIpWindow.roll
      rw [hstart]
      split_ifs
      · exact ⟨rfl, rfl, rfl⟩
      · exact ⟨hstart, hposts, hslots⟩
    · rw [RzIpWindow.roll, RzIpWindow.roll, if_pos hover, if_pos hover']
      exact ⟨rfl, rfl, rfl⟩
  refine ⟨⟨.inl hsame, ?_⟩, hsame⟩
  rw [(w.roll_hour now).1, (w.roll_hour now).2, (w'.roll_hour now).1, (w'.roll_hour now).2]
  exact h.hour

theorem rollClaims_minute (w : RzIpWindow) (now : ℕ) :
    (w.rollClaims now).windowStart = w.windowStart ∧ (w.rollClaims now).posts = w.posts ∧
      (w.rollClaims now).slots = w.slots := by
  unfold RzIpWindow.rollClaims
  split_ifs
  · exact ⟨rfl, rfl, rfl⟩
  · exact ⟨rfl, rfl, rfl⟩

theorem Alike.rollClaims (h : Alike now w w') :
    (w.rollClaims now).claimWindowStart = (w'.rollClaims now).claimWindowStart ∧
      (w.rollClaims now).claims = (w'.rollClaims now).claims := by
  rcases h.hour with ⟨hstart, hclaims⟩ | ⟨hover, hover'⟩
  · unfold RzIpWindow.rollClaims
    rw [hstart]
    split_ifs
    · exact ⟨rfl, rfl⟩
    · exact ⟨hstart, hclaims⟩
  · rw [RzIpWindow.rollClaims, RzIpWindow.rollClaims, if_pos hover, if_pos hover']
    exact ⟨rfl, rfl⟩

/-- Records that are alike, in one minute, answer alike. -/
theorem Alike.charge (h : Alike now w w') (hsame : w.windowStart = w'.windowStart ∧
    w.posts = w'.posts ∧ w.slots = w'.slots) (q : RzAction) :
    (w.charge now postCap slotCap q).2 = (w'.charge now postCap slotCap q).2 ∧
      rzWindows q (w.charge now postCap slotCap q).1 =
        rzWindows q (w'.charge now postCap slotCap q).1 ∧
      Alike now (w.charge now postCap slotCap q).1 (w'.charge now postCap slotCap q).1 := by
  obtain ⟨hstart, hposts, hslots⟩ := hsame
  cases q with
  | post =>
      simp only [RzIpWindow.charge, rzWindows, hposts]
      split_ifs
      · exact ⟨rfl, by rw [hstart], h⟩
      · exact ⟨rfl, by rw [hstart], .inl ⟨hstart, rfl, hslots⟩, h.hour⟩
  | getSlot slot =>
      simp only [RzIpWindow.charge, rzWindows, hslots]
      split_ifs
      · exact ⟨rfl, by rw [hstart], h⟩
      · exact ⟨rfl, by rw [hstart], h⟩
      · exact ⟨rfl, by rw [hstart], .inl ⟨hstart, hposts, rfl⟩, h.hour⟩
  | claim =>
      have hminute := w.rollClaims_minute now
      have hminute' := w'.rollClaims_minute now
      obtain ⟨hclaimStart, hclaims⟩ := h.rollClaims
      have halike : Alike now (w.rollClaims now) (w'.rollClaims now) :=
        ⟨.inl ⟨by rw [hminute.1, hminute'.1, hstart], by rw [hminute.2.1, hminute'.2.1, hposts],
          by rw [hminute.2.2, hminute'.2.2, hslots]⟩, .inl ⟨hclaimStart, hclaims⟩⟩
      simp only [RzIpWindow.charge, rzWindows, hclaims]
      split_ifs
      · exact ⟨rfl, by rw [hminute.1, hminute'.1, hstart, hclaimStart], halike⟩
      · exact ⟨rfl, by rw [hminute.1, hminute'.1, hstart, hclaimStart],
          halike.minute, .inl ⟨hclaimStart, rfl⟩⟩

theorem charge_minute (q : RzAction) :
    (w.charge now postCap slotCap q).1.windowStart = w.windowStart := by
  cases q with
  | post =>
      simp only [RzIpWindow.charge]
      split_ifs <;> rfl
  | getSlot slot =>
      simp only [RzIpWindow.charge]
      split_ifs <;> rfl
  | claim =>
      simp only [RzIpWindow.charge]
      split_ifs <;> exact (w.rollClaims_minute now).1

/-- No request but a claim changes what is kept of the claims. -/
theorem charge_hour {q : RzAction} (hq : q ≠ .claim) :
    (w.charge now postCap slotCap q).1.claimWindowStart = w.claimWindowStart ∧
      (w.charge now postCap slotCap q).1.claims = w.claims := by
  cases q with
  | post =>
      simp only [RzIpWindow.charge]
      split_ifs <;> exact ⟨rfl, rfl⟩
  | getSlot slot =>
      simp only [RzIpWindow.charge]
      split_ifs <;> exact ⟨rfl, rfl⟩
  | claim => exact absurd rfl hq

/-- And a claim rolls the hour. -/
theorem charge_claim_hour :
    (w.charge now postCap slotCap .claim).1.claimWindowStart =
      (w.rollClaims now).claimWindowStart := by
  simp only [RzIpWindow.charge]
  split_ifs <;> rfl

end RzIpWindow

/-- What is kept of an address at the rendezvous. -/
def rzKeeper (caps : RzCaps) : Keeper RzIpWindow RzAction (Except String Unit × ℕ × ℕ) where
  fresh := {}
  serve q now w :=
    let r := (w.roll now).charge now (caps.postCap q) caps.slots q
    (r.1, r.2, rzWindows q r.1)
  idle now w := !w.live now
  Alike := RzIpWindow.Alike
  alike_refl := RzIpWindow.Alike.refl
  later h hle := h.later hle
  forget hidle h := h.fresh (by simpa using hidle)
  serve_alike q h := by
    obtain ⟨halike, hsame⟩ := h.roll
    obtain ⟨hanswer, hwindows, hafter⟩ := halike.charge hsame q
    exact ⟨Prod.ext hanswer hwindows, hafter⟩

/-- The memory guard, and what is done where it leaves room. -/
theorem guard_eq (K : Keeper ρ Q ω) (serve : Table Ip ρ → Table Ip ρ × Except String Unit)
    (t : Table Ip ρ) (a : Timed Ip Q) {live : ρ → Bool} (hlive : ∀ w, K.idle a.now w = !live w) :
    (if maxRzLimiterIps ≤ t.entries.length ∧ t.lookup a.key = none then
      let limiter := retain live t
      if maxRzLimiterIps ≤ limiter.entries.length then (limiter, .ok ()) else serve limiter
    else serve t) =
    if (K.makeRoom maxRzLimiterIps t a).2 = true then serve (K.makeRoom maxRzLimiterIps t a).1
    else ((K.makeRoom maxRzLimiterIps t a).1, .ok ()) := by
  have hretain : retain live t = K.dropIdle a.now t := by
    rw [retain, Keeper.dropIdle, funext hlive]
  unfold Keeper.makeRoom
  by_cases hfull : maxRzLimiterIps ≤ t.entries.length ∧ t.lookup a.key = none
  · rw [if_pos hfull, if_pos hfull, hretain]
    by_cases hstill : maxRzLimiterIps ≤ (K.dropIdle a.now t).entries.length
    · simp only [if_pos hstill, decide_eq_false (not_lt.2 hstill), Bool.false_eq_true, if_false]
    · simp only [if_neg hstill, decide_eq_true (not_le.1 hstill), if_true]
  · rw [if_neg hfull, if_neg hfull, if_pos rfl]

theorem rzLimiter_guards (caps : RzCaps) :
    (rzLimiter caps : Limiter Ip RzAction RzIpWindow).Guards (rzKeeper caps) rzWindows where
  unknown _ _ _ := rfl
  known t ip q now := guard_eq (rzKeeper caps)
    (fun t => rzAdmit t ip q now (caps.postCap q) caps.slots) t ⟨ip, q, now⟩ fun _ => rfl
  windows_eq _ _ _ := rfl

/-! ### Its two windows -/

variable (caps : RzCaps)

def rzMinute : Keeper.Meter (rzKeeper caps) rzLimiterWindowSecs where
  start := RzIpWindow.windowStart
  opens _ := true
  opened a := a.2.1
  start_fresh := rfl
  start_serve q now w := by
    rw [rzKeeper, RzIpWindow.charge_minute, RzIpWindow.roll]
    split_ifs <;> simp_all
  opened_serve q now w _ := by cases q <;> rfl

def rzHour : Keeper.Meter (rzKeeper caps) rzClaimWindowSecs where
  start := RzIpWindow.claimWindowStart
  opens q := decide (q = .claim)
  opened a := a.2.2
  start_fresh := rfl
  start_serve q now w := by
    by_cases hq : q = .claim
    · subst hq
      rw [rzKeeper, RzIpWindow.charge_claim_hour, RzIpWindow.rollClaims, (w.roll_hour now).1]
      split_ifs <;> simp_all [w.roll_hour]
    · rw [rzKeeper, (RzIpWindow.charge_hour hq).1, (w.roll_hour now).1]
      simp [hq]
  opened_serve q now w h := by
    rw [of_decide_eq_true h]
    rfl

/-- An accepted post, an accepted claim, and the slot of an accepted read. -/
def posted (x : RzAction × Except String Unit × ℕ × ℕ) : Bool :=
  decide (x.1 = .post) && x.2.1.isOk

def claimed (x : RzAction × Except String Unit × ℕ × ℕ) : Bool :=
  decide (x.1 = .claim) && x.2.1.isOk

def readSlot (x : RzAction × Except String Unit × ℕ × ℕ) : Finset String :=
  match x.1, x.2.1 with
  | .getSlot slot, .ok () => {slot}
  | _, _ => ∅

variable {caps}

namespace RzIpWindow

variable {now postCap slotCap : ℕ} {w : RzIpWindow}

theorem charge_posts (q : RzAction) (windows : ℕ × ℕ) :
    (w.charge now postCap slotCap q).1.posts = w.posts +
      if posted (q, (w.charge now postCap slotCap q).2, windows) = true then 1 else 0 := by
  cases q with
  | post =>
      simp only [RzIpWindow.charge]
      split_ifs <;> simp_all [posted, Except.isOk, Except.toBool]
  | getSlot slot =>
      simp only [RzIpWindow.charge]
      split_ifs <;> simp_all [posted]
  | claim =>
      simp only [RzIpWindow.charge]
      split_ifs <;> simp_all [posted, w.rollClaims_minute now]

theorem charge_posts_le {q : RzAction} {cap : ℕ} (hpos : 0 < cap) (hle : w.posts ≤ cap)
    (hcap : q ≠ .claim → postCap = cap) :
    (w.charge now postCap slotCap q).1.posts ≤ cap := by
  cases q with
  | post =>
      obtain rfl := hcap (by simp)
      simp only [RzIpWindow.charge]
      split_ifs with hfull
      · exact hle
      · exact Nat.lt_of_not_le fun h => hfull ⟨hpos, h⟩
  | getSlot slot =>
      simp only [RzIpWindow.charge]
      split_ifs <;> exact hle
  | claim =>
      simp only [RzIpWindow.charge]
      split_ifs <;> exact (w.rollClaims_minute now).2.1.trans_le hle

theorem charge_slots (q : RzAction) (windows : ℕ × ℕ) :
    (w.charge now postCap slotCap q).1.slots =
      w.slots ∪ readSlot (q, (w.charge now postCap slotCap q).2, windows) := by
  cases q with
  | post =>
      simp only [RzIpWindow.charge]
      split_ifs <;> simp [readSlot]
  | getSlot slot =>
      simp only [RzIpWindow.charge]
      split_ifs with hmem hfull
      · simp [readSlot, hmem]
      · simp [readSlot]
      · exact (Finset.insert_eq slot w.slots).trans (Finset.union_comm ..)
  | claim =>
      simp only [RzIpWindow.charge]
      split_ifs <;> simp [readSlot, w.rollClaims_minute now]

theorem charge_slots_le (q : RzAction) (hpos : 0 < slotCap) (hle : w.slots.card ≤ slotCap) :
    (w.charge now postCap slotCap q).1.slots.card ≤ slotCap := by
  cases q with
  | post =>
      simp only [RzIpWindow.charge]
      split_ifs <;> exact hle
  | getSlot slot =>
      simp only [RzIpWindow.charge]
      split_ifs with hmem hfull
      · exact hle
      · exact hle
      · rw [Finset.card_insert_of_notMem hmem]
        exact Nat.lt_of_not_le fun h => hfull ⟨hpos, h⟩
  | claim =>
      simp only [RzIpWindow.charge]
      split_ifs <;> rwa [(w.rollClaims_minute now).2.2]

theorem charge_claims (windows : ℕ × ℕ) :
    (w.charge now postCap slotCap .claim).1.claims = (w.rollClaims now).claims +
      if claimed (.claim, (w.charge now postCap slotCap .claim).2, windows) = true
        then 1 else 0 := by
  simp only [RzIpWindow.charge]
  split_ifs <;> simp_all [claimed, Except.isOk, Except.toBool]

theorem charge_claims_le (hpos : 0 < postCap) (hle : w.claims ≤ postCap) :
    (w.charge now postCap slotCap .claim).1.claims ≤ postCap := by
  simp only [RzIpWindow.charge]
  split_ifs with hfull
  · unfold rollClaims
    split_ifs
    · exact Nat.zero_le _
    · exact hle
  · exact Nat.lt_of_not_le fun h => hfull ⟨hpos, h⟩

end RzIpWindow

theorem RzIpWindow.roll_of_lt {now : ℕ} {w : RzIpWindow}
    (h : now < w.windowStart + rzLimiterWindowSecs) : w.roll now = w := by
  rw [RzIpWindow.roll, if_neg (not_le.2 h)]

theorem RzIpWindow.roll_of_le {now : ℕ} {w : RzIpWindow}
    (h : w.windowStart + rzLimiterWindowSecs ≤ now) :
    (w.roll now).posts = 0 ∧ (w.roll now).slots = ∅ := by
  rw [RzIpWindow.roll, if_pos h]
  exact ⟨rfl, rfl⟩

theorem RzIpWindow.rollClaims_of_lt {now : ℕ} {w : RzIpWindow}
    (h : now < w.claimWindowStart + rzClaimWindowSecs) : w.rollClaims now = w := by
  rw [RzIpWindow.rollClaims, if_neg (not_le.2 h)]

theorem rzKeeper_serve (q : RzAction) (now : ℕ) (w : RzIpWindow) :
    (rzKeeper caps).serve q now w =
      (((w.roll now).charge now (caps.postCap q) caps.slots q).1,
        ((w.roll now).charge now (caps.postCap q) caps.slots q).2,
        rzWindows q ((w.roll now).charge now (caps.postCap q) caps.slots q).1) := rfl

theorem RzIpWindow.roll_posts_le (now : ℕ) (w : RzIpWindow) :
    (w.roll now).posts ≤ w.posts ∧ (w.roll now).slots ⊆ w.slots := by
  unfold RzIpWindow.roll
  split_ifs
  · exact ⟨Nat.zero_le _, Finset.empty_subset _⟩
  · exact ⟨le_rfl, Finset.Subset.refl _⟩

/-- The posts of the minute. -/
def rzPosts (hpos : 0 < caps.posts) : (rzMinute caps).Account ℕ where
  of := RzIpWindow.posts
  Ok n := n ≤ caps.posts
  Holds l n := l.countP posted = n
  ok_fresh := Nat.zero_le _
  holds_fresh := rfl
  ok_serve q now w hok := RzIpWindow.charge_posts_le hpos
    ((w.roll_posts_le now).1.trans hok) fun hq => by cases q <;> trivial
  holds_same q now w h := absurd h (by simp [rzMinute])
  holds_opened q now w _ hover := by
    rw [rzKeeper_serve, RzIpWindow.charge_posts q (rzWindows q _), (w.roll_of_le hover).1,
      Nat.zero_add]
    exact List.countP_singleton
  holds_open q now w l _ hopen hl := by
    rw [rzKeeper_serve, List.countP_append, hl, w.roll_of_lt hopen,
      RzIpWindow.charge_posts q (rzWindows q _)]
    exact congrArg _ List.countP_singleton

/-- The slots that are read in it. -/
def rzSlots (hpos : 0 < caps.slots) : (rzMinute caps).Account (Finset String) where
  of := RzIpWindow.slots
  Ok set := set.card ≤ caps.slots
  Holds l set := ∀ x ∈ l, readSlot x ⊆ set
  ok_fresh := Nat.zero_le _
  holds_fresh x hx := absurd hx List.not_mem_nil
  ok_serve q now w hok := RzIpWindow.charge_slots_le q hpos
    ((Finset.card_le_card (w.roll_posts_le now).2).trans hok)
  holds_same q now w h := absurd h (by simp [rzMinute])
  holds_opened q now w _ hover x hx := by
    rw [List.mem_singleton.1 hx, rzKeeper_serve, RzIpWindow.charge_slots q (rzWindows q _)]
    exact Finset.subset_union_right
  holds_open q now w l _ hopen hl x hx := by
    rw [rzKeeper_serve, w.roll_of_lt hopen, RzIpWindow.charge_slots q (rzWindows q _)]
    rcases List.mem_append.1 hx with hold | hnew
    · exact (hl x hold).trans Finset.subset_union_left
    · rw [List.mem_singleton.1 hnew, rzKeeper_serve, w.roll_of_lt hopen]
      exact Finset.subset_union_right

/-- The claims of the hour. -/
def rzClaims (hpos : 0 < caps.claims) : (rzHour caps).Account ℕ where
  of := RzIpWindow.claims
  Ok n := n ≤ caps.claims
  Holds l n := l.countP claimed = n
  ok_fresh := Nat.zero_le _
  holds_fresh := rfl
  ok_serve q now w hok := by
    have hroll := (w.roll_hour now).2.trans_le hok
    rw [rzKeeper_serve]
    by_cases hq : q = .claim
    · subst hq
      exact RzIpWindow.charge_claims_le hpos hroll
    · rwa [(RzIpWindow.charge_hour hq).2]
  holds_same q now w h := by
    rw [rzKeeper_serve, (RzIpWindow.charge_hour (of_decide_eq_false h)).2, (w.roll_hour now).2]
  holds_opened q now w hq hover := by
    obtain rfl := of_decide_eq_true hq
    have hrolled : ((w.roll now).rollClaims now).claims = 0 := by
      rw [RzIpWindow.rollClaims, if_pos ((w.roll_hour now).1.symm ▸ hover)]
    rw [rzKeeper_serve, RzIpWindow.charge_claims (rzWindows .claim _), hrolled, Nat.zero_add]
    exact List.countP_singleton
  holds_open q now w l hq hopen hl := by
    obtain rfl := of_decide_eq_true hq
    have hrolled : ((w.roll now).rollClaims now).claims = w.claims := by
      rw [RzIpWindow.rollClaims_of_lt ((w.roll_hour now).1.symm ▸ hopen), (w.roll_hour now).2]
    rw [rzKeeper_serve, RzIpWindow.charge_claims (rzWindows .claim _), hrolled,
      List.countP_append, hl]
    exact congrArg _ List.countP_singleton

/-! ### What a record of the writes keeps -/

variable {cap : ℕ}

def writeLimiter (cap : ℕ) : Limiter Ip Unit WriteIpWindow := fun t r =>
  writeRateLimit t r.ip r.now cap

namespace WriteIpWindow

variable {now : ℕ} {w w' : WriteIpWindow}

def Alike (now : ℕ) (w w' : WriteIpWindow) : Prop :=
  w = w' ∨ w.windowStart + rzLimiterWindowSecs ≤ now ∧ w'.windowStart + rzLimiterWindowSecs ≤ now

theorem Alike.roll (h : Alike now w w') : w.roll now = w'.roll now := by
  rcases h with rfl | ⟨hover, hover'⟩
  · rfl
  · rw [WriteIpWindow.roll, WriteIpWindow.roll, if_pos hover, if_pos hover']

theorem charge_windowStart : (w.charge cap).1.windowStart = w.windowStart := by
  unfold WriteIpWindow.charge
  split_ifs <;> rfl

theorem charge_writes (window : ℕ) : (w.charge cap).1.writes =
    w.writes + if ((w.charge cap).2, window).1.isOk = true then 1 else 0 := by
  unfold WriteIpWindow.charge
  split_ifs <;> simp_all [Except.isOk, Except.toBool]

theorem charge_writes_le (hle : w.writes ≤ cap) : (w.charge cap).1.writes ≤ cap := by
  unfold WriteIpWindow.charge
  split_ifs with hfull
  · exact hle
  · exact Nat.lt_of_not_le hfull

end WriteIpWindow

/-- What is kept of an address that writes. -/
def writeKeeper (cap : ℕ) : Keeper WriteIpWindow Unit (Except String Unit × ℕ) where
  fresh := {}
  serve _ now w :=
    let r := (w.roll now).charge cap
    (r.1, r.2, r.1.windowStart)
  idle now w := !w.live now
  Alike := WriteIpWindow.Alike
  alike_refl _ _ := .inl rfl
  later h hle := h.imp_right fun ⟨h₁, h₂⟩ => ⟨h₁.trans hle, h₂.trans hle⟩
  forget {now w w'} hidle h := by
    have hover : w.windowStart + rzLimiterWindowSecs ≤ now := by
      simpa [WriteIpWindow.live] using hidle
    have hover' : w'.windowStart + rzLimiterWindowSecs ≤ now :=
      h.elim (fun hsame => hsame ▸ hover) (·.2)
    exact .inr ⟨(Nat.add_le_add_right (Nat.zero_le _) _).trans hover, hover'⟩
  serve_alike _ h := by
    simp only [h.roll]
    exact ⟨trivial, .inl rfl⟩

theorem writeKeeper_serve (q : Unit) (now : ℕ) (w : WriteIpWindow) :
    (writeKeeper cap).serve q now w = (((w.roll now).charge cap).1,
      ((w.roll now).charge cap).2, ((w.roll now).charge cap).1.windowStart) := rfl

def writeWindow (_ : Unit) (w : WriteIpWindow) : ℕ := w.windowStart

theorem writeLimiter_guards (hcap : cap ≠ 0) :
    (writeLimiter cap : Limiter Ip Unit WriteIpWindow).Guards (writeKeeper cap) writeWindow where
  unknown t q now := by rw [writeLimiter, writeRateLimit, if_neg hcap]
  known t ip q now := by
    rw [writeLimiter, writeRateLimit, if_neg hcap]
    exact guard_eq (writeKeeper cap) (fun t => writeAdmit t ip now cap) t ⟨ip, q, now⟩
      fun _ => rfl
  windows_eq _ _ _ := rfl

def writeMinute (cap : ℕ) : Keeper.Meter (writeKeeper cap) rzLimiterWindowSecs where
  start := WriteIpWindow.windowStart
  opens _ := true
  opened a := a.2
  start_fresh := rfl
  start_serve q now w := by
    rw [writeKeeper_serve, WriteIpWindow.charge_windowStart, WriteIpWindow.roll]
    split_ifs <;> simp_all
  opened_serve _ _ _ _ := rfl

/-- An accepted write. -/
def written (x : Unit × Except String Unit × ℕ) : Bool := x.2.1.isOk

def writes (cap : ℕ) : (writeMinute cap).Account ℕ where
  of := WriteIpWindow.writes
  Ok n := n ≤ cap
  Holds l n := l.countP written = n
  ok_fresh := Nat.zero_le _
  holds_fresh := rfl
  ok_serve q now w hok := by
    refine WriteIpWindow.charge_writes_le ?_
    unfold WriteIpWindow.roll
    split_ifs
    · exact Nat.zero_le _
    · exact hok
  holds_same q now w h := absurd h (by simp [writeMinute])
  holds_opened q now w _ hover := by
    have hrolled : (w.roll now).writes = 0 := by
      rw [WriteIpWindow.roll]
      exact congrArg _ (if_pos hover)
    rw [writeKeeper_serve, WriteIpWindow.charge_writes (WriteIpWindow.windowStart _), hrolled,
      Nat.zero_add]
    exact List.countP_singleton
  holds_open q now w l _ hopen hl := by
    have hrolled : w.roll now = w := by
      rw [WriteIpWindow.roll]
      exact if_neg (not_le.2 hopen)
    rw [writeKeeper_serve, List.countP_append, hl, hrolled,
      WriteIpWindow.charge_writes (WriteIpWindow.windowStart _)]
    exact congrArg _ List.countP_singleton

/-! ### The limiters -/

/-- In its hour no request takes anything off what a record counts of the claims. -/
theorem RzIpWindow.claims_le_charge {now postCap slotCap : ℕ} {w : RzIpWindow}
    (h : now < w.claimWindowStart + rzClaimWindowSecs) (q : RzAction) :
    ((w.roll now).charge now postCap slotCap q).1.claimWindowStart = w.claimWindowStart ∧
      w.claims ≤ ((w.roll now).charge now postCap slotCap q).1.claims := by
  obtain ⟨hstart, hclaims⟩ := w.roll_hour now
  by_cases hq : q = .claim
  · subst hq
    have hrolled := RzIpWindow.rollClaims_of_lt (w := w.roll now) (hstart.symm ▸ h)
    rw [RzIpWindow.charge_claim_hour, RzIpWindow.charge_claims (0, 0), hrolled]
    exact ⟨hstart, hclaims.ge.trans (Nat.le_add_right _ _)⟩
  · rw [(RzIpWindow.charge_hour hq).1, (RzIpWindow.charge_hour hq).2]
    exact ⟨hstart, hclaims.ge⟩

/-- Nor does the memory guard drop it. -/
theorem lookup_makeRoom {K : Keeper ρ Q ω} {t : Table Ip ρ} {a : Timed Ip Q} {k : Ip} {w : ρ}
    (h : t.lookup k = some w) (hlive : K.idle a.now w = false) :
    (K.makeRoom maxRzLimiterIps t a).1.lookup k = some w := by
  unfold Keeper.makeRoom
  split_ifs
  · rw [Keeper.lookup_dropIdle, h]
    simp [Option.filter, hlive]
  · exact h

theorem claims_le_rzLimiter (caps : RzCaps) (t : Table Ip RzIpWindow) (r : Request Ip RzAction)
    {k : Ip} {w : RzIpWindow} (h : t.lookup k = some w)
    (hhour : r.now < w.claimWindowStart + rzClaimWindowSecs) :
    ∃ w', (rzLimiter caps t r).1.lookup k = some w' ∧
      w'.claimWindowStart = w.claimWindowStart ∧ w.claims ≤ w'.claims := by
  obtain ⟨ip, q, now⟩ := r
  cases ip with
  | none => exact ⟨w, h, rfl, le_rfl⟩
  | some ip =>
      have hlive : (rzKeeper caps).idle now w = false := by
        simp [rzKeeper, RzIpWindow.live, hhour]
      have hkept := lookup_makeRoom (a := ⟨ip, q, now⟩) h hlive
      rw [(rzLimiter_guards caps).known]
      split_ifs
      · rw [Table.lookup_insert_eq]
        by_cases hk : k = ip
        · subst hk
          rw [if_pos rfl, Keeper.record, hkept]
          exact ⟨_, rfl, RzIpWindow.claims_le_charge hhour q⟩
        · rw [if_neg hk]
          exact ⟨w, hkept, rfl, le_rfl⟩
      · exact ⟨w, hkept, rfl, le_rfl⟩

theorem RzIpWindow.charge_of_no_cap {now : ℕ} {w : RzIpWindow} {caps : RzCaps} {q : RzAction}
    (h : caps.capOf q = 0) : (w.charge now (caps.postCap q) caps.slots q).2 = .ok () := by
  cases q with
  | post =>
      have hposts : caps.posts = 0 := h
      simp [RzIpWindow.charge, RzCaps.postCap, hposts]
  | getSlot slot =>
      have hslots : caps.slots = 0 := h
      simp only [RzIpWindow.charge, hslots, lt_irrefl, false_and, if_false]
      split_ifs <;> rfl
  | claim =>
      have hclaims : caps.claims = 0 := h
      simp [RzIpWindow.charge, RzCaps.postCap, hclaims]

theorem rzLimiter_of_no_cap {caps : RzCaps} (t : Table Ip RzIpWindow) {r : Request Ip RzAction}
    (h : caps.capOf r.query = 0) : (rzLimiter caps t r).2 = .ok () := by
  obtain ⟨ip, q, now⟩ := r
  cases ip with
  | none => rfl
  | some ip =>
      rw [(rzLimiter_guards caps).known]
      split_ifs
      · exact RzIpWindow.charge_of_no_cap h
      · rfl

/-- The limiters answer as ones that never drop a record, apart from what they let pass for
want of an address or of room. Each address has up to its cap of posts and of writes in each
minute's window, of slots that it reads, and of claims in each hour's, and up to twice that
in any span as long as the window; the minute's reset gives no claim back. A cap of nought is
none, and reading a slot again is free. -/
theorem limiters_count_in_windows (caps : RzCaps) (cap : ℕ)
    {requests : List (Request Ip RzAction)} {updates : List (Request Ip Unit)}
    (hrequests : (requests.map Request.now).Pairwise (· ≤ ·))
    (hupdates : (updates.map Request.now).Pairwise (· ≤ ·)) :
    (Limiter.Faithful (rzLimiter caps) (rzKeeper caps) rzWindows requests ∧
      (∀ ip, 0 < caps.posts → Capped rzLimiterWindowSecs (fun e => e.2.2.1) (fun e => e.1.now)
        ((rzMinute caps).events ip (Limiter.answers (rzLimiter caps) rzWindows requests))
        (fun e => posted (e.1.query, e.2)) caps.posts) ∧
      (∀ ip, 0 < caps.slots → CappedValues rzLimiterWindowSecs (fun e => e.2.2.1)
        (fun e => e.1.now)
        ((rzMinute caps).events ip (Limiter.answers (rzLimiter caps) rzWindows requests))
        (fun e => readSlot (e.1.query, e.2)) caps.slots) ∧
      (∀ ip, 0 < caps.claims → Capped rzClaimWindowSecs (fun e => e.2.2.2) (fun e => e.1.now)
        ((rzHour caps).events ip (Limiter.answers (rzLimiter caps) rzWindows requests))
        (fun e => claimed (e.1.query, e.2)) caps.claims) ∧
      (∀ (t : Table Ip RzIpWindow) (r : Request Ip RzAction) (ip : Ip) (w : RzIpWindow),
        t.lookup ip = some w → r.now < w.claimWindowStart + rzClaimWindowSecs →
        ∃ w', (rzLimiter caps t r).1.lookup ip = some w' ∧
          w'.claimWindowStart = w.claimWindowStart ∧ w.claims ≤ w'.claims) ∧
      ∀ (t : Table Ip RzIpWindow) (r : Request Ip RzAction), caps.capOf r.query = 0 →
        (rzLimiter caps t r).2 = .ok ()) ∧
    (0 < cap → Limiter.Faithful (writeLimiter cap) (writeKeeper cap) writeWindow updates ∧
      ∀ ip, Capped rzLimiterWindowSecs (fun e => e.2.2) (fun e => e.1.now)
        ((writeMinute cap).events ip (Limiter.answers (writeLimiter cap) writeWindow updates))
        (fun e => written (e.1.query, e.2)) cap) ∧
    (cap = 0 → ∀ (t : Table Ip WriteIpWindow) (r : Request Ip Unit),
      writeLimiter cap t r = (t, .ok ())) := by
  have hrz : Limiter.Guards (rzLimiter caps : Limiter Ip _ _) _ _ := rzLimiter_guards caps
  refine ⟨⟨hrz.faithful hrequests, fun ip hpos => ?_, fun ip hpos => ?_, fun ip hpos => ?_,
    fun t r ip w => claims_le_rzLimiter caps t r, fun t r => rzLimiter_of_no_cap t⟩, ?_, ?_⟩
  · exact hrz.capped (rzPosts hpos) (by decide) (fun l n h => h.le) (fun n h => h) hrequests ip
  · exact hrz.cappedValues (rzSlots hpos) (by decide) (fun l set h => h) (fun set h => h)
      hrequests ip
  · exact hrz.capped (rzClaims hpos) (by decide) (fun l n h => h.le) (fun n h => h) hrequests ip
  · intro hpos
    have hwrite : Limiter.Guards (writeLimiter cap : Limiter Ip _ _) _ _ :=
      writeLimiter_guards hpos.ne'
    exact ⟨hwrite.faithful hupdates, fun ip =>
      hwrite.capped (writes cap) (by decide) (fun l n h => h.le) (fun n h => h) hupdates ip⟩
  · rintro rfl t r
    rfl

end

/-- Two addresses over two minutes, under the caps of a relay. -/
theorem limiters_count_in_windows_minutes :
    Limiter.Faithful (rzLimiter ⟨30, 60, 10⟩) (rzKeeper ⟨30, 60, 10⟩) rzWindows
      [⟨some 1, .post, 100⟩, ⟨some 2, .claim, 130⟩, ⟨some 1, .getSlot "42", 161⟩] ∧
    Limiter.Faithful (writeLimiter 240) (writeKeeper 240) writeWindow
      [⟨some 1, (), 100⟩, ⟨none, (), 161⟩] := by
  have hlimits := @limiters_count_in_windows ℕ _ ⟨30, 60, 10⟩ 240
    [⟨some 1, .post, 100⟩, ⟨some 2, .claim, 130⟩, ⟨some 1, .getSlot "42", 161⟩]
    [⟨some 1, (), 100⟩, ⟨none, (), 161⟩] (by decide) (by decide)
  exact ⟨hlimits.1.1, (hlimits.2.1 (by decide)).1⟩

/-- One slot may be read any number of times. -/
theorem not_accepted_le_cap : ¬ ∀ (caps : RzCaps) (requests : List (Request ℕ RzAction)),
    (requests.map Request.now).Pairwise (· ≤ ·) → ∀ ip q s,
      (Limiter.answers (rzLimiter caps) rzWindows requests).countP (fun e =>
        decide (e.1.key = ip) && decide (e.1.query = q) && e.2.1.isOk &&
          decide (e.2.2.1 = s)) ≤ caps.capOf q := by
  intro h
  have hcount := h ⟨3, 2, 3⟩ [⟨some 1, .getSlot "42", 100⟩, ⟨some 1, .getSlot "42", 100⟩,
    ⟨some 1, .getSlot "42", 100⟩] (by decide) 1 (.getSlot "42") 100
  revert hcount
  decide

end Arvolo.Relay
