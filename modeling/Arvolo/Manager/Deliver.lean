import Mathlib

/-!
A send to a contact: `deliver_to` of `core/src/manager/work.rs`.

One turn of the loop tries a live delivery when the recipient seems to be there,
then the relay, and then waits. The offer of the live delivery stands in the
recipient's inbox between the turns, and `deliver_to` withdraws it once, when the
loop has ended by whichever way. What the relay holds besides are the pieces the
offer's ticket names, when a live attempt or a park has left them there.

What a restart finds is three kinds of record: that of a held send, of a deposit,
and of a parked send. What others answer in a turn, and the clock, are its input.
-/

namespace Arvolo.Manager

/-- `OfferStatus` of an offer that is there. -/
inductive Seen
  | pending
  | arrived
  | taken
  deriving DecidableEq

structure StandingOffer where
  id : ℕ
  seen : Seen
  deriving DecidableEq

inductive WaitingReason
  | forThem
  | offered
  | parked
  | tooLarge
  | relayRetry
  | noRoute
  deriving DecidableEq

inductive SendStatus
  | active
  | waiting (reason : WaitingReason)
  | paused
  | deposited
  | completed
  | cancelled
  | failed
  deriving DecidableEq

/-- What `deliver_to_inner` returned for. -/
inductive Ending
  | delivered
  | cancelled
  | failed
  | paused
  | parked
  | deposited
  deriving DecidableEq

/-- `LiveOutcome`. -/
inductive LiveOutcome
  | delivered
  | notConnected
  | awaitingDecision
  | offloaded
  | cancelled
  | fatal
  deriving DecidableEq

/-- How serving ended. -/
inductive Served
  | delivered
  /-- They refused; the offer is withdrawn at once, and the relay hears it or not. -/
  | recipientCancelled (heard : Bool)
  | cancelled
  | offloaded
  | awaitingDecision
  | notConnected
  | broke
  deriving DecidableEq

/-- What a live attempt meets. -/
structure Attempt where
  prepared : Bool
  /-- The reading of the standing offer, if the relay answers. -/
  look : Option Seen
  /-- A new offer reaches the relay, and its answer comes back. -/
  posted : Bool
  answered : Bool
  localOnly : Bool
  served : Served
  /-- The relay was left all the pieces the recipient lacks. -/
  leaves : Bool
  deriving DecidableEq

/-- `deposit_offline_and_offer`, or the cancel that came before its answer. -/
inductive DepositAnswer
  | ok
  | tooLarge
  | fatal
  | busy
  | unavailable
  | stopped
  deriving DecidableEq

inductive WaitAnswer
  | stopped
  /-- The relay's reading of the offer; `none` when it could not be had. -/
  | over (reading : Option Seen)
  deriving DecidableEq

structure Turn where
  /-- The token was cancelled before the turn; and whether a stop is a pause. -/
  stopped : Bool
  pause : Bool
  now : ℕ
  beacon : Bool
  attempt : Attempt
  stillUp : Bool
  later : ℕ
  /-- `park_on_relay` put every piece there. -/
  parks : Bool
  deposit : DepositAnswer
  wait : WaitAnswer
  woken : ℕ
  deriving DecidableEq

structure Config where
  p2p : Bool
  liveOnly : Bool
  /-- `deposit_after_secs`. -/
  depositAfter : ℕ

def relayRetrySecs : ℕ := 15 * 60
def liveRetryMinSecs : ℕ := 30
def liveRetryMaxSecs : ℕ := 5 * 60
def maxWaitingSecs : ℕ := 7 * 24 * 3600

/-- The variables of the loop. -/
structure Loop where
  tooBig : Bool := false
  toldForThem : Bool := false
  offloaded : Bool := false
  nextRelayTry : ℕ
  giveUpAt : ℕ
  depositDeadline : ℕ
  beaconEverAlive : Bool := false
  liveBackoff : ℕ := 0
  nextLiveTry : ℕ
  provenPresent : Bool := false
  localOnly : Bool := false
  standing : Option StandingOffer := none
  /-- The offers this loop has posted. -/
  posted : List ℕ := []
  deriving DecidableEq

/-- A loop that has returned, and whose offer is still to be withdrawn. -/
structure Left where
  ending : Ending
  standing : Option StandingOffer
  posted : List ℕ
  deriving DecidableEq

structure Send where
  status : Option SendStatus
  loop : Option Loop
  leaving : List Left := []
  depositNow : Bool := false
  /-- The record of a held send, and whether it is paused. -/
  sendto : Option Bool
  depositRecord : Bool := false
  parkedRecord : Option ℕ := none
  /-- The offers of this send in the recipient's inbox. -/
  offers : List ℕ := []
  nextOffer : ℕ := 0
  /-- The relay holds every piece the recipient lacks. -/
  pieces : Bool := false
  deriving DecidableEq

/-- The loop goes on, or returns. -/
inductive Flow
  | next (s : Send) (l : Loop)
  | done (s : Send) (e : Ending) (l : Loop)

def Flow.bind : Flow → (Send → Loop → Flow) → Flow
  | .next s l, f => f s l
  | .done s e l, _ => .done s e l

def Flow.land : Flow → Send
  | .next s l => { s with loop := some l }
  | .done s e l => { s with loop := none, leaving := s.leaving ++ [⟨e, l.standing, l.posted⟩] }

namespace Loop

variable (cfg : Config) (l : Loop) (t : Turn)

def begin (now : ℕ) : Loop :=
  { nextRelayTry := now, giveUpAt := now + maxWaitingSecs,
    depositDeadline := now + cfg.depositAfter, nextLiveTry := now }

/-- The presence check is due. -/
def due : Bool := cfg.p2p && decide (l.nextLiveTry ≤ t.now)

def online : Bool := l.due cfg t && (l.provenPresent || t.beacon)

/-- The check takes the proof of presence, and asks the beacon without one. -/
def probed : Loop :=
  if l.due cfg t then
    { l with
      provenPresent := false
      beaconEverAlive := l.beaconEverAlive || (!l.provenPresent && t.beacon) }
  else l

def backOff (now : ℕ) : Loop :=
  let b := if l.liveBackoff = 0 then liveRetryMinSecs else min (l.liveBackoff * 2) liveRetryMaxSecs
  { l with liveBackoff := b, nextLiveTry := now + b }

end Loop

namespace Send

variable (cfg : Config) (s : Send) (l : Loop) (t : Turn)

/-- `finish`: the row ends and the held record goes. -/
def finish (st : SendStatus) : Send := { s with status := some st, sendto := none }

/-- `handle_stop`. -/
def handleStop : Flow :=
  if t.pause then .done { s with status := some .paused, sendto := some true } .paused l
  else .done (s.finish .cancelled) .cancelled l

def top : Flow :=
  if t.stopped then s.handleStop l t
  else if l.giveUpAt ≤ t.now then
    .done { s with status := some .paused, sendto := some true } .paused l
  else .next s l

/-- The reading of an offer: it is gone when the relay has it no more. -/
def reading (st : StandingOffer) (seen : Seen) : Option StandingOffer :=
  if st.id ∈ s.offers then some { st with seen } else none

/-- An offer that cannot be read is taken to be gone. -/
def look (a : Attempt) : Loop :=
  { l with standing := l.standing.bind fun st => a.look.bind (s.reading st) }

def post (a : Attempt) : Send × Loop :=
  if l.standing.isSome || !a.posted then (s, l)
  else
    ({ s with offers := s.nextOffer :: s.offers, nextOffer := s.nextOffer + 1 },
      { l with
        posted := s.nextOffer :: l.posted
        standing := if a.answered then some ⟨s.nextOffer, .pending⟩ else none })

/-- `retract_offer`. -/
def retract (st : Option StandingOffer) (heard : Bool) : Send :=
  if heard then { s with offers := s.offers.filter fun o => st.map StandingOffer.id ≠ some o } else s

/-- `serve_live_once`. -/
def serveLiveOnce (a : Attempt) : Send × Loop × LiveOutcome :=
  if !a.prepared then (s, l, .fatal)
  else
    let (s, l) := s.post { s.look l a with localOnly := a.localOnly } a
    if l.standing.isNone then (s, l, .notConnected)
    else
      let s := { s with
        status := some (.waiting .offered)
        pieces := s.pieces || a.leaves || a.served = .offloaded }
      match a.served with
      | .delivered => (s, l, .delivered)
      | .recipientCancelled heard =>
          (s.retract l.standing heard, { l with standing := none }, .fatal)
      | .cancelled => (s, l, .cancelled)
      | .offloaded => (s, l, .offloaded)
      | .awaitingDecision => (s, l, .awaitingDecision)
      | .notConnected => (s, l, .notConnected)
      | .broke => (s, l, .fatal)

def live : Flow :=
  if l.online cfg t then
    let (s, l, outcome) := s.serveLiveOnce (l.probed cfg t) t.attempt
    match outcome with
    | .delivered => .done (s.finish .completed) .delivered l
    | .cancelled => s.handleStop l t
    | .fatal => .done (s.finish .failed) .failed l
    | .notConnected => .next s (l.backOff t.later)
    | .offloaded =>
        .next { s with status := some (.waiting .parked) }
          ({ l with offloaded := true }.backOff t.later)
    | .awaitingDecision =>
        let left := l.beaconEverAlive && !t.stillUp
        .next s { l.backOff t.later with
          nextRelayTry := if left then t.later else l.depositDeadline }
  else .next s (l.probed cfg t)

/-- `spawn_parked_confirm`. The held record stays. -/
def park (st : StandingOffer) : Send :=
  { s with
    depositNow := false, pieces := true, parkedRecord := some st.id
    status := some .deposited }

def deposit : Flow :=
  match t.deposit with
  | .stopped => s.handleStop l t
  | .ok =>
      .done { s with status := some .deposited, sendto := none, depositRecord := true } .deposited l
  | .tooLarge => .next { s with status := some (.waiting .tooLarge) } { l with tooBig := true }
  | .fatal => .done (s.finish .failed) .failed l
  | .busy =>
      .next { s with status := some (.waiting .relayRetry) }
        { l with nextRelayTry := t.later + relayRetrySecs }
  | .unavailable =>
      .next { s with status := some (.waiting (if l.localOnly then .noRoute else .relayRetry)) }
        { l with nextRelayTry := t.later + relayRetrySecs }

/-- `online` is what the turn found before its live attempt. -/
def relay (online : Bool) : Flow :=
  if cfg.liveOnly then
    if !online && !l.toldForThem then
      .next { s with status := some (.waiting .forThem) } { l with toldForThem := true }
    else .next s l
  else if l.tooBig || l.offloaded then .next s l
  else
    match (if s.depositNow && t.parks then l.standing else none) with
    | some st => .done (s.park st) .parked l
    | none =>
        if s.depositNow || decide (l.nextRelayTry ≤ t.later) then s.deposit l t else .next s l

def wait : Flow :=
  match t.wait, l.standing with
  | .stopped, _ => s.handleStop l t
  | .over _, none => .next s l
  | .over none, some _ => .next s l
  | .over (some seen), some st =>
      let l' := { l with standing := s.reading st seen }
      if l'.standing.isSome && decide (seen ≠ st.seen) then
        .next s { l' with liveBackoff := 0, nextLiveTry := t.woken, provenPresent := true }
      else .next s l'

/-- One turn of `deliver_to_inner`. -/
def turn : Flow :=
  (s.top l t).bind fun s l =>
    (s.live cfg l t).bind fun s' l' =>
      (s'.relay cfg l' t (l.online cfg t)).bind fun s l => s.wait l t

/-- The end of `deliver_to`: the loop's offer is withdrawn. -/
def withdraw (n : ℕ) (heard : Bool) : Send :=
  match s.leaving[n]? with
  | none => s
  | some e => { s.retract e.standing heard with leaving := s.leaving.eraseIdx n }

/-- `resume_incomplete`, as far as it finds records of this send. Those of parked
sends are not looked for. -/
def restart (now : ℕ) : Send :=
  let s := { s with status := none, loop := none, leaving := [], depositNow := false }
  match s.sendto with
  | some true => { s with status := some .paused }
  | some false => { s with status := some .active, loop := some (.begin cfg now) }
  | none => if s.depositRecord then { s with status := some .deposited } else s

/-- `cancel` of a row that has no loop. -/
def cancel (heard : Bool) : Send :=
  match s.status with
  | some .paused => s.finish .cancelled
  | some .deposited =>
      match s.parkedRecord with
      | some o =>
          { s.retract (some ⟨o, .pending⟩) heard with
            pieces := s.pieces && !heard, parkedRecord := none, status := some .cancelled }
      | none => { s with depositRecord := false, status := some .cancelled }
  | _ => s

end Send

inductive SendEvent
  | turn (t : Turn)
  | withdraw (n : ℕ) (heard : Bool)
  /-- `deposit_now`. -/
  | depositNow
  | resume (now : ℕ)
  | cancel (heard : Bool)
  /-- The watcher of a deposit or a parked send sees it collected. -/
  | pickedUp
  /-- The relay drops the pieces, or an offer. -/
  | piecesGone
  | offerGone (o : ℕ)
  | restart (now : ℕ)
  deriving DecidableEq

namespace Send

variable (cfg : Config)

def start (now : ℕ) : Send :=
  { status := some .active, loop := some (.begin cfg now), sendto := some false }

def step (s : Send) : SendEvent → Send
  | .turn t =>
      match s.loop with
      | some l => (s.turn cfg l t).land
      | none => s
  | .withdraw n heard => s.withdraw n heard
  | .depositNow => if s.loop.isSome then { s with depositNow := true } else s
  | .resume now =>
      if s.status = some .paused ∧ s.loop = none then
        { s with status := some .active, loop := some (.begin cfg now), sendto := some false }
      else s
  | .cancel heard => if s.loop = none then s.cancel heard else s
  | .pickedUp =>
      if s.status = some .deposited then
        { s with status := some .completed, depositRecord := false, parkedRecord := none }
      else s
  | .piecesGone => { s with pieces := false }
  | .offerGone o => { s with offers := s.offers.filter (· ≠ o) }
  | .restart now => s.restart cfg now

abbrev run (now : ℕ) (es : List SendEvent) : Send := es.foldl (step cfg) (start cfg now)

/-- What the end of a loop is to leave behind. The offers it posted stand exactly
when the pieces can be had through them; a send that went to the relay is not
delivered again by a restart; and one that was parked is there again. -/
def Consistent (s : Send) (n : ℕ) (heard : Bool) (now : ℕ) : Prop :=
  ∀ e, s.leaving[n]? = some e →
    ((∀ o ∈ e.posted, o ∈ (s.withdraw n heard).offers → (s.withdraw n heard).pieces) ∧
      ((s.withdraw n heard).pieces → ∀ st ∈ e.standing, st.id ∈ (s.withdraw n heard).offers)) ∧
    (e.ending = .parked ∨ e.ending = .deposited →
      ((s.withdraw n heard).restart cfg now).loop = none) ∧
    (e.ending = .parked → ((s.withdraw n heard).restart cfg now).status = some .deposited)

/-- The loop did not end by parking. When it withdraws its offer, either the pieces
are not on the relay, and of its offers only the standing one is, which the relay
is told of; or they are, and the withdrawal of the standing offer is lost. -/
def Clean (s : Send) (n : ℕ) (heard : Bool) : Prop :=
  ∀ e, s.leaving[n]? = some e →
    e.ending ≠ .parked ∧
    if s.pieces then ∀ st ∈ e.standing, st.id ∈ s.offers ∧ heard = false
    else ∀ o ∈ e.posted, o ∈ s.offers → heard ∧ e.standing.map StandingOffer.id = some o

/-! ### The held record -/

/-- Where a loop that went to the relay has left the record. A park leaves it as it
was, and a deposit removes it. -/
def Stays (s : Send) (e : Ending) : Prop :=
  (e = .parked → s.status ≠ some .paused ∧ s.sendto = some false) ∧
  (e = .deposited → s.status ≠ some .paused ∧ s.sendto = none)

structure Inv (s : Send) : Prop where
  running : s.loop.isSome → s.sendto = some false
  leaving : ∀ e ∈ s.leaving, s.Stays e.ending ∧
    (e.ending = .parked ∨ e.ending = .deposited → s.loop = none)

end Send

/-- A stretch of the turn keeps the record, unless it ends the loop. -/
def Flow.Keeps (leaving : List Left) : Flow → Prop
  | .next s _ => s.sendto = some false ∧ s.leaving = leaving
  | .done s e _ => s.Stays e ∧ s.leaving = leaving

theorem Flow.Keeps.bind {leaving : List Left} {f : Flow} {g : Send → Loop → Flow}
    (hf : f.Keeps leaving)
    (hg : ∀ s l, s.sendto = some false → s.leaving = leaving → (g s l).Keeps leaving) :
    (f.bind g).Keeps leaving := by
  cases f with
  | next s l => exact hg s l hf.1 hf.2
  | done s e l => exact hf

namespace Send

section Turn

variable {s : Send} (cfg : Config) (l : Loop) (t : Turn)

theorem keeps_handleStop : (s.handleStop l t).Keeps s.leaving := by
  unfold handleStop
  split_ifs <;> simp [Flow.Keeps, Stays, finish]

theorem keeps_top (h : s.sendto = some false) : (s.top l t).Keeps s.leaving := by
  unfold top
  split_ifs
  · exact keeps_handleStop l t
  · simp [Flow.Keeps, Stays]
  · exact ⟨h, rfl⟩

theorem sendto_serveLiveOnce (a : Attempt) :
    (s.serveLiveOnce l a).1.sendto = s.sendto ∧ (s.serveLiveOnce l a).1.leaving = s.leaving := by
  unfold serveLiveOnce post retract
  grind

theorem keeps_live (h : s.sendto = some false) : (s.live cfg l t).Keeps s.leaving := by
  obtain ⟨hsendto, hleaving⟩ := sendto_serveLiveOnce (s := s) (l.probed cfg t) t.attempt
  unfold live
  split_ifs
  · rw [h] at hsendto
    revert hsendto hleaving
    generalize s.serveLiveOnce (l.probed cfg t) t.attempt = out
    obtain ⟨s', l', outcome⟩ := out
    intro hsendto hleaving
    cases outcome with
    | delivered => exact ⟨by simp [Stays], hleaving⟩
    | cancelled => exact hleaving ▸ keeps_handleStop l' t
    | fatal => exact ⟨by simp [Stays], hleaving⟩
    | notConnected => exact ⟨hsendto, hleaving⟩
    | offloaded => exact ⟨hsendto, hleaving⟩
    | awaitingDecision => exact ⟨hsendto, hleaving⟩
  · exact ⟨h, rfl⟩

theorem keeps_deposit (h : s.sendto = some false) : (s.deposit l t).Keeps s.leaving := by
  unfold deposit
  split
  · exact keeps_handleStop l t
  · simp [Flow.Keeps, Stays]
  · exact ⟨h, rfl⟩
  · simp [Flow.Keeps, Stays, finish]
  · exact ⟨h, rfl⟩
  · exact ⟨h, rfl⟩

theorem keeps_relay (online : Bool) (h : s.sendto = some false) :
    (s.relay cfg l t online).Keeps s.leaving := by
  unfold relay
  split
  · split_ifs <;> exact ⟨h, rfl⟩
  split
  · exact ⟨h, rfl⟩
  split
  · exact ⟨by simp [Stays, park, h], rfl⟩
  · split_ifs
    · exact keeps_deposit l t h
    · exact ⟨h, rfl⟩

theorem keeps_wait (h : s.sendto = some false) : (s.wait l t).Keeps s.leaving := by
  unfold wait
  split
  · exact keeps_handleStop l t
  · exact ⟨h, rfl⟩
  · exact ⟨h, rfl⟩
  · dsimp only
    split_ifs <;> exact ⟨h, rfl⟩

theorem keeps_turn (h : s.sendto = some false) : (s.turn cfg l t).Keeps s.leaving := by
  refine (keeps_top l t h).bind fun s₁ l₁ h₁ hl₁ => ?_
  rw [← hl₁]
  refine (keeps_live cfg l₁ t h₁).bind fun s₂ l₂ h₂ hl₂ => ?_
  rw [← hl₂]
  refine (keeps_relay cfg l₂ t _ h₂).bind fun s₃ l₃ h₃ hl₃ => ?_
  rw [← hl₃]
  exact keeps_wait l₃ t h₃

end Turn

section Steps

variable {s : Send} (cfg : Config)

/-- Neither the record nor the row is touched. -/
theorem Inv.frame (h : s.Inv) {s' : Send} (hstatus : s'.status = s.status)
    (hloop : s'.loop = s.loop) (hsendto : s'.sendto = s.sendto)
    (hleaving : ∀ e ∈ s'.leaving, e ∈ s.leaving) : s'.Inv := by
  refine ⟨fun hl => hsendto.trans (h.running (hloop ▸ hl)), fun e he => ?_⟩
  obtain ⟨⟨hp, hd⟩, hnone⟩ := h.leaving e (hleaving e he)
  exact ⟨⟨fun hk => by rw [hstatus, hsendto]; exact hp hk,
    fun hk => by rw [hstatus, hsendto]; exact hd hk⟩, fun hk => hloop.trans (hnone hk)⟩

/-- A row without a loop changes, and neither becomes paused nor changes the record. -/
theorem Inv.setStatus (h : s.Inv) {s' : Send} (hstatus : s'.status ≠ some .paused)
    (hloop : s'.loop = s.loop) (hsendto : s'.sendto = s.sendto)
    (hleaving : s'.leaving = s.leaving) : s'.Inv := by
  refine ⟨fun hl => hsendto.trans (h.running (hloop ▸ hl)), fun e he => ?_⟩
  obtain ⟨⟨hp, hd⟩, hnone⟩ := h.leaving e (hleaving ▸ he)
  exact ⟨⟨fun hk => ⟨hstatus, hsendto.trans (hp hk).2⟩,
    fun hk => ⟨hstatus, hsendto.trans (hd hk).2⟩⟩, fun hk => hloop.trans (hnone hk)⟩

/-- No loop that went to the relay is leaving while the row is paused. -/
theorem Inv.elsewhere (h : s.Inv) (hs : s.status = some .paused ∨ s.loop.isSome) {e : Left}
    (he : e ∈ s.leaving) : e.ending ≠ .parked ∧ e.ending ≠ .deposited := by
  obtain ⟨⟨hp, hd⟩, hnone⟩ := h.leaving e he
  rcases hs with hs | hs
  · exact ⟨fun hk => (hp hk).1 hs, fun hk => (hd hk).1 hs⟩
  · refine ⟨fun hk => ?_, fun hk => ?_⟩
    · simp [hnone (.inl hk)] at hs
    · simp [hnone (.inr hk)] at hs

/-- Then anything may be done to the record that a loop, if there is one, can live with. -/
theorem Inv.rewrite (h : s.Inv) (hs : s.status = some .paused ∨ s.loop.isSome) {s' : Send}
    (hrunning : s'.loop.isSome → s'.sendto = some false) (hleaving : s'.leaving = s.leaving) :
    s'.Inv := by
  refine ⟨hrunning, fun e he => ?_⟩
  obtain ⟨hp, hd⟩ := h.elsewhere hs (hleaving ▸ he)
  exact ⟨⟨fun hk => absurd hk hp, fun hk => absurd hk hd⟩,
    fun hk => absurd hk (by rintro (hk | hk) <;> contradiction)⟩

theorem Inv.turn (h : s.Inv) {l : Loop} (hl : s.loop = some l) (t : Turn) :
    (s.turn cfg l t).land.Inv := by
  have hrun : s.loop.isSome := by rw [hl]; rfl
  have hkeeps := keeps_turn cfg l t (h.running hrun)
  cases hf : s.turn cfg l t with
  | next s' l' =>
      rw [hf] at hkeeps
      exact h.rewrite (.inr hrun) (fun _ => hkeeps.1) hkeeps.2
  | done s' e l' =>
      rw [hf] at hkeeps
      refine ⟨by simp [Flow.land], fun e' he' => ⟨?_, fun _ => rfl⟩⟩
      rcases List.mem_append.mp he' with he' | he'
      · obtain ⟨hp, hd⟩ := h.elsewhere (.inr hrun) (hkeeps.2 ▸ he')
        exact ⟨fun hk => absurd hk hp, fun hk => absurd hk hd⟩
      · rw [List.mem_singleton.mp he']
        exact hkeeps.1

theorem inv_restart (now : ℕ) : (s.restart cfg now).Inv := by
  unfold Send.restart
  dsimp only
  split
  · exact ⟨by simp, by simp⟩
  next hsendto => exact ⟨fun _ => hsendto, by simp⟩
  · split_ifs <;> exact ⟨by simp, by simp⟩

theorem Inv.step (h : s.Inv) (ev : SendEvent) : (s.step cfg ev).Inv := by
  cases ev with
  | turn t =>
      simp only [Send.step]
      split
      next l hl => exact h.turn cfg hl t
      next => exact h
  | withdraw n heard =>
      simp only [Send.step, Send.withdraw, Send.retract]
      split
      · exact h
      · split_ifs <;> exact h.frame rfl rfl rfl fun e he => List.mem_of_mem_eraseIdx he
  | depositNow =>
      simp only [Send.step]
      split_ifs
      · exact h.frame rfl rfl rfl fun e he => he
      · exact h
  | resume now =>
      simp only [Send.step]
      split_ifs with hc
      · exact h.rewrite (.inl hc.1) (fun _ => rfl) rfl
      · exact h
  | cancel heard =>
      simp only [Send.step]
      split_ifs with hloop
      · unfold Send.cancel
        split
        next hp => exact h.rewrite (.inl hp) (by simp [finish, hloop]) rfl
        next =>
          split
          · unfold Send.retract
            split_ifs <;> exact h.setStatus (by simp) rfl rfl rfl
          · exact h.setStatus (by simp) rfl rfl rfl
        next => exact h
      · exact h
  | pickedUp =>
      simp only [Send.step]
      split_ifs
      · exact h.setStatus (by simp) rfl rfl rfl
      · exact h
  | piecesGone => exact h.frame rfl rfl rfl fun e he => he
  | offerGone o => exact h.frame rfl rfl rfl fun e he => he
  | restart now => exact inv_restart cfg now

end Steps

theorem inv_run (cfg : Config) (now : ℕ) (es : List SendEvent) : (run cfg now es).Inv :=
  List.foldlRecOn es _ (⟨fun _ => rfl, by simp [start]⟩ : (start cfg now).Inv)
    fun _ hs ev _ => hs.step cfg ev

/-- A withdrawal takes the standing offer, if the relay hears of it, and nothing else. -/
theorem mem_withdraw {s : Send} {n : ℕ} {heard : Bool} {e : Left} (he : s.leaving[n]? = some e)
    {o : ℕ} : o ∈ (s.withdraw n heard).offers ↔
      o ∈ s.offers ∧ ¬ (heard ∧ e.standing.map StandingOffer.id = some o) := by
  simp only [withdraw, he, retract]
  cases heard <;> simp

theorem withdraw_frame (s : Send) (n : ℕ) (heard : Bool) :
    (s.withdraw n heard).pieces = s.pieces ∧ (s.withdraw n heard).sendto = s.sendto := by
  unfold withdraw retract
  grind

/-- The offer is posted and nobody has answered it yet. -/
def firstTurn : Turn :=
  { stopped := false, pause := false, now := 0, beacon := true
    attempt :=
      { prepared := true, look := none, posted := true, answered := true, localOnly := false,
        served := .awaitingDecision, leaves := false }
    stillUp := true, later := 90, parks := false, deposit := .unavailable
    wait := .over (some .pending), woken := 100 }

/-- The sender is asked to park the file now, and the relay takes every piece. -/
def parkingTurn : Turn := { firstTurn with now := 110, beacon := false, later := 110, parks := true }

end Send

end Arvolo.Manager
