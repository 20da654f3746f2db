import Arvolo.Lib.Machine
import Arvolo.Manager.Copies

/-!
The pickup watchers of `core/src/manager/work.rs`.

A deposit is one sealed blob on the relay, a parked send is the pieces that an
offer names. In both cases the sender is gone from the transfer and learns of the
pickup by asking: the relay about the copy, and the recipient's relay about the
offer. A relay forgets a copy that was collected just as it forgets one that has
expired, so an absence is read against the clock.

The two watchers are one loop over what sets them apart. A run interleaves the
clock, the relay, the recipient, the watcher and restarts. A machine that sleeps
is a long tick.
-/

namespace Arvolo.Manager.Pickup

open Lib

/-! ### What one look means -/

inductive Verdict
  | pickedUp
  | expired
  | unknown
  | keepWatching
  deriving DecidableEq

inductive OfferStatus
  | pending
  | arrived
  | taken
  | gone
  deriving DecidableEq

def readDeposit (look : Option ClaimInfo) (offer : Option OfferStatus) (now verdictAt : ℕ) :
    Verdict :=
  if offer = some .taken then .pickedUp
  else
    match look with
    | some i =>
        if i.downloads.any (1 ≤ ·) then .pickedUp
        else if !i.present then .pickedUp
        else if now < verdictAt then .keepWatching
        else .expired
    | none => if now < verdictAt then .keepWatching else .unknown

def readParked (held : Option ℕ) (offer : Option OfferStatus) (now verdictAt : ℕ) : Verdict :=
  if offer = some .taken then .pickedUp
  else if held = some 0 then .pickedUp
  else if now < verdictAt then .keepWatching
  else .unknown

theorem readDeposit_pickedUp {look : Option ClaimInfo} {offer : Option OfferStatus}
    {now verdictAt : ℕ} :
    readDeposit look offer now verdictAt = .pickedUp ↔
      offer = some .taken ∨ ∃ i, look = some i ∧ i.gone := by
  unfold readDeposit ClaimInfo.gone
  cases look with
  | none => split_ifs <;> simp_all
  | some i =>
      by_cases hd : i.downloads.any (1 ≤ ·)
      · simp [hd]
      · cases i.present <;> split_ifs <;> simp_all

theorem readParked_pickedUp {held : Option ℕ} {offer : Option OfferStatus} {now verdictAt : ℕ} :
    readParked held offer now verdictAt = .pickedUp ↔ offer = some .taken ∨ held = some 0 := by
  unfold readParked
  split_ifs <;> simp_all

/-- A parked copy is never said to have expired. -/
theorem readParked_ne_expired (held : Option ℕ) (offer : Option OfferStatus) (now verdictAt : ℕ) :
    readParked held offer now verdictAt ≠ .expired := by
  unfold readParked
  split_ifs <;> simp

/-! ### The watchers -/

/-- A watcher, and the copy it asks about: `C` is the copy, `E` what happens to it, and
`L` the relay's answer. -/
structure Side (C E L : Type) where
  act : C → ℕ → E → C
  answer : C → ℕ → L
  read : Option L → Option OfferStatus → ℕ → ℕ → Verdict
  /-- The sleep after a look, and the next delay, from the delay, the time and the
  time of the verdict. -/
  pause : ℕ → ℕ → ℕ → ℕ × ℕ
  /-- The upload is over, and the lifetime the sender reckons with. -/
  ready : C → Bool
  lifetime : C → ℕ
  /-- A restart finds the record and watches on. -/
  restores : Bool
  /-- The recipient was served the copy, or the relay has let it go. -/
  collected : C → Bool
  lapsed : C → ℕ → Bool
  /-- The relay can still tell a copy that is there from one that is not. -/
  sound : C → ℕ → Bool

def offlineConfirmMarginSecs : ℕ := 120
def offlineConfirmPollSecs : ℕ := 3
def offlineConfirmPollMaxSecs : ℕ := 15 * 60

def deposit : Side Blob BlobEvent ClaimInfo where
  act := Blob.act
  answer := Blob.claimInfo
  read := readDeposit
  pause delay now verdictAt :=
    (max (min delay (verdictAt - now)) 1, min (delay * 2) offlineConfirmPollMaxSecs)
  ready _ := true
  lifetime := Blob.lifetime
  restores := true
  collected := Blob.fetched
  lapsed b now := b.expiresAt ≤ now
  sound b now := b.relay.route && now < b.expiresAt

def parked : Side Pieces PiecesEvent ℕ where
  act := Pieces.act
  answer b _ := b.relayHave.length
  read := readParked
  pause delay now verdictAt :=
    if verdictAt ≤ now then (0, delay)
    else (min delay (max (verdictAt - now) 1), min (delay * 2) offlineConfirmPollMaxSecs)
  ready b := b.todo = some []
  lifetime b := b.granted.getD parkTtlSecs
  restores := false
  collected b := b.pieces.all (·.taken)
  lapsed b _ := b.todo = some [] && b.pieces.any fun p => !p.stored && !p.taken
  sound b _ := b.relay.route && b.pieces.any (·.stored)

inductive Phase (L : Type)
  | uploading
  | resting (wake : ℕ)
  | looked (look : Option L)
  /-- The look decided nothing, and the offer is asked about. -/
  | asking (look : Option L)
  | asked (look : Option L) (offer : Option OfferStatus)
  | retired
  deriving DecidableEq

inductive Status
  | active
  | deposited
  | completed
  | failed
  deriving DecidableEq

structure Watch (C L : Type) where
  clock : ℕ
  copy : C
  /-- The offer at the recipient's relay, if one was left. -/
  offer : Option OfferStatus
  /-- The recipient acknowledged it before the relay let the copy go. -/
  acked : Bool
  phase : Phase L := .uploading
  delay : ℕ := offlineConfirmPollSecs
  expires : ℕ := 0
  status : Status := .active
  deriving DecidableEq

inductive Event (E : Type)
  | tick (secs : ℕ)
  | act (e : E)
  | offerArrives
  | offerTaken
  | offerGone
  /-- The upload has returned, and the watcher starts. -/
  | begin
  | look (reachable : Bool)
  | ask
  | reply (reachable : Bool)
  | conclude
  | restart
  deriving DecidableEq

section Watching

variable {C E L : Type} (S : Side C E L)

/-- The watcher is due to look. -/
def Watch.awake (w : Watch C L) : Bool :=
  match w.phase with
  | .resting wake => wake ≤ w.clock
  | _ => false

def Watch.asking (w : Watch C L) : Bool :=
  match w.phase with
  | .asking _ => true
  | _ => false

def Watch.verdictAt (w : Watch C L) : ℕ := w.expires - offlineConfirmMarginSecs

/-- The look has come back; the offer is asked about when it decides nothing. -/
def Side.ask (w : Watch C L) (look : Option L) : Phase L :=
  if w.offer.isSome && S.read look none w.clock w.verdictAt = .keepWatching then .asking look
  else .asked look none

def Side.conclude (w : Watch C L) (look : Option L) (offer : Option OfferStatus) : Watch C L :=
  match S.read look offer w.clock w.verdictAt with
  | .pickedUp => { w with status := .completed, phase := .retired }
  | .expired => { w with status := .failed, phase := .retired }
  | .unknown => { w with phase := .retired }
  | .keepWatching =>
      let (wait, delay) := S.pause w.delay w.clock w.verdictAt
      { w with phase := .resting (w.clock + wait), delay }

def Side.restart (w : Watch C L) : Watch C L :=
  match w.phase with
  | .uploading => w
  | .retired => w
  | _ =>
      if S.restores && w.clock < w.expires then
        { w with phase := .resting w.clock, delay := offlineConfirmPollSecs }
      else { w with phase := .retired }

def Side.step (w : Watch C L) : Event E → Watch C L
  | .tick secs => { w with clock := w.clock + secs }
  | .act e => { w with copy := S.act w.copy w.clock e }
  | .offerArrives => if w.offer = some .pending then { w with offer := some .arrived } else w
  | .offerTaken =>
      if w.offer = some .pending ∨ w.offer = some .arrived then
        { w with offer := some .taken, acked := w.acked || !S.lapsed w.copy w.clock }
      else w
  | .offerGone => { w with offer := w.offer.map fun _ => .gone }
  | .begin =>
      match w.phase with
      | .uploading =>
          if S.ready w.copy then
            { w with
              status := .deposited
              phase := .resting w.clock
              expires := satAdd w.clock (S.lifetime w.copy) }
          else w
      | _ => w
  | .look reachable =>
      if w.awake then
        { w with phase := .looked (if reachable then some (S.answer w.copy w.clock) else none) }
      else w
  | .ask =>
      match w.phase with
      | .looked look => { w with phase := S.ask w look }
      | _ => w
  | .reply reachable =>
      match w.phase with
      | .asking look =>
          { w with phase := .asked look (if reachable then w.offer else none) }
      | _ => w
  | .conclude =>
      match w.phase with
      | .asked look offer => S.conclude w look offer
      | _ => w
  | .restart => S.restart w

/-- A row that is Completed was collected, or acknowledged, in time. -/
def Side.Truthful (w : Watch C L) : Prop :=
  w.status = .completed → w.acked ∨ S.collected w.copy

instance (w : Watch C L) : Decidable (S.Truthful w) :=
  inferInstanceAs (Decidable (w.status = .completed → w.acked ∨ S.collected w.copy))

/-- A look is answered while the relay can tell, and an acknowledgement that is read was
made in time, unless the copy was collected anyway. -/
def Side.Calm (w : Watch C L) : Event E → Prop
  | .look true => w.awake → S.collected w.copy ∨ S.sound w.copy w.clock
  | .reply true => w.asking → w.offer = some .taken → w.acked ∨ S.collected w.copy
  | _ => True

instance : (w : Watch C L) → (e : Event E) → Decidable (S.Calm w e)
  | w, .look true =>
      inferInstanceAs (Decidable (w.awake → S.collected w.copy ∨ S.sound w.copy w.clock))
  | w, .reply true =>
      inferInstanceAs
        (Decidable (w.asking → w.offer = some .taken → w.acked ∨ S.collected w.copy))
  | _, .look false | _, .reply false | _, .tick _ | _, .act _ | _, .offerArrives
  | _, .offerTaken | _, .offerGone | _, .begin | _, .ask | _, .conclude | _, .restart =>
      .isTrue trivial

/-! ### What a watcher may rely on -/

/-- The watcher reads a pickup from an acknowledgement, or from an answer that the relay
gives only when the copy was collected, or when it can no longer tell. -/
structure Side.Lawful (Inv : C → ℕ → Prop) : Prop where
  act : ∀ c now e, Inv c now → Inv (S.act c now e) now
  tick : ∀ c now secs, Inv c now → Inv c (now + secs)
  collected : ∀ c now e, S.collected c → S.collected (S.act c now e)
  silence : ∀ offer now v, S.read none offer now v = .pickedUp → offer = some .taken
  answer : ∀ c now, Inv c now → S.sound c now → ∀ offer now' v,
    S.read (some (S.answer c now)) offer now' v = .pickedUp → offer = some .taken ∨ S.collected c

/-- What the look in hand says is true, unless the offer says it. -/
def Side.Grounded (c : C) (look : Option L) : Prop :=
  ∀ offer now v, S.read look offer now v = .pickedUp → offer = some .taken ∨ S.collected c

/-- And so is what the offer says. -/
def Side.Sure (w : Watch C L) : Prop :=
  match w.phase with
  | .looked look => S.Grounded w.copy look
  | .asking look => S.Grounded w.copy look
  | .asked look offer =>
      S.Grounded w.copy look ∧ (offer = some .taken → w.acked ∨ S.collected w.copy)
  | _ => True

structure Side.WatchInv (Inv : C → ℕ → Prop) (w : Watch C L) : Prop where
  copy : Inv w.copy w.clock
  truthful : S.Truthful w
  sure : S.Sure w

variable {S} {Inv : C → ℕ → Prop} {w : Watch C L}

theorem Side.WatchInv.conclude (h : S.WatchInv Inv w) {look : Option L}
    {offer : Option OfferStatus} (hphase : w.phase = .asked look offer) :
    S.WatchInv Inv (S.conclude w look offer) := by
  obtain ⟨hcopy, htruthful, hsure⟩ := h
  simp only [Sure, hphase] at hsure
  unfold Side.conclude
  split
  next hread =>
    refine ⟨hcopy, fun _ => ?_, trivial⟩
    rcases hsure.1 _ _ _ hread with ho | hc
    · exact hsure.2 ho
    · exact .inr hc
  next => exact ⟨hcopy, by simp [Truthful], trivial⟩
  next => exact ⟨hcopy, htruthful, trivial⟩
  next => exact ⟨hcopy, htruthful, trivial⟩

theorem Side.WatchInv.restart (h : S.WatchInv Inv w) : S.WatchInv Inv (S.restart w) := by
  unfold Side.restart
  split
  · exact h
  · exact h
  · split_ifs
    · exact ⟨h.copy, h.truthful, trivial⟩
    · exact ⟨h.copy, h.truthful, trivial⟩

/-- Nothing that befalls the copy or the offer makes a look less true. -/
theorem Side.Sure.mono {w' : Watch C L} (h : S.Sure w) (hphase : w'.phase = w.phase)
    (hacked : w.acked → w'.acked) (hcollected : S.collected w.copy → S.collected w'.copy) :
    S.Sure w' := by
  have hground {look : Option L} (hl : S.Grounded w.copy look) : S.Grounded w'.copy look :=
    fun offer now v hread => (hl offer now v hread).imp_right hcollected
  unfold Sure at h ⊢
  rw [hphase]
  split at h
  · exact hground h
  · exact hground h
  · exact ⟨hground h.1, fun ho => (h.2 ho).imp hacked hcollected⟩
  · trivial

theorem Side.Truthful.mono {w' : Watch C L} (h : S.Truthful w) (hstatus : w'.status = w.status)
    (hacked : w.acked → w'.acked) (hcollected : S.collected w.copy → S.collected w'.copy) :
    S.Truthful w' :=
  fun hs => (h (hstatus ▸ hs)).imp hacked hcollected

theorem Side.Lawful.step (hS : S.Lawful Inv) (h : S.WatchInv Inv w) {e : Event E}
    (hcalm : S.Calm w e) : S.WatchInv Inv (S.step w e) := by
  obtain ⟨hcopy, htruthful, hsure⟩ := h
  cases e with
  | tick secs => exact ⟨hS.tick _ _ secs hcopy, htruthful, hsure.mono rfl id id⟩
  | act e =>
      have hkeep := hS.collected w.copy w.clock e
      exact ⟨hS.act _ _ e hcopy, htruthful.mono rfl id hkeep, hsure.mono rfl id hkeep⟩
  | offerArrives =>
      simp only [Side.step]
      split_ifs
      · exact ⟨hcopy, htruthful, hsure.mono rfl id id⟩
      · exact ⟨hcopy, htruthful, hsure⟩
  | offerTaken =>
      simp only [Side.step]
      split_ifs
      · have hacked : w.acked → w.acked || !S.lapsed w.copy w.clock := by
          intro ha
          simp [ha]
        exact ⟨hcopy, htruthful.mono rfl hacked id, hsure.mono rfl hacked id⟩
      · exact ⟨hcopy, htruthful, hsure⟩
  | offerGone => exact ⟨hcopy, htruthful, hsure.mono rfl id id⟩
  | begin =>
      simp only [Side.step]
      split
      · split_ifs
        · exact ⟨hcopy, by simp [Truthful], trivial⟩
        · exact ⟨hcopy, htruthful, hsure⟩
      · exact ⟨hcopy, htruthful, hsure⟩
  | look reachable =>
      simp only [Side.step]
      split_ifs with hawake hreach
      · refine ⟨hcopy, htruthful, fun offer now v hread => ?_⟩
        subst hreach
        rcases hcalm hawake with hc | hsound
        · exact .inr hc
        · exact hS.answer _ _ hcopy hsound _ _ _ hread
      · exact ⟨hcopy, htruthful, fun offer now v hread => .inl (hS.silence _ _ _ hread)⟩
      · exact ⟨hcopy, htruthful, hsure⟩
  | ask =>
      simp only [Side.step]
      split
      next look hphase =>
        simp only [Sure, hphase] at hsure
        refine ⟨hcopy, htruthful, ?_⟩
        unfold Side.ask
        split_ifs
        · exact hsure
        · exact ⟨hsure, by simp⟩
      next => exact ⟨hcopy, htruthful, hsure⟩
  | reply reachable =>
      simp only [Side.step]
      split
      next look hphase =>
        simp only [Sure, hphase] at hsure
        refine ⟨hcopy, htruthful, hsure, fun ho => ?_⟩
        cases reachable with
        | false => simp at ho
        | true => exact hcalm (by simp [Watch.asking, hphase]) (by simpa using ho)
      next => exact ⟨hcopy, htruthful, hsure⟩
  | conclude =>
      simp only [Side.step]
      split
      next hphase => exact Side.WatchInv.conclude ⟨hcopy, htruthful, hsure⟩ hphase
      next => exact ⟨hcopy, htruthful, hsure⟩
  | restart => exact Side.WatchInv.restart ⟨hcopy, htruthful, hsure⟩

theorem Side.Lawful.truthful (hS : S.Lawful Inv) (h : S.WatchInv Inv w) {es : List (Event E)}
    (hcalm : Along S.step S.Calm w es) : S.Truthful (es.foldl S.step w) :=
  (hcalm.foldl_inv (S.WatchInv Inv) (fun _ _ hw hc => hS.step hw hc) h).truthful

end Watching

/-! ### The two watchers rely on what they may -/

theorem deposit_lawful : deposit.Lawful Blob.Inv where
  act _ _ e h := h.act e
  tick _ _ secs h := h.tick secs
  collected _ now e h := Blob.fetched_act now e h
  silence offer now v h := by
    have hread : readDeposit none offer now v = .pickedUp := h
    simpa using readDeposit_pickedUp.1 hread
  answer b now h hsound offer now' v hread := by
    have hs : b.relay.route ∧ now < b.expiresAt := by simpa [deposit] using hsound
    change readDeposit (some (b.claimInfo now)) offer now' v = .pickedUp at hread
    rcases readDeposit_pickedUp.1 hread with ho | ⟨i, hi, hgone⟩
    · exact .inl ho
    · obtain rfl : b.claimInfo now = i := by simpa using hi
      exact .inr (h.fetched_of_gone hs.1 hs.2 hgone)

theorem parked_lawful : parked.Lawful fun _ _ => True where
  act _ _ _ _ := trivial
  tick _ _ _ _ := trivial
  collected _ now e h := Pieces.all_taken_act now e h
  silence offer now v h := by
    have hread : readParked none offer now v = .pickedUp := h
    simpa using readParked_pickedUp.1 hread
  answer b now _ hsound offer now' v hread := by
    have hs : b.relay.route ∧ b.pieces.any (·.stored) := by simpa [parked] using hsound
    change readParked (some b.relayHave.length) offer now' v = .pickedUp at hread
    rcases readParked_pickedUp.1 hread with ho | hheld
    · exact .inl ho
    · have hnil : b.relayHave = [] := by simpa using hheld
      exact absurd hnil (Pieces.relayHave_ne_nil hs.1 hs.2)

/-! ### Runs -/

/-- A deposit that the relay has committed at `now`; its offer, if it leaves one, is yet
to be read. -/
def startDeposit (relay : RelayTraits) (path : Path) (now : ℕ) (offer : Bool) :
    Watch Blob ClaimInfo :=
  { clock := now, copy := Blob.start relay path now, acked := false
    offer := if offer then some .pending else none }

/-- A held send at the beginning of a park: its offer stands, and the relay may have
pieces from before. -/
def startParked (relay : RelayTraits) (pieces : List Piece) (token now : ℕ)
    (offer : Option OfferStatus) : Watch Pieces ℕ :=
  { clock := now, acked := offer = some .taken, offer
    copy := { relay, pieces, token, todo := none, granted := none } }

def DepositsTruthful (P : Watch Blob ClaimInfo → Event BlobEvent → Prop) : Prop :=
  ∀ relay path now offer (es : List (Event BlobEvent)),
    Along deposit.step P (startDeposit relay path now offer) es →
      deposit.Truthful (es.foldl deposit.step (startDeposit relay path now offer))

def ParkedTruthful (P : Watch Pieces ℕ → Event PiecesEvent → Prop) : Prop :=
  ∀ relay pieces token now offer (es : List (Event PiecesEvent)),
    Along parked.step P (startParked relay pieces token now offer) es →
      parked.Truthful (es.foldl parked.step (startParked relay pieces token now offer))

/-- A relay of this version that keeps nothing for longer than a day. -/
def dayRelay : RelayTraits := { maxTtl := 24 * 3600, tells := true, route := true, counts := true }

end Arvolo.Manager.Pickup
