import Arvolo.Lib.Log
import Arvolo.Presence.Offers
import Arvolo.Relay.Have

/-!
A subscription to one's own inbox, `InboxSubscription` of `core/src/presence.rs`: the
poll loop `run`, and the acks of what it has delivered.

A round reads the slot of the current epoch and now and then that of the one before.
What the relay is told that is held, what was handed on and where each row lives are
three sets, and nothing but the order of the steps ties them together. A run keeps a log
of what left the client and what reached its caller.
-/

namespace Arvolo.Presence

open Crypto Lib
open Sync (DeviceId fromBytes)

/-! ### Rows -/

structure InboxItem where
  id : String
  blob : Bytes

def inboxItemCodec : Codec InboxItem :=
  (Codec.text.pair Codec.blob).xmap (fun p => ⟨p.1, p.2⟩) (fun i => (i.id, i.blob))
    (fun _ => rfl) fun _ => rfl

def encodeInboxItems (items : List InboxItem) : Bytes := inboxItemCodec.vec.write items

def decodeInboxItems (bytes : Bytes) : Option (List InboxItem) :=
  fromBytes inboxItemCodec.vec bytes

structure ReceivedOffer where
  id : String
  sender : PublicId
  offer : Offer

def inboxEpochSecs : ℕ := 7 * 24 * 3600
def longPollSecs : ℕ := 25
def backfillEverySecs : ℕ := 300
def maxRowSlots : ℕ := 1024
def maxSeen : ℕ := 4096

structure Challenge where
  nonce : Bytes
  exp : ℕ
  mac : Bytes

/-- The identity that reads, and what is drawn for it. -/
structure Reader (Identity Rand : Type) where
  hpke : Hpke Identity Rand
  me : Identity
  /-- `slot_for_epoch` of the identity. -/
  slotForEpoch : ℕ → String
  /-- The credential made of a challenge, signed with the key of an epoch. -/
  bearer : ℕ → String → Challenge → String
  /-- The order a hash set is run through. -/
  hashOrder : Finset String → List String
  mem_hashOrder : ∀ {s id}, id ∈ hashOrder s ↔ id ∈ s

/-! ### What happens -/

inductive Reply
  | lost
  | unauthorized
  | rejected
  | body (bytes : Bytes)

/-- What one authorized request meets: the clock when the cached session is looked at,
the handshake if there is one, with the clock when the epoch is looked for, and the
reply; and the same once more after a `401`. -/
structure Exchange where
  now : ℕ
  challenge : Option (Challenge × ℕ)
  reply : Reply
  challengeAgain : Option (Challenge × ℕ)
  replyAgain : Reply

inductive Skip
  | syncNote
  | ours
  | elsewhere
  | undecodable
  deriving DecidableEq

inductive Entry
  /-- A request whose `x-arvolo-have` says these ids. -/
  | have_ (ids : List String)
  /-- The map of rows to slots was emptied. -/
  | emptied
  /-- These rows were read in this slot. -/
  | listed (slot : String) (ids : List String)
  | skipped (id : String) (why : Skip)
  /-- `on` was called. -/
  | on (offer : ReceivedOffer)
  /-- A delete of the row was addressed to the slot, at a time. -/
  | ack (id slot : String) (now : ℕ)
  /-- The relay answered it. -/
  | acked (id : String)

structure CachedSession where
  bearer : String
  exp : ℕ

/-- Where the poll loop is. -/
inductive Phase
  | idle
  /-- The slots still to be read, whether none has been yet, whether the older ones are
  due, and the rows read so far. -/
  | reading (todo : List String) (first backfill : Bool) (out : List InboxItem)

structure Client where
  sessions : Table String CachedSession
  rowSlots : Table String String
  undecodable : Finset String
  lastBackfill : ℕ
  origin : Option DeviceId
  held : Finset String
  /-- Of `run`: the offers handed on. -/
  seen : Finset String
  phase : Phase
  /-- The deletes under way, by row and slot. -/
  acking : List (String × String)
  log : List Entry

inductive Event
  | setOrigin (device : DeviceId)
  /-- A round begins. -/
  | round (now : ℕ)
  /-- The next slot is read, the clock being at `now` if the older ones' turn is looked up. -/
  | get (now : ℕ) (x : Exchange)
  /-- What was read is handed on. -/
  | deliver
  | ack (id : String) (now : ℕ)
  /-- The `i`-th delete under way is answered. -/
  | ackDone (i : ℕ) (x : Exchange)

namespace Client

def fresh : Client where
  sessions := ∅
  rowSlots := ∅
  undecodable := ∅
  lastBackfill := 0
  origin := none
  held := ∅
  seen := ∅
  phase := .idle
  acking := []
  log := []

def emit (c : Client) (e : Entry) : Client := { c with log := c.log ++ [e] }

/-- The rows of one reading, each to the slot. -/
def insertRows (rows : Table String String) (slot : String) (ids : List String) :
    Table String String :=
  ids.foldl (fun t id => t.insert id slot) rows

def rememberRows (c : Client) (slot : String) (ids : List String) : Client :=
  let c := if maxRowSlots < c.rowSlots.entries.length then
      { c with rowSlots := ∅ }.emit .emptied
    else c
  { c with rowSlots := insertRows c.rowSlots slot ids }.emit (.listed slot ids)

def backfillDue (c : Client) (now : ℕ) : Bool × Client :=
  if now - c.lastBackfill < backfillEverySecs then (false, c)
  else (true, { c with lastBackfill := now })

/-- Did this very device post the offer? -/
def isOurs (c : Client) (offer : Offer) : Bool :=
  match c.origin, offer.origin with
  | some mine, some theirs => mine == theirs
  | _, _ => false

def aimedElsewhere (c : Client) (offer : Offer) : Bool :=
  match c.origin, offer.target with
  | some mine, some theirs => mine != theirs
  | _, _ => false

section

variable {Identity Rand : Type} (r : Reader Identity Rand)

/-- `inbox_slots_at`: the current epoch first. -/
def readSlots (now : ℕ) : List String :=
  let epoch := now / inboxEpochSecs
  let older := r.slotForEpoch (epoch - 1)
  if older = r.slotForEpoch epoch then [older] else [r.slotForEpoch epoch, older]

def currentSlot (now : ℕ) : String := r.slotForEpoch (now / inboxEpochSecs)

def epochOf (now : ℕ) (slot : String) : Option ℕ :=
  ([0, 1].map fun n => now / inboxEpochSecs - n).find? fun e => r.slotForEpoch e = slot

def haveHeader (c : Client) : Option (List String) :=
  if c.held = ∅ then none else some (r.hashOrder c.held)

/-- The text of the header. -/
def haveText (ids : List String) : String := ",".intercalate ids

def ensureSession (c : Client) (slot : String) (force : Bool) (now : ℕ)
    (challenge : Option (Challenge × ℕ)) : Option String × Client :=
  let cached := if force then none
    else (c.sessions.lookup slot).filter fun s => decide (now + 60 < s.exp)
  match cached with
  | some s => (some s.bearer, c)
  | none =>
      match challenge with
      | none => (none, c)
      | some (ch, now') =>
          match epochOf r now' slot with
          | none => (none, c)
          | some epoch =>
              let bearer := r.bearer epoch slot ch
              (some bearer, { c with sessions := c.sessions.insert slot ⟨bearer, ch.exp⟩ })

def send (c : Client) (have_ : Option (List String)) : Client :=
  match have_ with
  | none => c
  | some ids => c.emit (.have_ ids)

def authed (c : Client) (slot : String) (have_ : Option (List String)) (x : Exchange) :
    Option Bytes × Client :=
  match c.ensureSession r slot false x.now x.challenge with
  | (none, c) => (none, c)
  | (some _, c) =>
      let c := c.send have_
      match x.reply with
      | .body bytes => (some bytes, c)
      | .lost | .rejected => (none, c)
      | .unauthorized =>
          let c := { c with sessions := c.sessions.erase slot }
          match c.ensureSession r slot true x.now x.challengeAgain with
          | (none, c) => (none, c)
          | (some _, c) =>
              let c := c.send have_
              match x.replyAgain with
              | .body bytes => (some bytes, c)
              | _ => (none, c)

/-- What the answer for a slot leads to. -/
def answered (c : Client) (slot : String) (rest : List String) (first backfill : Bool)
    (out : List InboxItem) : Option Bytes → Client
  | none => { c with phase := if first then .idle else .reading rest false backfill out }
  | some bytes =>
      if bytes.isEmpty then { c with phase := .reading rest false backfill out }
      else
        match decodeInboxItems bytes with
        -- the whole round is given up
        | none => { c with phase := .idle }
        | some items =>
            let ids := items.map (·.id)
            let c := c.rememberRows slot ids
            { c with
              held := if first then ids.toFinset else c.held
              phase := .reading rest false backfill (out ++ items) }

/-- One turn of the loop of `items_across_slots`: the next slot is read, or the loop is
left. The poll loop waits on the first slot, and not on the others. -/
def readSlot (c : Client) (slot : String) (rest : List String) (first backfill : Bool)
    (out : List InboxItem) (now : ℕ) (x : Exchange) : Client :=
  let (due, c) := if first || backfill then (true, c) else c.backfillDue now
  if due then
    let (answer, c) := c.authed r slot (if first then c.haveHeader r else none) x
    c.answered slot rest first (if first then backfill else true) out answer
  else { c with phase := .reading [] false false out }

/-- What `poll_wait` makes of a row. -/
def look (c : Client) (item : InboxItem) : Skip ⊕ ReceivedOffer :=
  if (decodeSyncNote item.blob).isSome then .inl .syncNote
  else
    match decodeOffer r.hpke item.blob r.me with
    | some (sender, offer) =>
        if c.isOurs offer then .inl .ours
        else if c.aimedElsewhere offer then .inl .elsewhere
        else .inr ⟨item.id, sender, offer⟩
    | none => .inl .undecodable

/-- The loop of `poll_wait`, and the offers it returns. -/
def sift (c : Client) : List InboxItem → List ReceivedOffer × Client
  | [] => ([], c)
  | item :: items =>
      match c.look r item with
      | .inr o =>
          let (offers, c) := c.sift items
          (o :: offers, c)
      | .inl why =>
          let c := { c with
            undecodable := if why = Skip.undecodable then insert item.id c.undecodable
              else c.undecodable }
          (c.emit (.skipped item.id why)).sift items

/-- `run` with an offer that a poll returned. -/
def surface (c : Client) (o : ReceivedOffer) : Client :=
  if o.id ∈ c.seen then c else { c with seen := insert o.id c.seen }.emit (.on o)

def deliver (c : Client) (out : List InboxItem) : Client :=
  let (offers, c) := c.sift r out
  let c := if maxSeen < c.seen.card then { c with seen := ∅ } else c
  { offers.foldl surface c with phase := .idle }

/-- The rest of `ack`, once the delete is on its way. -/
def ackAnswered (c : Client) (key : String × String) (x : Exchange) : Client :=
  match c.authed r key.2 none x with
  | (none, c) => c
  | (some _, c) => { c with rowSlots := c.rowSlots.erase key.1 }.emit (.acked key.1)

def step (c : Client) : Event → Client
  | .setOrigin device => { c with origin := some device }
  | .round now =>
      match c.phase with
      | .idle => { c with phase := .reading (readSlots r now) true false [] }
      | _ => c
  | .get now x =>
      match c.phase with
      | .reading (slot :: rest) first backfill out => c.readSlot r slot rest first backfill out now x
      | _ => c
  | .deliver =>
      match c.phase with
      | .reading [] _ _ out => c.deliver r out
      | _ => c
  | .ack id now =>
      let slot := (c.rowSlots.lookup id).getD (currentSlot r now)
      { c with acking := c.acking ++ [(id, slot)] }.emit (.ack id slot now)
  | .ackDone i x =>
      match c.acking[i]? with
      | none => c
      | some key => { c with acking := c.acking.eraseIdx i }.ackAnswered r key x

def run (c : Client) (events : List Event) : Client := events.foldl (step r) c

end

end Client

end Arvolo.Presence
