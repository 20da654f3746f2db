import Arvolo.Lib.Table
import Arvolo.Lib.Utf8
import Arvolo.Lib.Word
import Arvolo.Sync.Bridge

/-!
The inboxes of a relay (`relay/src/mailbox.rs`, `relay/src/http.rs`): offers that wait
in a slot for its owner, and what their posters are told of them.

A request takes its turns at the store one at a time, and other requests run between
them; what it still has to do is a job. Each turn reads the system clock afresh, which
may run either way. A request that the rate limits turn away is not made; no statement
fails.
-/

namespace Arvolo.Relay

open Lib
open Sync (trim)

abbrev InboxBytes := List UInt8

/-- `str::as_bytes`. -/
def asBytes (s : String) : InboxBytes := utf8 s.toList

/-- The bearer credential of a reader. -/
structure SessionToken where
  nonce : InboxBytes
  exp : ℕ
  mac : InboxBytes
  sig : InboxBytes
  deriving DecidableEq

/-- What the inbox takes from other crates, and the table of upper case letters. -/
structure InboxPrims where
  blake3 : InboxBytes → InboxBytes
  keyedHash : InboxBytes → InboxBytes → InboxBytes
  /-- `verify_strict` of an Ed25519 key, and `false` for what is none. -/
  verify : InboxBytes → InboxBytes → InboxBytes → Bool
  /-- `BASE32_NOPAD.decode`. -/
  base32 : InboxBytes → Option InboxBytes
  fromBytes : InboxBytes → Option SessionToken
  upper : String → String

def maxInboxValueBytes : ℕ := 512 * 1024
def maxInboxPerSlot : ℕ := 64
def inboxTtlSecs : ℕ := 600
def inboxMaxTtlSecs : ℕ := 30 * 24 * 3600
def inboxMaxWaitSecs : ℕ := 30
def maxHaveIds : ℕ := maxInboxPerSlot * 2
def slotKeyLen : ℕ := 32

/-- `arvolo/inbox/session/v2` -/
def sessionSigContext : InboxBytes := asBytes "arvolo/inbox/session/v2"

inductive InboxStatus
  | gone
  | badToken
  | pending
  | arrived
  | taken
  deriving DecidableEq

structure InboxRow where
  value : InboxBytes
  expiresAt : ℤ
  posterHash : Option InboxBytes
  fetchedAt : Option ℤ
  takenAt : Option ℤ
  deriving DecidableEq

/-- An offer, by its slot and its id. -/
abbrev OfferKey := String × String

inductive InboxRequest
  | post (slot : String) (ttl : Option ℕ) (posterHash : Option String) (body : InboxBytes)
  | get (slot : String) (wait : ℕ) (have_ auth : Option String)
  | delete (slot id : String) (posterToken auth : Option String)
  | status (slot id : String) (wait : ℕ) (since : String) (posterToken : Option String)
  deriving DecidableEq

/-- What a request still has to do. -/
inductive InboxJob
  | enrol (slot : String) (exp now : ℕ) (posterHash body : InboxBytes)
  | put (slot id : String) (exp : ℕ) (posterHash body : InboxBytes)
  /-- A reader of the slot, whose session was looked at when it came. -/
  | poll (slot : String) (have_ : List String) (deadline came : ℕ) (auth : String)
  | mark (slot : String) (items : List (String × InboxBytes)) (came : ℕ) (auth : String)
  | take (slot id : String) (came : ℕ) (auth : String)
  | status (slot id token since : String) (deadline : ℕ)
  deriving DecidableEq

inductive InboxAnswer
  | posted (id : String)
  | items (items : List (String × InboxBytes))
  | word (w : String)
  | noContent
  | unauthorized
  | payloadTooLarge
  | insufficientStorage
  deriving DecidableEq

structure Inbox where
  rows : Table OfferKey InboxRow
  /-- `auth_secret`: drawn anew when the relay starts. -/
  secret : InboxBytes
  jobs : List InboxJob
  /-- The ids drawn so far. -/
  drawn : List String
  deriving DecidableEq

inductive InboxEvent
  | request (r : InboxRequest) (now : ℕ)
  /-- A job's turn, with what `random_claim` would draw. -/
  | turn (i now : ℕ) (draw : String)
  | reap (now : ℕ)
  | restart (secret : InboxBytes)
  deriving DecidableEq

namespace InboxPrims

variable (p : InboxPrims)

/-- `slot_key`: the key a slot names. -/
def slotKey (slot : String) : Option InboxBytes :=
  (p.base32 (asBytes (p.upper (trim slot)))).filter fun k => k.length = slotKeyLen

def decodeSessionToken (bearer : String) : Option SessionToken :=
  (p.base32 (asBytes (p.upper (trim bearer)))).bind p.fromBytes

def inboxMac (secret : InboxBytes) (slot : String) (nonce : InboxBytes) (exp : ℕ) : InboxBytes :=
  p.keyedHash secret (asBytes slot ++ nonce ++ leBytes 8 exp)

end InboxPrims

def sessionSigningInput (slot : String) (nonce : InboxBytes) (exp : ℕ) : InboxBytes :=
  sessionSigContext ++ asBytes slot ++ nonce ++ leBytes 8 exp

def stripPrefix (pre s : String) : Option String :=
  if pre.toList.isPrefixOf s.toList then some (String.ofList (s.toList.drop pre.toList.length))
  else none

/-- The token of an `Authorization` header. -/
def bearerOf (auth : String) : Option String :=
  match stripPrefix "Bearer " auth with
  | some t => some t
  | none => stripPrefix "bearer " auth

/-- The session `auth` carries is one of this slot: challenged by this relay, not over,
and signed under the key the slot names. -/
def inboxAuthorized (p : InboxPrims) (auth : Option String) (slot : String) (secret : InboxBytes)
    (now : ℕ) : Bool :=
  match (auth.bind bearerOf).bind fun t => p.decodeSessionToken (trim t) with
  | none => false
  | some t =>
      if t.exp ≤ now then false
      else if t.mac ≠ p.inboxMac secret slot t.nonce t.exp then false
      else
        match p.slotKey slot with
        | none => false
        | some key => p.verify key (sessionSigningInput slot t.nonce t.exp) t.sig

/-- `x-arvolo-inbox-have`: the ids a reader says it holds. -/
def inboxHave (header : Option String) : List String :=
  match header with
  | none => []
  | some v =>
      (((v.toList.splitOn ',').map fun id => trim (String.ofList id)).filter (· ≠ "")).take maxHaveIds

def InboxStatus.word : InboxStatus → String
  | .gone => "gone"
  | .badToken => ""
  | .pending => "pending"
  | .arrived => "fetched"
  | .taken => "taken"

namespace Inbox

variable (p : InboxPrims) (s : Inbox)

def empty (secret : InboxBytes) : Inbox := ⟨∅, secret, [], []⟩

/-! ### The store -/

/-- `INSERT OR REPLACE` -/
def inboxPut (slot id : String) (value : InboxBytes) (exp : ℕ) (posterHash : InboxBytes) : Inbox :=
  let hash := if posterHash = [] then none else some posterHash
  { s with rows := s.rows.insert (slot, id) ⟨value, asI64 exp, hash, none, none⟩ }

def inboxDeleteByPoster (slot id token : String) : Option Inbox :=
  match (s.rows.lookup (slot, id)).bind (·.posterHash) with
  | none => none
  | some stored =>
      if stored = p.blake3 (asBytes token) then some { s with rows := s.rows.erase (slot, id) }
      else none

def arrive (now : ℕ) (row : InboxRow) : InboxRow :=
  if row.fetchedAt = none then { row with fetchedAt := some (asI64 now) } else row

def inboxMarkArrived (slot : String) (ids : List String) (now : ℕ) : Inbox :=
  { s with
    rows := s.rows.mapValues fun k row =>
      if k.1 = slot ∧ k.2 ∈ ids then arrive now row else row }

def inboxStatusByPoster (slot id token : String) : InboxStatus :=
  match s.rows.lookup (slot, id) with
  | none => .gone
  | some row =>
      match row.posterHash with
      | none => .badToken
      | some stored =>
          if stored ≠ p.blake3 (asBytes token) then .badToken
          else if row.takenAt.isSome then .taken
          else if row.fetchedAt.isSome then .arrived
          else .pending

/-- The rows of a slot that a reader is given. -/
def waiting (slot : String) (now : ℕ) : List (Σ _ : OfferKey, InboxRow) :=
  s.rows.entries.filter fun r => r.1.1 = slot ∧ asI64 now < r.2.expiresAt ∧ r.2.takenAt = none

/-- The first to expire comes first. -/
def inboxList (slot : String) (now : ℕ) : List (String × InboxBytes) :=
  ((s.waiting slot now).mergeSort fun a b => a.2.expiresAt ≤ b.2.expiresAt).map fun r =>
    (r.1.2, r.2.value)

def take (now : ℕ) (row : InboxRow) : InboxRow :=
  if row.takenAt = none then { row with takenAt := some (asI64 now), value := [] } else row

def inboxMarkTaken (slot id : String) (now : ℕ) : Inbox :=
  { s with rows := s.rows.mapValues fun k row => if k = (slot, id) then take now row else row }

def inboxCount : ℕ := s.rows.entries.length

def inboxCountSlot (slot : String) (now : ℕ) : ℕ := (s.waiting slot now).length

def inboxReap (now : ℕ) : Inbox :=
  let keys := s.rows.keysWhere fun row => row.expiresAt ≤ asI64 now
  { s with rows := keys.foldl (fun t k => t.erase k) s.rows }

/-! ### The handlers -/

/-- A handler answers, or has a turn left. -/
abbrev Next := InboxAnswer ⊕ InboxJob

/-- The first part of a handler. -/
def receive (maxInboxRows : ℕ) (now : ℕ) : InboxRequest → Inbox × Next
  | .post slot ttl posterHash body =>
      if maxInboxValueBytes < body.length then (s, .inl .payloadTooLarge)
      else if asI64 maxInboxRows ≤ s.inboxCount then (s, .inl .insufficientStorage)
      else
        let hash := (posterHash.bind fun h => p.base32 (asBytes (p.upper (trim h)))).getD []
        let exp := satAdd now (min (ttl.getD inboxTtlSecs) inboxMaxTtlSecs)
        (s, .inr (.enrol slot exp now hash body))
  | .get slot wait have_ auth =>
      if inboxAuthorized p auth slot s.secret now then
        let have_ := if min wait inboxMaxWaitSecs = 0 then [] else inboxHave have_
        (s, .inr (.poll slot have_ (satAdd now (min wait inboxMaxWaitSecs)) now (auth.getD "")))
      else (s, .inl .unauthorized)
  | .delete slot id posterToken auth =>
      match posterToken.bind fun t => s.inboxDeleteByPoster p slot id (trim t) with
      | some s' => (s', .inl .noContent)
      | none =>
          if inboxAuthorized p auth slot s.secret now then
            (s, .inr (.take slot id now (auth.getD "")))
          else (s, .inl .unauthorized)
  | .status slot id wait since posterToken =>
      match posterToken with
      | none => (s, .inl .unauthorized)
      | some token =>
          (s, .inr (.status slot id (trim token) (trim since)
            (satAdd now (min wait inboxMaxWaitSecs))))

/-- Whether a reader who saw `since` is still waiting for something to happen. -/
def unchanged (since word : String) : Bool :=
  if since = "" then word ≠ "taken" else word = since

/-- A job's next turn. -/
def finish (now : ℕ) (draw : String) : InboxJob → Inbox × Next
  | .enrol slot exp came hash body =>
      if maxInboxPerSlot ≤ s.inboxCountSlot slot came then (s, .inl .insufficientStorage)
      -- `random_claim` does not draw an id twice
      else if draw ∈ s.drawn then (s, .inr (.enrol slot exp came hash body))
      else ({ s with drawn := draw :: s.drawn }, .inr (.put slot draw exp hash body))
  | .put slot id exp hash body => (s.inboxPut slot id body exp hash, .inl (.posted id))
  | .poll slot have_ deadline came auth =>
      let items := s.inboxList slot now
      if items.any fun item => item.1 ∉ have_ then (s, .inr (.mark slot items came auth))
      else if deadline ≤ now then (s, .inl (.items []))
      else (s, .inr (.poll slot have_ deadline came auth))
  | .mark slot items _ _ =>
      (s.inboxMarkArrived slot (items.map Prod.fst) now, .inl (.items items))
  | .take slot id _ _ => (s.inboxMarkTaken slot id now, .inl .noContent)
  | .status slot id token since deadline =>
      match s.inboxStatusByPoster p slot id token with
      | .badToken => (s, .inl .unauthorized)
      | .gone => (s, .inl (.word "gone"))
      | st =>
          if unchanged since st.word ∧ now < deadline then
            (s, .inr (.status slot id token since deadline))
          else (s, .inl (.word st.word))

def setJob (i : ℕ) : Next → Inbox
  | .inr job => { s with jobs := s.jobs.set i job }
  | .inl _ => { s with jobs := s.jobs.eraseIdx i }

def addJob : Next → Inbox
  | .inr job => { s with jobs := s.jobs ++ [job] }
  | .inl _ => s

def step (maxInboxRows : ℕ) (s : Inbox) : InboxEvent → Inbox
  | .request r now => (s.receive p maxInboxRows now r).1.addJob (s.receive p maxInboxRows now r).2
  | .turn i now draw =>
      match s.jobs[i]? with
      | some job => (s.finish p now draw job).1.setJob i (s.finish p now draw job).2
      | none => s
  | .reap now => s.inboxReap now
  | .restart secret => { s with secret, jobs := [] }

def run (maxInboxRows : ℕ) (s : Inbox) : List InboxEvent → Inbox :=
  List.foldl (step p maxInboxRows) s

/-! ### What an operation does to the rows -/

variable {s : Inbox} {k : OfferKey} {slot id : String} {now : ℕ}

@[simp] theorem setJob_rows (i : ℕ) (n : Next) : (s.setJob i n).rows = s.rows := by
  cases n <;> rfl

@[simp] theorem setJob_drawn (i : ℕ) (n : Next) : (s.setJob i n).drawn = s.drawn := by
  cases n <;> rfl

@[simp] theorem setJob_secret (i : ℕ) (n : Next) : (s.setJob i n).secret = s.secret := by
  cases n <;> rfl

@[simp] theorem addJob_rows (n : Next) : (s.addJob n).rows = s.rows := by
  cases n <;> rfl

@[simp] theorem addJob_drawn (n : Next) : (s.addJob n).drawn = s.drawn := by
  cases n <;> rfl

@[simp] theorem addJob_secret (n : Next) : (s.addJob n).secret = s.secret := by
  cases n <;> rfl

theorem addJob_jobs (n : Next) : (s.addJob n).jobs = s.jobs ++ n.getRight?.toList := by
  cases n with
  | inl a => exact (List.append_nil _).symm
  | inr job => rfl

/-- A turn takes a job out of its place, or puts another there. -/
theorem setJob_jobs {i : ℕ} {job : InboxJob} (h : s.jobs[i]? = some job) :
    ∃ front back, s.jobs = front ++ job :: back ∧
      ∀ (t : Inbox) (n : Next), t.jobs = s.jobs →
        (t.setJob i n).jobs = front ++ n.getRight?.toList ++ back := by
  obtain ⟨hi, rfl⟩ := List.getElem?_eq_some_iff.1 h
  refine ⟨s.jobs.take i, s.jobs.drop (i + 1), ?_, fun t n ht => ?_⟩
  · rw [List.cons_getElem_drop_succ, List.take_append_drop]
  · cases n with
    | inl a =>
        change t.jobs.eraseIdx i = _
        rw [ht, List.eraseIdx_eq_take_drop_succ]
        simp
    | inr j =>
        change t.jobs.set i j = _
        rw [ht, List.set_eq_take_append_cons_drop, if_pos hi]
        simp

theorem lookup_inboxPut (slot id : String) (value : InboxBytes) (exp : ℕ) (hash : InboxBytes) :
    (s.inboxPut slot id value exp hash).rows.lookup k =
      if k = (slot, id) then
        some ⟨value, asI64 exp, if hash = [] then none else some hash, none, none⟩
      else s.rows.lookup k :=
  Table.lookup_insert_eq ..

theorem lookup_inboxMarkArrived (slot : String) (ids : List String) (now : ℕ) :
    (s.inboxMarkArrived slot ids now).rows.lookup k = (s.rows.lookup k).map fun row =>
      if k.1 = slot ∧ k.2 ∈ ids then arrive now row else row :=
  Table.lookup_mapValues ..

theorem lookup_inboxMarkTaken (slot id : String) (now : ℕ) :
    (s.inboxMarkTaken slot id now).rows.lookup k = (s.rows.lookup k).map fun row =>
      if k = (slot, id) then take now row else row :=
  Table.lookup_mapValues ..

theorem lookup_inboxReap (now : ℕ) : (s.inboxReap now).rows.lookup k =
    (s.rows.lookup k).filter fun row => asI64 now < row.expiresAt := by
  rw [inboxReap, Table.lookup_foldl_erase]
  cases hrow : s.rows.lookup k with
  | none => simp
  | some row =>
      by_cases hexp : row.expiresAt ≤ asI64 now
      · rw [if_pos (Table.mem_keysWhere.2 ⟨row, hrow, decide_eq_true hexp⟩)]
        simp [Option.filter, hexp]
      · rw [if_neg]
        · simp [Option.filter, not_le.1 hexp]
        · intro hmem
          obtain ⟨row', hrow', hexp'⟩ := Table.mem_keysWhere.1 hmem
          obtain rfl := Option.some.inj (hrow.symm.trans hrow')
          exact hexp (of_decide_eq_true hexp')

theorem inboxDeleteByPoster_eq_some {token : String} {s' : Inbox}
    (h : s.inboxDeleteByPoster p slot id token = some s') :
    (∃ row, s.rows.lookup (slot, id) = some row ∧
      row.posterHash = some (p.blake3 (asBytes token))) ∧
    s' = { s with rows := s.rows.erase (slot, id) } := by
  unfold inboxDeleteByPoster at h
  split at h
  · cases h
  · next stored hstored =>
      split_ifs at h with heq
      obtain ⟨row, hrow, hhash⟩ := Option.bind_eq_some_iff.1 hstored
      exact ⟨⟨row, hrow, heq ▸ hhash⟩, (Option.some.inj h).symm⟩

theorem mem_inboxList {item : String × InboxBytes} :
    item ∈ s.inboxList slot now ↔ ∃ row, s.rows.lookup (slot, item.1) = some row ∧
      row.value = item.2 ∧ asI64 now < row.expiresAt ∧ row.takenAt = none := by
  simp only [inboxList, List.mem_map, List.mem_mergeSort, waiting, List.mem_filter,
    decide_eq_true_eq]
  constructor
  · rintro ⟨⟨⟨slot', id⟩, row⟩, ⟨hmem, rfl, hlive, htaken⟩, rfl⟩
    exact ⟨row, AList.mem_lookup_iff.2 hmem, rfl, hlive, htaken⟩
  · rintro ⟨row, hrow, hvalue, hlive, htaken⟩
    exact ⟨⟨(slot, item.1), row⟩, ⟨Table.mem_of_lookup hrow, rfl, hlive, htaken⟩, by rw [hvalue]⟩

end Inbox

end Arvolo.Relay
