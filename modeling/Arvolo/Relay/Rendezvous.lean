import Arvolo.Lib.Table
import Arvolo.Relay.Clock

/-!
One slot of the rendezvous (`relay/src/http.rs`, `relay/src/mailbox.rs`).

A slot is a set of rows under keys. Version 1 uses the fixed keys `ms`, `mr` and
`tkt`, and reading `tkt` deletes the slot. In version 2 an `own` row names the hash of
the owner's token, and each receiver has the keys of one session, recognised by their
prefix. A request reads first and writes last, and any other request may run between
the two; what it still has to do is a job of the slot. A held `sessions` poll reads
again until it has something to tell. A request that the rate limits or the cap on all
slots together turn away is not made; no statement fails.
-/

namespace Arvolo.Relay

open Lib

abbrev Bytes := List UInt8

/-- A key, as its characters. -/
abbrev Key := List Char

def rzTtl : ℕ := 600
def rzClaimKey : Key := ['m', 's']
/-- Version 1's other receiver key; the handlers do not name it. -/
def rzReplyKey : Key := ['m', 'r']
def rzTicketKey : Key := ['t', 'k', 't']
def maxRzKeysPerSlot : ℕ := 32
def maxRzValueBytes : ℕ := 64 * 1024
def rzOwnKey : Key := ['o', 'w', 'n']
def rzSessionsKey : Key := ['s', 'e', 's', 's', 'i', 'o', 'n', 's']
def rzPRecv : Key := ['r', '.']
def rzPSend : Key := ['s', '.']
def rzPConf : Key := ['c', '.']
def rzPTkt : Key := ['t', '.']
def rzPBack : Key := ['b', '.']
def rzPXtra : Key := ['x', '.']
def rzV2Marker : Bytes := [50]
def rzOwnRowLen : ℕ := 40
def rzV2LeaseSecs : ℕ := 3600
def rzMaxSlotLifetime : ℕ := 24 * 3600
def rzSessionsMaxWait : ℕ := 30

inductive RzError
  | badRequest
  | forbidden
  | notFound
  | methodNotAllowed
  | conflict
  | gone
  | payloadTooLarge
  | insufficientStorage
  deriving DecidableEq

/-- `^[a-z0-9][a-z0-9._-]{0,63}$` -/
def validRzKey (k : Key) : Bool :=
  k.length ≤ 64 && (k.head?.any fun c => c.isLower || c.isDigit) &&
    k.all fun c => c.isLower || c.isDigit || c == '.' || c == '_' || c == '-'

def rzPrefixes : List Key := [rzPRecv, rzPSend, rzPConf, rzPTkt, rzPBack, rzPXtra]

/-- Whether the key belongs to a session, and by which prefix. -/
def rzSessionPrefix (key : Key) : Option Key :=
  rzPrefixes.find? fun p => p.isPrefixOf key && p.length < key.length

/-- What a request to write was, when it was checked: the token it carried, and the
hash in the `own` row it found. -/
structure Poster where
  bearer : Option Bytes
  owner : Option Bytes
  deriving DecidableEq

/-- A row of the slot. Beside the columns: who posted it, and the claim of the slot
under which it was written. -/
structure RzRow where
  value : Bytes
  expiresAt : ℤ
  poster : Poster
  under : Option ℕ
  deriving DecidableEq

/-- What a request still has to do. -/
inductive RzJob
  | write (key : Key) (value : Bytes) (exp : ℕ) (poster : Poster)
  /-- `rz_delete_slot`, for the reader of a ticket, or for a DELETE with this token. -/
  | deleteSlot (bearer : Option Bytes)
  | deleteKeys (keys : List Key)
  /-- A `sessions` poll under the given claim: the slot is renewed, and then listed. -/
  | touch (claim exp wait : ℕ)
  | list (claim deadline : ℕ)
  deriving DecidableEq

structure Slot where
  rows : Table Key RzRow
  clock : Clock
  jobs : List RzJob
  /-- How often the slot was claimed for version 2. -/
  claims : ℕ
  deriving DecidableEq

/-- What a reader is told, unless its poll is held, and what is left to do. -/
structure RzAnswer where
  told : Option Bytes
  job : Option RzJob
  deriving DecidableEq

namespace Slot

variable (blake3 : Bytes → Bytes) (s : Slot)

def empty (clock : Clock) : Slot := ⟨∅, clock, [], 0⟩

def live (row : RzRow) : Bool := s.clock.i64 < row.expiresAt

def liveRow (key : Key) : Option RzRow := (s.rows.lookup key).filter s.live

def rzGet (key : Key) : Option Bytes := (s.liveRow key).map (·.value)

def rzSlotRowCount : ℕ := (s.rows.entries.filter fun r => s.live r.2).length

/-- `INSERT OR IGNORE`: an expired row is in the way as well. -/
def rzClaim (key : Key) (row : RzRow) : Slot :=
  match s.rows.lookup key with
  | some _ => s
  | none => { s with rows := s.rows.insert key row }

def touchRow (exp : ℤ) (row : RzRow) : RzRow :=
  if s.live row && row.expiresAt < exp then { row with expiresAt := exp } else row

def rzTouchSlot (exp : ℤ) : Slot :=
  { s with rows := s.rows.mapValues fun _ row => s.touchRow exp row }

def rzDeleteKeys (keys : List Key) : Slot :=
  { s with rows := keys.foldl (fun t key => t.erase key) s.rows }

def rzDeleteSlot : Slot := { s with rows := ∅ }

/-- The keys whose row has expired. -/
def expiredKeys : List Key := (s.rows.entries.filter fun r => !s.live r.2).map (·.1)

def rzReap : Slot := s.rzDeleteKeys s.expiredKeys

/-- In no particular order. -/
def rzSlotKeysPrefixed (p : Key) : List Key :=
  (s.rows.entries.filter fun r => p.isPrefixOf r.1 && s.live r.2).map (·.1)

/-- The hash and the creation stamp of the live `own` row. -/
def rzOwnRow : Option (Bytes × ℕ) :=
  (s.rzGet rzOwnKey).bind fun row =>
    if row.length = rzOwnRowLen then some (row.take 32, ofLeBytes (row.drop 32)) else none

/-- The creation stamp, for a request that holds the owner's token. -/
def rzOwner (bearer : Option Bytes) : Except RzError ℕ :=
  match s.rzOwnRow with
  | none => .error .notFound
  | some (want, created) =>
      match bearer with
      | none => .error .forbidden
      | some token => if blake3 token = want then .ok created else .error .forbidden

def rzV2Expiry (created : ℕ) : ℕ :=
  min (satAdd s.clock.secs rzV2LeaseSecs) (satAdd created rzMaxSlotLifetime)

/-- Whether this key may be written by this request, and until when it lasts. -/
def postExpiry (key : Key) (body : Bytes) (bearer : Option Bytes) : Except RzError ℕ :=
  if key = rzOwnKey then
    if body.length ≠ 32 then .error .badRequest
    else if (s.rzGet rzClaimKey).isSome then .error .conflict
    else .ok (satAdd s.clock.secs rzV2LeaseSecs)
  else
    match rzSessionPrefix key with
    | some p =>
        match s.rzOwnRow with
        | none => .error .notFound
        | some (_, created) => do
            if p = rzPSend ∨ p = rzPTkt then
              let _ ← s.rzOwner blake3 bearer
            if s.rzV2Expiry created ≤ s.clock.secs then .error .gone
            else .ok (s.rzV2Expiry created)
    | none =>
        if s.rzOwnRow.isSome then .error .conflict else .ok (satAdd s.clock.secs rzTtl)

/-- The value stored: a claim carries its creation stamp. -/
def rowValue (key : Key) (body : Bytes) : Bytes :=
  if key = rzOwnKey then body ++ leBytes 8 s.clock.secs else body

def rzPostHandler (key : Key) (body : Bytes) (bearer : Option Bytes) : Except RzError RzJob :=
  if !validRzKey key then .error .badRequest
  else if key = rzSessionsKey then .error .methodNotAllowed
  else if maxRzValueBytes < body.length then .error .payloadTooLarge
  else if maxRzKeysPerSlot ≤ s.rzSlotRowCount then .error .insufficientStorage
  else
    (s.postExpiry blake3 key body bearer).map fun exp =>
      .write key (s.rowValue key body) exp ⟨bearer, s.rzOwnRow.map (·.1)⟩

/-- The first part of `rz_sessions`: who asks, and how far the slot is renewed. -/
def rzSessions (bearer : Option Bytes) (wait : ℕ) : Except RzError RzAnswer := do
  let created ← s.rzOwner blake3 bearer
  let exp := s.rzV2Expiry created
  if exp ≤ s.clock.secs then .error .gone
  else .ok ⟨none, some (.touch s.claims exp wait)⟩

def sessionKeys (sid : Key) : List Key := [rzPRecv, rzPSend, rzPConf, rzPTkt].map (· ++ sid)

/-- A ticket or a reply goes with its reading. -/
def readSessionKey (key p : Key) : Except RzError RzAnswer :=
  match s.rzGet key with
  | none => .error .notFound
  | some v =>
      if p = rzPTkt then
        .ok ⟨some v, some (.deleteKeys (sessionKeys (key.drop p.length)))⟩
      else if p = rzPBack ∨ p = rzPXtra then .ok ⟨some v, some (.deleteKeys [key])⟩
      else .ok ⟨some v, none⟩

/-- A key of a session: the receiver's side is for the owner. -/
def getSessionKey (key p : Key) (bearer : Option Bytes) : Except RzError RzAnswer := do
  if p = rzPRecv ∨ p = rzPConf ∨ p = rzPBack ∨ p = rzPXtra then
    let _ ← s.rzOwner blake3 bearer
  s.readSessionKey key p

/-- A version 1 key: the reader of a ticket takes the slot with it. -/
def getLegacyKey (key : Key) : Except RzError RzAnswer :=
  if key = rzClaimKey ∧ s.rzOwnRow.isSome then .error .gone
  else
    match s.rzGet key with
    | none => .error .notFound
    | some v => .ok ⟨some v, if key = rzTicketKey then some (.deleteSlot none) else none⟩

def rzGetHandler (key : Key) (bearer : Option Bytes) (wait : ℕ) : Except RzError RzAnswer :=
  if !validRzKey key then .error .badRequest
  else if key = rzOwnKey then
    if s.rzOwnRow.isSome then .ok ⟨some rzV2Marker, none⟩ else .error .notFound
  else if key = rzSessionsKey then s.rzSessions blake3 bearer wait
  else
    match rzSessionPrefix key with
    | some p => s.getSessionKey blake3 key p bearer
    | none => s.getLegacyKey key

def rzDeleteHandler (key : Key) (bearer : Option Bytes) : Except RzError RzJob :=
  if key ≠ rzOwnKey then .error .methodNotAllowed
  else (s.rzOwner blake3 bearer).map fun _ => .deleteSlot bearer

/-- The sessions a listing names: posted by a receiver, and not answered. -/
def pendingSids : List Key :=
  let answered := (s.rzSlotKeysPrefixed rzPSend).map (·.drop rzPSend.length)
  ((s.rzSlotKeysPrefixed rzPRecv).map (·.drop rzPRecv.length)).filter (· ∉ answered)

/-- The claim whose `own` row is live. -/
def liveClaim : Option ℕ := (s.liveRow rzOwnKey).bind (·.under)

/-- `rz_claim` of a job; a claim for version 2 is counted. -/
def land (key : Key) (value : Bytes) (exp : ℕ) (poster : Poster) : Slot :=
  if key = rzOwnKey then
    match s.rows.lookup key with
    | some _ => s
    | none =>
        { s.rzClaim key ⟨value, asI64 exp, poster, some (s.claims + 1)⟩ with
          claims := s.claims + 1 }
  else s.rzClaim key ⟨value, asI64 exp, poster, s.liveClaim⟩

/-- A job's next step, and the job that is left. -/
def finish : RzJob → Slot × Option RzJob
  | .write key value exp poster => (s.land key value exp poster, none)
  | .deleteSlot _ => (s.rzDeleteSlot, none)
  | .deleteKeys keys => (s.rzDeleteKeys keys, none)
  | .touch claim exp wait =>
      (s.rzTouchSlot (asI64 exp),
        some (.list claim (satAdd s.clock.secs (min wait rzSessionsMaxWait))))
  | .list claim deadline =>
      (s, if s.pendingSids = [] ∧ s.clock.secs < deadline then some (.list claim deadline) else none)

end Slot

inductive RzRequest
  | post (key : Key) (body : Bytes) (bearer : Option Bytes)
  | get (key : Key) (bearer : Option Bytes) (wait : ℕ)
  | delete (key : Key) (bearer : Option Bytes)
  deriving DecidableEq

inductive RzEvent
  | request (r : RzRequest)
  | turn (i : ℕ)
  | reap
  | tick (secs : ℕ)
  deriving DecidableEq

namespace Slot

variable (blake3 : Bytes → Bytes)

/-- What a request is left with once it has read. -/
def begin (s : Slot) : RzRequest → Option RzJob
  | .post key body bearer => (s.rzPostHandler blake3 key body bearer).toOption
  | .get key bearer wait => (s.rzGetHandler blake3 key bearer wait).toOption.bind (·.job)
  | .delete key bearer => (s.rzDeleteHandler blake3 key bearer).toOption

def setJob (s : Slot) (i : ℕ) : Option RzJob → Slot
  | some job => { s with jobs := s.jobs.set i job }
  | none => { s with jobs := s.jobs.eraseIdx i }

def step (s : Slot) : RzEvent → Slot
  | .request r => { s with jobs := s.jobs ++ (s.begin blake3 r).toList }
  | .turn i =>
      match s.jobs[i]? with
      | some job => (s.finish job).1.setJob i (s.finish job).2
      | none => s
  | .reap => s.rzReap
  | .tick secs => { s with clock := s.clock.tick secs }

def run (s : Slot) : List RzEvent → Slot := List.foldl (step blake3) s

/-! ### What an operation does to the rows -/

variable {s : Slot} {key k : Key} {row : RzRow}

theorem liveRow_eq_some : s.liveRow k = some row ↔ s.rows.lookup k = some row ∧ s.live row := by
  simp [liveRow, Option.filter_eq_some_iff]

@[simp] theorem lookup_rzDeleteKeys (keys : List Key) :
    (s.rzDeleteKeys keys).rows.lookup k = if k ∈ keys then none else s.rows.lookup k := by
  refine (Table.lookup_foldl_erase keys s.rows k).trans ?_
  congr

@[simp] theorem lookup_rzDeleteSlot : s.rzDeleteSlot.rows.lookup k = none := AList.lookup_empty k

@[simp] theorem lookup_rzTouchSlot (exp : ℤ) :
    (s.rzTouchSlot exp).rows.lookup k = (s.rows.lookup k).map (s.touchRow exp) :=
  Table.lookup_mapValues ..

theorem mem_expiredKeys : k ∈ s.expiredKeys ↔ ∃ row, s.rows.lookup k = some row ∧ ¬ s.live row := by
  constructor
  · intro h
    obtain ⟨r, hr, rfl⟩ := List.mem_map.1 h
    obtain ⟨hmem, hlive⟩ := List.mem_filter.1 hr
    exact ⟨r.2, AList.mem_lookup_iff.2 hmem, by simpa using hlive⟩
  · rintro ⟨row, hrow, hlive⟩
    refine List.mem_map.2 ⟨⟨k, row⟩, List.mem_filter.2 ⟨?_, ?_⟩, rfl⟩
    · exact Table.mem_of_lookup hrow
    · simpa using hlive

/-- Reaping takes the rows that no reader sees. -/
theorem lookup_rzReap : s.rzReap.rows.lookup k = s.liveRow k := by
  rw [rzReap, lookup_rzDeleteKeys, liveRow]
  simp only [mem_expiredKeys]
  cases hrow : s.rows.lookup k with
  | none => simp
  | some row => by_cases hl : s.live row <;> simp [Option.filter, hl]

theorem live_touchRow (exp : ℤ) (row : RzRow) : s.live (s.touchRow exp row) = s.live row := by
  unfold touchRow
  split_ifs with h
  · simp only [live, Bool.and_eq_true, decide_eq_true_eq] at h ⊢
    rw [decide_eq_true h.1, decide_eq_true (h.1.trans h.2)]
  · rfl

@[simp] theorem liveRow_rzTouchSlot (exp : ℤ) :
    (s.rzTouchSlot exp).liveRow k = (s.liveRow k).map (s.touchRow exp) := by
  have hlive : (s.rzTouchSlot exp).live = s.live := rfl
  simp only [liveRow, lookup_rzTouchSlot, hlive]
  cases s.rows.lookup k with
  | none => rfl
  | some row => by_cases hl : s.live row <;> simp [Option.filter, live_touchRow, hl]

@[simp] theorem liveRow_rzReap : s.rzReap.liveRow k = s.liveRow k := by
  have hlive : s.rzReap.live = s.live := rfl
  rw [liveRow, lookup_rzReap, hlive, liveRow]
  cases s.rows.lookup k with
  | none => rfl
  | some row => by_cases hl : s.live row <;> simp [Option.filter, hl]

@[simp] theorem liveRow_rzDeleteKeys (keys : List Key) :
    (s.rzDeleteKeys keys).liveRow k = if k ∈ keys then none else s.liveRow k := by
  have hlive : (s.rzDeleteKeys keys).live = s.live := rfl
  rw [liveRow, lookup_rzDeleteKeys, hlive]
  split_ifs <;> rfl

@[simp] theorem liveRow_rzDeleteSlot : s.rzDeleteSlot.liveRow k = none := by
  rw [liveRow, lookup_rzDeleteSlot]
  rfl

/-- What is live later is live now. -/
theorem liveRow_of_tick {secs : ℕ}
    (h : ({ s with clock := s.clock.tick secs } : Slot).liveRow k = some row) :
    s.liveRow k = some row := by
  obtain ⟨hrow, hlive⟩ := liveRow_eq_some.1 h
  refine liveRow_eq_some.2 ⟨hrow, ?_⟩
  simp only [live, decide_eq_true_eq] at hlive ⊢
  exact (s.clock.i64_le_tick secs).trans_lt hlive

/-- The row a write puts down, if it does. -/
def landed (s : Slot) (key : Key) (value : Bytes) (exp : ℕ) (poster : Poster) : RzRow :=
  ⟨value, asI64 exp, poster, if key = rzOwnKey then some (s.claims + 1) else s.liveClaim⟩

theorem land_of_some {value : Bytes} {exp : ℕ} {poster : Poster} (h : s.rows.lookup key = some row) :
    s.land key value exp poster = s := by
  simp [land, rzClaim, h]

theorem lookup_land_of_none {value : Bytes} {exp : ℕ} {poster : Poster}
    (h : s.rows.lookup key = none) :
    (s.land key value exp poster).rows.lookup k =
      if k = key then some (s.landed key value exp poster) else s.rows.lookup k := by
  by_cases hown : key = rzOwnKey
  · subst hown
    simp [land, landed, rzClaim, h, Table.lookup_insert_eq]
  · simp [land, landed, rzClaim, h, hown, Table.lookup_insert_eq]

theorem clock_land {value : Bytes} {exp : ℕ} {poster : Poster} :
    (s.land key value exp poster).clock = s.clock := by
  unfold land rzClaim
  split_ifs <;> split <;> rfl

theorem jobs_land {value : Bytes} {exp : ℕ} {poster : Poster} :
    (s.land key value exp poster).jobs = s.jobs := by
  unfold land rzClaim
  split_ifs <;> split <;> rfl

theorem jobs_finish (job : RzJob) : (s.finish job).1.jobs = s.jobs := by
  cases job with
  | write key value exp poster => exact jobs_land
  | _ => rfl

theorem clock_finish (job : RzJob) : (s.finish job).1.clock = s.clock := by
  cases job with
  | write key value exp poster => exact clock_land
  | _ => rfl

@[simp] theorem rows_setJob (i : ℕ) (next : Option RzJob) : (s.setJob i next).rows = s.rows := by
  cases next <;> rfl

@[simp] theorem clock_setJob (i : ℕ) (next : Option RzJob) : (s.setJob i next).clock = s.clock := by
  cases next <;> rfl

@[simp] theorem claims_setJob (i : ℕ) (next : Option RzJob) :
    (s.setJob i next).claims = s.claims := by
  cases next <;> rfl

@[simp] theorem liveRow_setJob (i : ℕ) (next : Option RzJob) :
    (s.setJob i next).liveRow k = s.liveRow k := by
  cases next <;> rfl

theorem mem_jobs_setJob {i : ℕ} {next : Option RzJob} {job : RzJob}
    (h : job ∈ (s.setJob i next).jobs) : job ∈ s.jobs ∨ next = some job := by
  cases next with
  | none => exact .inl (List.mem_of_mem_eraseIdx h)
  | some job' => exact (List.mem_or_eq_of_mem_set h).imp_right fun h => by rw [h]

/-! ### What a request is left with -/

theorem rzOwner_eq_ok {blake3 : Bytes → Bytes} {bearer : Option Bytes} {created : ℕ}
    (h : s.rzOwner blake3 bearer = .ok created) :
    ∃ token, bearer = some token ∧ s.rzOwnRow = some (blake3 token, created) := by
  unfold rzOwner at h
  split at h
  · cases h
  · next want stamp hown =>
    split at h
    · cases h
    · next token =>
      split_ifs at h with hhash
      obtain rfl : stamp = created := by cases h; rfl
      exact ⟨token, rfl, by rw [hown, hhash]⟩

/-- What a post that passes its checks is, and how long it lasts. -/
theorem postExpiry_eq_ok {blake3 : Bytes → Bytes} {body : Bytes} {bearer : Option Bytes} {exp : ℕ}
    (h : s.postExpiry blake3 key body bearer = .ok exp) :
    (key = rzOwnKey ∧ body.length = 32 ∧ exp = satAdd s.clock.secs rzV2LeaseSecs) ∨
      (key ≠ rzOwnKey ∧ ∃ hash created, s.rzOwnRow = some (hash, created) ∧
        exp = s.rzV2Expiry created) ∨
      (key ≠ rzOwnKey ∧ s.rzOwnRow = none ∧ exp = satAdd s.clock.secs rzTtl) := by
  by_cases hkey : key = rzOwnKey
  · refine .inl ⟨hkey, ?_⟩
    simp only [postExpiry, hkey, if_true] at h
    split_ifs at h with hlen
    exact ⟨by simpa using hlen, by simpa [eq_comm] using h⟩
  · simp only [postExpiry, hkey, if_false] at h
    split at h
    · split at h
      · cases h
      · next hash created hown =>
        refine .inr (.inl ⟨hkey, hash, created, hown, ?_⟩)
        cases howner : s.rzOwner blake3 bearer with
        | error e =>
            simp only [howner, bind, Except.bind] at h
            split_ifs at h
            exact (Except.ok.inj h).symm
        | ok created' =>
            simp only [howner, bind, Except.bind] at h
            split_ifs at h <;> exact (Except.ok.inj h).symm
    · split_ifs at h with hown
      exact .inr (.inr ⟨hkey, by simpa using hown, by simpa [eq_comm] using h⟩)

theorem rzOwnRow_eq_some {hash : Bytes} {created : ℕ} (h : s.rzOwnRow = some (hash, created)) :
    ∃ row, s.liveRow rzOwnKey = some row ∧ row.value.take 32 = hash ∧
      ofLeBytes (row.value.drop 32) = created := by
  simp only [rzOwnRow, rzGet] at h
  cases hrow : s.liveRow rzOwnKey with
  | none => simp [hrow] at h
  | some row =>
      simp only [hrow, Option.map_some, Option.bind_some, Option.ite_none_right_eq_some,
        Option.some.injEq, Prod.mk.injEq] at h
      exact ⟨row, rfl, h.2.1, h.2.2⟩

/-- The jobs a request can leave. -/
inductive Begun (blake3 : Bytes → Bytes) (s : Slot) : RzRequest → RzJob → Prop
  | post {key : Key} {body : Bytes} {bearer : Option Bytes} {exp : ℕ}
      (hroom : s.rzSlotRowCount < maxRzKeysPerSlot)
      (hexp : s.postExpiry blake3 key body bearer = .ok exp) :
      Begun blake3 s (.post key body bearer)
        (.write key (s.rowValue key body) exp ⟨bearer, s.rzOwnRow.map (·.1)⟩)
  | ticket {bearer : Option Bytes} {wait : ℕ} {v : Bytes} (hv : s.rzGet rzTicketKey = some v) :
      Begun blake3 s (.get rzTicketKey bearer wait) (.deleteSlot none)
  | session {key p : Key} {bearer : Option Bytes} {wait : ℕ} {v : Bytes} {keys : List Key}
      (hp : rzSessionPrefix key = some p) (hv : s.rzGet key = some v)
      (hkeys : p = rzPTkt ∧ keys = sessionKeys (key.drop p.length) ∨
        (p = rzPBack ∨ p = rzPXtra) ∧ keys = [key]) :
      Begun blake3 s (.get key bearer wait) (.deleteKeys keys)
  | sessions {bearer : Option Bytes} {wait created : ℕ}
      (howner : s.rzOwner blake3 bearer = .ok created) :
      Begun blake3 s (.get rzSessionsKey bearer wait) (.touch s.claims (s.rzV2Expiry created) wait)
  | delete {bearer : Option Bytes} {created : ℕ} (howner : s.rzOwner blake3 bearer = .ok created) :
      Begun blake3 s (.delete rzOwnKey bearer) (.deleteSlot bearer)

theorem readSessionKey_eq_ok {p : Key} {ans : RzAnswer} (h : s.readSessionKey key p = .ok ans) :
    ∃ v, s.rzGet key = some v ∧ ans.told = some v ∧
      ∀ job, ans.job = some job → ∃ keys, job = .deleteKeys keys ∧
        (p = rzPTkt ∧ keys = sessionKeys (key.drop p.length) ∨
          (p = rzPBack ∨ p = rzPXtra) ∧ keys = [key]) := by
  unfold readSessionKey at h
  split at h
  · cases h
  · next v hv =>
    refine ⟨v, hv, ?_⟩
    split_ifs at h with htkt hback
    · obtain rfl : _ = ans := by simpa using h
      exact ⟨rfl, fun job hjob => ⟨_, (Option.some.inj hjob).symm, .inl ⟨htkt, rfl⟩⟩⟩
    · obtain rfl : _ = ans := by simpa using h
      exact ⟨rfl, fun job hjob => ⟨_, (Option.some.inj hjob).symm, .inr ⟨hback, rfl⟩⟩⟩
    · obtain rfl : _ = ans := by simpa using h
      exact ⟨rfl, fun job hjob => nomatch hjob⟩

theorem getSessionKey_eq_ok {blake3 : Bytes → Bytes} {p : Key} {bearer : Option Bytes}
    {ans : RzAnswer} (h : s.getSessionKey blake3 key p bearer = .ok ans) :
    s.readSessionKey key p = .ok ans ∧
      (p = rzPRecv ∨ p = rzPConf ∨ p = rzPBack ∨ p = rzPXtra →
        ∃ created, s.rzOwner blake3 bearer = .ok created) := by
  unfold getSessionKey at h
  split_ifs at h with hside
  · cases howner : s.rzOwner blake3 bearer with
    | error e => simp [howner, bind, Except.bind] at h
    | ok created =>
        refine ⟨?_, fun _ => ⟨created, rfl⟩⟩
        simpa [howner, bind, Except.bind, pure, Except.pure] using h
  · exact ⟨by simpa [bind, Except.bind, pure, Except.pure] using h, fun hside' => absurd hside' hside⟩

theorem getLegacyKey_eq_ok {ans : RzAnswer} (h : s.getLegacyKey key = .ok ans) :
    ∃ v, s.rzGet key = some v ∧ ans.told = some v ∧
      ∀ job, ans.job = some job → key = rzTicketKey ∧ job = .deleteSlot none := by
  unfold getLegacyKey at h
  split at h
  · cases h
  · split at h
    · cases h
    · next v hv =>
      obtain rfl : _ = ans := by simpa using h
      refine ⟨v, hv, rfl, fun job hjob => ?_⟩
      by_cases hticket : key = rzTicketKey
      · exact ⟨hticket, by simpa [hticket, eq_comm] using hjob⟩
      · simp [hticket] at hjob

theorem rzSessions_eq_ok {blake3 : Bytes → Bytes} {bearer : Option Bytes} {wait : ℕ}
    {ans : RzAnswer} (h : s.rzSessions blake3 bearer wait = .ok ans) :
    ∃ created, s.rzOwner blake3 bearer = .ok created ∧
      ans = ⟨none, some (.touch s.claims (s.rzV2Expiry created) wait)⟩ := by
  unfold rzSessions at h
  cases howner : s.rzOwner blake3 bearer with
  | error e => simp [howner, bind, Except.bind] at h
  | ok created =>
      simp only [howner, bind, Except.bind] at h
      split_ifs at h
      exact ⟨created, rfl, by simpa [eq_comm] using h⟩

theorem begun_of_begin {blake3 : Bytes → Bytes} {r : RzRequest} {job : RzJob}
    (h : s.begin blake3 r = some job) : Begun blake3 s r job := by
  cases r with
  | post key body bearer =>
      simp only [begin, rzPostHandler] at h
      split_ifs at h with hvalid hsessions hbody hroom <;> try (simp [Except.toOption] at h; done)
      cases hexp : s.postExpiry blake3 key body bearer with
      | error e => simp [hexp, Except.map, Except.toOption] at h
      | ok exp =>
          obtain rfl : _ = job := by simpa [hexp, Except.map, Except.toOption] using h
          exact .post (by omega) hexp
  | get key bearer wait =>
      simp only [begin] at h
      cases hans : s.rzGetHandler blake3 key bearer wait with
      | error e => simp [hans, Except.toOption] at h
      | ok ans =>
          have hjob : ans.job = some job := by simpa [hans, Except.toOption] using h
          unfold rzGetHandler at hans
          split_ifs at hans with hvalid hown hlive hsessions
          · obtain rfl : _ = ans := by simpa using hans
            cases hjob
          · obtain ⟨created, howner, rfl⟩ := rzSessions_eq_ok hans
            obtain rfl := Option.some.inj hjob
            exact hsessions ▸ .sessions howner
          · split at hans
            · next p hp =>
              obtain ⟨v, hv, -, hkeys⟩ := readSessionKey_eq_ok (getSessionKey_eq_ok hans).1
              obtain ⟨keys, rfl, hkeys⟩ := hkeys job hjob
              exact .session hp hv hkeys
            · obtain ⟨v, hv, -, hticket⟩ := getLegacyKey_eq_ok hans
              obtain ⟨rfl, rfl⟩ := hticket job hjob
              exact .ticket hv
  | delete key bearer =>
      simp only [begin, rzDeleteHandler] at h
      split_ifs at h with hkey
      · simp [Except.toOption] at h
      · cases howner : s.rzOwner blake3 bearer with
        | error e => simp [howner, Except.map, Except.toOption] at h
        | ok created =>
            obtain rfl : _ = job := by simpa [howner, Except.map, Except.toOption] using h
            obtain rfl : key = rzOwnKey := by simpa using hkey
            exact .delete howner

/-! ### What a step does -/

/-- The row is another one's, but for its expiry. -/
def Renewed (row row' : RzRow) : Prop := ∃ exp, row' = { row with expiresAt := exp }

theorem renewed_refl (row : RzRow) : Renewed row row := ⟨row.expiresAt, rfl⟩

theorem renewed_touchRow (exp : ℤ) (row : RzRow) : Renewed row (s.touchRow exp row) := by
  unfold touchRow
  split_ifs
  · exact ⟨exp, rfl⟩
  · exact renewed_refl row

/-- The job of an event puts this row down under the key, which has none. -/
def Lands (s : Slot) (e : RzEvent) (key : Key) (row : RzRow) : Prop :=
  ∃ i value exp poster, e = .turn i ∧ s.jobs[i]? = some (.write key value exp poster) ∧
    s.rows.lookup key = none ∧ row = s.landed key value exp poster

theorem lookup_finish {job : RzJob} (h : (s.finish job).1.rows.lookup k = some row) :
    (∃ old, s.rows.lookup k = some old ∧ Renewed old row ∧ (s.live row → s.live old)) ∨
      ∃ value exp poster, job = .write k value exp poster ∧ s.rows.lookup k = none ∧
        row = s.landed k value exp poster := by
  have hkeep (h : s.rows.lookup k = some row) :
      ∃ old, s.rows.lookup k = some old ∧ Renewed old row ∧ (s.live row → s.live old) :=
    ⟨row, h, renewed_refl row, fun hl => hl⟩
  cases job with
  | write key value exp poster =>
      cases hkey : s.rows.lookup key with
      | some old =>
          rw [finish, land_of_some hkey] at h
          exact .inl (hkeep h)
      | none =>
          rw [finish, lookup_land_of_none hkey] at h
          split_ifs at h with hk
          · subst hk
            exact .inr ⟨value, exp, poster, rfl, hkey, (Option.some.inj h).symm⟩
          · exact .inl (hkeep h)
  | deleteSlot bearer => simp [finish] at h
  | deleteKeys keys =>
      simp only [finish, lookup_rzDeleteKeys, Option.ite_none_left_eq_some] at h
      exact .inl (hkeep h.2)
  | touch claim exp wait =>
      simp only [finish, lookup_rzTouchSlot, Option.map_eq_some_iff] at h
      obtain ⟨old, hold, rfl⟩ := h
      exact .inl ⟨old, hold, renewed_touchRow (asI64 exp) old, fun hl => by
        rwa [live_touchRow] at hl⟩
  | list claim deadline => exact .inl (hkeep h)

/-- A row after a step is one from before, renewed at most, or has just landed. -/
theorem lookup_step {blake3 : Bytes → Bytes} {e : RzEvent}
    (h : (s.step blake3 e).rows.lookup k = some row) :
    (∃ old, s.rows.lookup k = some old ∧ Renewed old row) ∨ s.Lands e k row := by
  cases e with
  | request r => exact .inl ⟨row, h, renewed_refl row⟩
  | turn i =>
      simp only [step] at h
      split at h
      · next job hjob =>
        rw [rows_setJob] at h
        rcases lookup_finish h with ⟨old, hold, hrenewed, -⟩ | ⟨value, exp, poster, rfl, hnone, hrow⟩
        · exact .inl ⟨old, hold, hrenewed⟩
        · exact .inr ⟨i, value, exp, poster, rfl, hjob, hnone, hrow⟩
      · exact .inl ⟨row, h, renewed_refl row⟩
  | reap =>
      have hlive : s.liveRow k = some row := by simpa [step, lookup_rzReap] using h
      exact .inl ⟨row, (liveRow_eq_some.1 hlive).1, renewed_refl row⟩
  | tick secs => exact .inl ⟨row, h, renewed_refl row⟩

/-- A live row after a step was live before, or has just landed. -/
theorem liveRow_step {blake3 : Bytes → Bytes} {e : RzEvent}
    (h : (s.step blake3 e).liveRow k = some row) :
    (∃ old, s.liveRow k = some old ∧ Renewed old row) ∨ s.Lands e k row := by
  cases e with
  | request r => exact .inl ⟨row, h, renewed_refl row⟩
  | turn i =>
      simp only [step] at h
      split at h
      · next job hjob =>
        rw [liveRow_setJob, liveRow_eq_some] at h
        have hsame : (s.finish job).1.live row = s.live row := by
          rw [live, live, clock_finish]
        rcases lookup_finish h.1 with ⟨old, hold, hrenewed, hlive⟩ | ⟨value, exp, poster, rfl, hnone, hrow⟩
        · exact .inl ⟨old, liveRow_eq_some.2 ⟨hold, hlive (hsame ▸ h.2)⟩, hrenewed⟩
        · exact .inr ⟨i, value, exp, poster, rfl, hjob, hnone, hrow⟩
      · exact .inl ⟨row, h, renewed_refl row⟩
  | reap =>
      have hlive : s.liveRow k = some row := by simpa [step] using h
      exact .inl ⟨row, hlive, renewed_refl row⟩
  | tick secs => exact .inl ⟨row, liveRow_of_tick h, renewed_refl row⟩

/-- A job after a step was there before, or a request has left it, or a poll goes on to its
listing. -/
theorem mem_jobs_step {blake3 : Bytes → Bytes} {e : RzEvent} {job : RzJob}
    (h : job ∈ (s.step blake3 e).jobs) :
    job ∈ s.jobs ∨ (∃ r, e = .request r ∧ Begun blake3 s r job) ∨
      ∃ claim exp wait deadline, .touch claim exp wait ∈ s.jobs ∧ job = .list claim deadline := by
  cases e with
  | request r =>
      rcases List.mem_append.1 h with h | h
      · exact .inl h
      · exact .inr (.inl ⟨r, rfl, begun_of_begin (by simpa using h)⟩)
  | turn i =>
      simp only [step] at h
      split at h
      · next job' hjob' =>
        have hmem : job' ∈ s.jobs := List.mem_of_getElem? hjob'
        rcases mem_jobs_setJob h with h | h
        · exact .inl (jobs_finish job' ▸ h)
        · cases job' with
          | touch claim exp wait =>
              exact .inr (.inr ⟨claim, exp, wait, _, hmem, (Option.some.inj h).symm⟩)
          | list claim deadline =>
              simp only [finish] at h
              split_ifs at h
              exact .inl (Option.some.inj h ▸ hmem)
          | _ => cases h
      · exact .inl h
  | _ => exact .inl h

end Slot

end Arvolo.Relay
