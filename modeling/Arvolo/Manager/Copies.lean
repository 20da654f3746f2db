import Arvolo.Relay.Deposits

/-!
The copies a sender leaves on a relay, as the relay accounts for them
(`relay/src/mailbox.rs` and `relay/src/http.rs`): the sealed blob of a deposit, a
row of `entries`, and the pieces of a parked send, each with its file and the
`seeded` rows that name it. With a copy goes what the sender keeps of it while it
uploads, and from which it reckons the copy's lifetime.
-/

namespace Arvolo.Manager.Pickup

/-! ### A deposit on the relay -/

def offlineTtlSecs : ℕ := 7 * 24 * 3600
def parkTtlSecs : ℕ := 7 * 24 * 3600
def offlineMaxDownloads : ℕ := 1
def maxDownloadsCap : ℕ := 10000

/-- `u64::saturating_add`. -/
def satAdd (a b : ℕ) : ℕ := min (a + b) (2 ^ 64 - 1)

/-- The relay a copy is on. -/
structure RelayTraits where
  maxTtl : ℕ
  /-- It names the lifetime it granted. -/
  tells : Bool
  /-- It has the route the watcher asks. -/
  route : Bool
  /-- Its status answer carries the download counts. -/
  counts : Bool
  deriving DecidableEq

/-- A row of `entries`. -/
structure Entry where
  expiresAt : ℕ
  maxDownloads : ℕ
  downloads : ℕ
  deriving DecidableEq

/-- The row, and the lifetime granted. -/
def commitDeposit (maxTtl ttl max now : ℕ) : Entry × ℕ :=
  let ttl := min ttl maxTtl
  ({ expiresAt := satAdd now ttl
     maxDownloads := min (Nat.max 1 max) maxDownloadsCap
     downloads := 0 }, ttl)

/-- Whether the blob is served, and the row afterwards. -/
def fetchPlan (row : Option Entry) (now : ℕ) : Bool × Option Entry :=
  match row with
  | none => (false, none)
  | some e =>
      if e.expiresAt ≤ now then (false, none)
      else if e.maxDownloads ≤ e.downloads then (false, none)
      else if e.maxDownloads ≤ e.downloads + 1 then (true, none)
      else (true, some { e with downloads := e.downloads + 1 })

/-- A fetch that is spent by its `ackFetch`. -/
def fetchPlanHeld (row : Option Entry) (now : ℕ) : Bool × Option Entry :=
  match row with
  | none => (false, none)
  | some e =>
      if e.expiresAt ≤ now then (false, none)
      else if e.maxDownloads ≤ e.downloads then (false, none)
      else (true, some e)

def ackFetch (row : Option Entry) (now : ℕ) : Option Entry :=
  row.bind fun e =>
    if e.expiresAt ≤ now || e.maxDownloads ≤ e.downloads + 1 then none
    else some { e with downloads := e.downloads + 1 }

def reap (row : Option Entry) (now : ℕ) : Option Entry :=
  row.filter fun e => now < e.expiresAt

def entryCounts (row : Option Entry) (now : ℕ) : Option (ℕ × ℕ) :=
  (row.filter fun e => now < e.expiresAt).map fun e => (e.downloads, e.maxDownloads)

/-- What the lifetime of a copy depends on in the relay's row. -/
def Entry.ofRow (e : Relay.Entry) : Entry := ⟨Lib.asU64 e.expiresAt, e.maxDownloads, e.downloads⟩

/-- The operations on one row are those of the mailbox, seen at the claim. -/
theorem fetchPlan_ofRow (mb : Relay.Mailbox) (claim : Relay.Name) (now : ℕ) :
    fetchPlan ((mb.entries.lookup claim).map .ofRow) now =
      ((mb.fetchPlan claim now).1.isOk,
        ((mb.fetchPlan claim now).2.entries.lookup claim).map .ofRow) := by
  cases hrow : mb.entries.lookup claim with
  | none => simp [Relay.Mailbox.fetchPlan, hrow, fetchPlan, Except.isOk, Except.toBool]
  | some e =>
      simp only [Relay.Mailbox.fetchPlan, hrow, fetchPlan, Option.map_some, Entry.ofRow,
        Relay.Entry.late, decide_eq_true_eq]
      split_ifs <;> simp [Except.isOk, Except.toBool, Entry.ofRow]

theorem fetchPlanHeld_ofRow (mb : Relay.Mailbox) (claim : Relay.Name) (now : ℕ) :
    fetchPlanHeld ((mb.entries.lookup claim).map .ofRow) now =
      ((mb.fetchPlanHeld claim now).1.isOk,
        ((mb.fetchPlanHeld claim now).2.entries.lookup claim).map .ofRow) := by
  cases hrow : mb.entries.lookup claim with
  | none => simp [Relay.Mailbox.fetchPlanHeld, hrow, fetchPlanHeld, Except.isOk, Except.toBool]
  | some e =>
      simp only [Relay.Mailbox.fetchPlanHeld, hrow, fetchPlanHeld, Option.map_some, Entry.ofRow,
        Relay.Entry.late, decide_eq_true_eq]
      split_ifs <;> simp [Except.isOk, Except.toBool, hrow, Entry.ofRow]

theorem ackFetch_ofRow (mb : Relay.Mailbox) (claim : Relay.Name) (now : ℕ) :
    ackFetch ((mb.entries.lookup claim).map .ofRow) now =
      ((mb.ackFetch claim now).2.entries.lookup claim).map .ofRow := by
  cases hrow : mb.entries.lookup claim with
  | none => simp [Relay.Mailbox.ackFetch, hrow, ackFetch]
  | some e =>
      simp only [Relay.Mailbox.ackFetch, hrow, ackFetch, Option.map_some, Option.bind_some,
        Entry.ofRow, Relay.Entry.late, decide_eq_true_eq, Bool.or_eq_true]
      split_ifs <;> simp [Entry.ofRow]

/-- Who asked for the deposit: `run_deposit` with the user's options, or
`deliver_to_inner` with the defaults. -/
inductive Path
  | explicit (ttl max : ℕ)
  | fallback
  deriving DecidableEq

def Path.ttl : Path → ℕ
  | .explicit ttl _ => ttl
  | .fallback => offlineTtlSecs

def Path.max : Path → ℕ
  | .explicit _ max => max
  | .fallback => offlineMaxDownloads

/-- `granted_ttl_from`. -/
def grantedTtlFrom (raw : Option ℕ) (asked : ℕ) : ℕ := (raw.map (min · asked)).getD asked

/-- The deposit at the relay, and the sender's own idea of its lifetime. -/
structure Blob where
  relay : RelayTraits
  row : Option Entry
  lifetime : ℕ
  /-- When the relay lets it go, also after the row is deleted. -/
  expiresAt : ℕ
  /-- The relay has served it. -/
  fetched : Bool
  deriving DecidableEq

/-- A deposit the relay has just committed. -/
def Blob.start (relay : RelayTraits) (path : Path) (now : ℕ) : Blob :=
  let (e, granted) := commitDeposit relay.maxTtl path.ttl path.max now
  let ttl := grantedTtlFrom (if relay.tells then some granted else none) path.ttl
  { relay, row := some e, expiresAt := e.expiresAt, fetched := false
    lifetime := match path with
      | .explicit .. => ttl
      | .fallback => offlineTtlSecs }

inductive BlobEvent
  | fetch
  | fetchHeld
  /-- The recipient has the blob it was served on hold. -/
  | ack
  | reap
  deriving DecidableEq

def Blob.act (b : Blob) (now : ℕ) : BlobEvent → Blob
  | .fetch =>
      let (served, row) := fetchPlan b.row now
      { b with row, fetched := b.fetched || served }
  | .fetchHeld =>
      let (served, row) := fetchPlanHeld b.row now
      { b with row, fetched := b.fetched || served }
  | .ack => if b.fetched then { b with row := ackFetch b.row now } else b
  | .reap => { b with row := reap b.row now }

structure ClaimInfo where
  present : Bool
  downloads : Option ℕ
  maxDownloads : Option ℕ
  deriving DecidableEq

/-- The answer from which a deposit's watcher reads a pickup at any time. -/
def ClaimInfo.gone (i : ClaimInfo) : Bool := i.downloads.any (1 ≤ ·) || !i.present

/-- `claim_info` of the relay's answer. A relay without the route says 404, as for an
entry that is gone. -/
def Blob.claimInfo (b : Blob) (now : ℕ) : ClaimInfo :=
  match if b.relay.route then entryCounts b.row now else none with
  | some (downloads, max) =>
      if b.relay.counts then ⟨true, some downloads, some max⟩ else ⟨true, none, none⟩
  | none => ⟨false, none, none⟩

/-- A row that is gone was collected or has expired, and one that counts a download was
collected. -/
def Blob.Inv (b : Blob) (now : ℕ) : Prop :=
  match b.row with
  | none => b.fetched ∨ b.expiresAt ≤ now
  | some e => e.expiresAt = b.expiresAt ∧ 1 ≤ e.maxDownloads ∧ (1 ≤ e.downloads → b.fetched)

theorem Blob.inv_start (relay : RelayTraits) (path : Path) (now : ℕ) :
    (Blob.start relay path now).Inv now := by
  simp [Blob.start, Blob.Inv, commitDeposit, maxDownloadsCap]

theorem Blob.Inv.act {b : Blob} {now : ℕ} (h : b.Inv now) (e : BlobEvent) :
    (b.act now e).Inv now := by
  cases hrow : b.row with
  | none =>
      simp only [Blob.Inv, hrow] at h
      cases e with
      | ack =>
          simp only [Blob.act, hrow, ackFetch, Option.bind_none]
          split_ifs <;> simpa [Blob.Inv, hrow] using h
      | _ => simpa [Blob.act, hrow, fetchPlan, fetchPlanHeld, reap, Blob.Inv] using h
  | some e' =>
      simp only [Blob.Inv, hrow] at h
      obtain ⟨hexp, hmax, hcount⟩ := h
      cases e with
      | fetch =>
          simp only [Blob.act, hrow, fetchPlan]
          split_ifs with hlate hspent
          · simp [Blob.Inv, ← hexp, hlate]
          · simp [Blob.Inv, hcount (hmax.trans hspent)]
          · simp [Blob.Inv]
          · simp [Blob.Inv, hexp, hmax]
      | fetchHeld =>
          simp only [Blob.act, hrow, fetchPlanHeld]
          split_ifs with hlate hspent
          · simp [Blob.Inv, ← hexp, hlate]
          · simp [Blob.Inv, hcount (hmax.trans hspent)]
          · simp [Blob.Inv, hexp, hmax]
      | ack =>
          simp only [Blob.act]
          split_ifs with hf
          · simp only [hrow, ackFetch, Option.bind_some]
            split_ifs
            · simp [Blob.Inv, hf]
            · simp [Blob.Inv, hexp, hmax, hf]
          · simpa [Blob.Inv, hrow] using ⟨hexp, hmax, hcount⟩
      | reap =>
          simp only [Blob.act, hrow, reap, Option.filter]
          split_ifs with hlive
          · exact ⟨hexp, hmax, hcount⟩
          · exact .inr (by simpa [hexp] using hlive)

theorem Blob.Inv.tick {b : Blob} {now : ℕ} (h : b.Inv now) (secs : ℕ) : b.Inv (now + secs) := by
  unfold Blob.Inv at h ⊢
  split at h
  · exact h.imp_right (by omega)
  · exact h

theorem Blob.fetched_act {b : Blob} (now : ℕ) (e : BlobEvent) (h : b.fetched) :
    (b.act now e).fetched := by
  cases e with
  | ack => simp [Blob.act, h]
  | _ => simp [Blob.act, h]

/-- While the row is due, an answer from which a pickup is read was preceded by one. -/
theorem Blob.Inv.fetched_of_gone {b : Blob} {now : ℕ} (h : b.Inv now) (hroute : b.relay.route)
    (hdue : now < b.expiresAt) (hgone : (b.claimInfo now).gone) : b.fetched := by
  cases hrow : b.row with
  | none =>
      simp only [Blob.Inv, hrow] at h
      exact h.resolve_right (by omega)
  | some e =>
      simp only [Blob.Inv, hrow] at h
      obtain ⟨hexp, -, hcount⟩ := h
      have hlive : now < e.expiresAt := hexp ▸ hdue
      by_cases hc : b.relay.counts
      · apply hcount
        simpa [Blob.claimInfo, hroute, hrow, entryCounts, Option.filter, hlive, hc,
          ClaimInfo.gone] using hgone
      · simp [Blob.claimInfo, hroute, hrow, entryCounts, Option.filter, hlive, hc,
          ClaimInfo.gone] at hgone

/-! ### A parked send on the relay -/

/-- One piece: the `seeded` rows that name it, each a token and an expiry, and its file. -/
structure Piece where
  rows : List (ℕ × ℕ)
  stored : Bool
  /-- The recipient has pulled it from the relay. -/
  taken : Bool
  deriving DecidableEq

structure Pieces where
  relay : RelayTraits
  pieces : List Piece
  /-- The token this park seeds under. -/
  token : ℕ
  /-- What is left to seed, once the relay was asked what it holds. -/
  todo : Option (List ℕ)
  granted : Option ℕ
  deriving DecidableEq

def seedBatch : ℕ := 64

inductive PiecesEvent
  /-- `offload` asks what is there already, and hears or not. -/
  | have_ (heard : Bool)
  /-- It sends the next batch. -/
  | seed
  | take (i : ℕ)
  /-- The recipient frees a piece it has. -/
  | release (i : ℕ)
  /-- The relay drops a piece one of whose rows has expired. -/
  | reap (i : ℕ)
  /-- The relay drops a file without a row. -/
  | sweep (i : ℕ)
  deriving DecidableEq

def Piece.seed (token expiresAt : ℕ) (p : Piece) : Piece :=
  { p with rows := (token, expiresAt) :: p.rows.filter (·.1 ≠ token), stored := true }

def Piece.take (p : Piece) : Piece := { p with taken := p.taken || p.stored }

def Piece.release (token : ℕ) (p : Piece) : Piece :=
  if p.taken && p.rows.any (·.1 = token) then
    { p with rows := p.rows.filter (·.1 ≠ token), stored := false }
  else p

def Piece.reap (now : ℕ) (p : Piece) : Piece :=
  if p.rows.any (·.2 ≤ now) then
    { p with rows := p.rows.filter (now < ·.2), stored := false }
  else p

def Piece.sweep (p : Piece) : Piece :=
  if p.rows.isEmpty then { p with stored := false } else p

/-- The pieces the relay has, of those asked about; without the route, none. -/
def Pieces.relayHave (b : Pieces) : List ℕ :=
  if b.relay.route then (List.range b.pieces.length).filter fun i => b.pieces[i]?.any (·.stored)
  else []

def Pieces.onEach (b : Pieces) (is : List ℕ) (f : Piece → Piece) : Pieces :=
  { b with pieces := b.pieces.mapIdx fun i p => if i ∈ is then f p else p }

def Pieces.act (b : Pieces) (now : ℕ) : PiecesEvent → Pieces
  | .have_ heard =>
      if b.todo = none then
        let held := if heard then b.relayHave else []
        { b with todo := some ((List.range b.pieces.length).filter (· ∉ held)) }
      else b
  | .seed =>
      match b.todo with
      | none => b
      | some todo =>
          let ttl := min parkTtlSecs b.relay.maxTtl
          let b' := b.onEach (todo.take seedBatch) (Piece.seed b.token (satAdd now ttl))
          { b' with
            todo := some (todo.drop seedBatch)
            granted :=
              if b.relay.tells && !todo.isEmpty then
                some (b.granted.elim ttl (min · ttl))
              else b.granted }
  | .take i => b.onEach [i] Piece.take
  | .release i => b.onEach [i] (Piece.release b.token)
  | .reap i => b.onEach [i] (Piece.reap now)
  | .sweep i => b.onEach [i] Piece.sweep

theorem Pieces.all_taken_onEach {b : Pieces} {is : List ℕ} {f : Piece → Piece}
    (hf : ∀ p, p.taken → (f p).taken) (h : b.pieces.all (·.taken)) :
    (b.onEach is f).pieces.all (·.taken) := by
  simp only [List.all_eq_true] at h ⊢
  intro p hp
  obtain ⟨i, hi, rfl⟩ := List.mem_mapIdx.1 hp
  have hold := h _ (List.getElem_mem hi)
  split_ifs
  · exact hf _ hold
  · exact hold

theorem Pieces.all_taken_act {b : Pieces} (now : ℕ) (e : PiecesEvent)
    (h : b.pieces.all (·.taken)) : (b.act now e).pieces.all (·.taken) := by
  cases e with
  | have_ heard =>
      simp only [Pieces.act]
      split_ifs
      · exact h
      · exact h
      · exact h
  | seed =>
      simp only [Pieces.act]
      split
      · exact h
      · exact Pieces.all_taken_onEach (fun _ hp => hp) h
  | take i => exact Pieces.all_taken_onEach (fun p hp => by simp [Piece.take, hp]) h
  | release i =>
      refine Pieces.all_taken_onEach (fun p hp => ?_) h
      unfold Piece.release
      split_ifs <;> exact hp
  | reap i =>
      refine Pieces.all_taken_onEach (fun p hp => ?_) h
      unfold Piece.reap
      split_ifs <;> exact hp
  | sweep i =>
      refine Pieces.all_taken_onEach (fun p hp => ?_) h
      unfold Piece.sweep
      split_ifs <;> exact hp

/-- A relay that has the route and still has a piece does not answer that it has none. -/
theorem Pieces.relayHave_ne_nil {b : Pieces} (hroute : b.relay.route)
    (hstored : b.pieces.any (·.stored)) : b.relayHave ≠ [] := by
  obtain ⟨p, hp, hps⟩ := List.any_eq_true.1 hstored
  obtain ⟨i, hi, rfl⟩ := List.mem_iff_getElem.1 hp
  have hmem : i ∈ b.relayHave := by
    simp [Pieces.relayHave, hroute, hi, hps]
  exact List.ne_nil_of_mem hmem

end Arvolo.Manager.Pickup
