import Arvolo.Lib.Machine
import Arvolo.Lib.Table

/-!
Receipts for what was left on a relay, and taking it back: `engine/src/deposits.rs`
and `daemon.rs` over the rows of `core/src/manager`.

A deposit or a link leaves a blob on a relay, and a deposit also an offer in the
recipient's inbox. The daemon files a receipt for it when it hears of it. The
receipt names the transfer that made it, by an id that is given anew at every
start of the engine, and `RevokeDeposit` is routed by that id.

A deposit the engine made also has a record of its own on disk, under the id of
its row, which is what `cancel` withdraws it with and what brings the row back
after a restart.
-/

namespace Arvolo.Engine

open Lib

inductive Status
  | active
  | preparing
  | waiting
  | paused
  | deposited
  | completed
  | cancelled
  | failed
  deriving DecidableEq

def Status.finished : Status → Bool
  | .completed | .cancelled | .failed => true
  | .active | .preparing | .waiting | .paused | .deposited => false

/-- An offer left in an inbox. -/
structure Posted where
  relay : String
  id : String
  posterToken : String
  deriving DecidableEq

/-- A blob on a relay and the offer that points at it, as they really are. The
sender's deadline is never before the relay's. -/
structure Deposit where
  relay : String
  claim : String
  revokeToken : String
  offer : Option Posted
  /-- When the relay drops the blob. -/
  reaped : ℕ
  /-- When the sender takes it to be dropped. -/
  expires : ℕ
  reaped_le : reaped ≤ expires
  deriving DecidableEq

/-- A row of the transfer list. -/
structure Row where
  status : Status
  /-- The claim of the blob this transfer left on a relay. -/
  made : Option String
  deriving DecidableEq

/-- `DepositRecord`, as far as it is used to withdraw. -/
structure Receipt where
  relay : String
  claim : String
  revokeToken : String
  offer : Option (String × String)
  /-- Where the offer was posted, when that is not `relay`. -/
  offerRelay : Option String
  expires : ℕ
  transferId : Option ℕ
  deriving DecidableEq

/-- A receipt of this deposit. -/
structure Receipt.Of (r : Receipt) (d : Deposit) : Prop where
  relay : r.relay = d.relay
  claim : r.claim = d.claim
  revokeToken : r.revokeToken = d.revokeToken
  offer : r.offer = d.offer.map fun o => (o.id, o.posterToken)
  expires : r.expires = d.expires

inductive RelayRequest
  | revoke (relay claim revokeToken : String)
  | retract (relay offerId posterToken : String)
  deriving DecidableEq

structure Daemon where
  now : ℕ := 0
  rows : Table ℕ Row := ∅
  nextId : ℕ := 1
  /-- The engine's own records, on disk. -/
  deposited : Table ℕ Deposit := ∅
  /-- Records the engine is about to write. -/
  unwritten : Table ℕ Deposit := ∅
  /-- Rows whose pieces are parked. -/
  parked : List ℕ := []
  receipts : Table String Receipt := ∅
  /-- `Deposited` and `LinkReady`, on their way to the intake task. -/
  events : List (ℕ × Deposit) := []
  /-- What the relays hold. -/
  blobs : List Deposit := []
  /-- Everything that was ever left on a relay. -/
  made : List Deposit := []

namespace Daemon

variable (idFor : String → String) (s : Daemon)

def onRelay (claim : String) : Prop := ∃ d ∈ s.blobs, d.claim = claim ∧ s.now < d.reaped

/-- The relays hear a request. -/
def send : RelayRequest → Daemon
  | .revoke relay claim token =>
      { s with blobs := s.blobs.filter fun d =>
          ¬ (d.relay = relay ∧ d.claim = claim ∧ d.revokeToken = token) }
  | .retract .. => s

/-- `save`: one receipt for a claim. -/
def save (r : Receipt) : Daemon := { s with receipts := s.receipts.insert (idFor r.claim) r }

/-- `record_from_event`. It does not say where the offer was posted. -/
def recordFromEvent (transferId : ℕ) (d : Deposit) : Daemon :=
  s.save idFor
    { relay := d.relay, claim := d.claim, revokeToken := d.revokeToken,
      offer := d.offer.map fun o => (o.id, o.posterToken), offerRelay := none,
      expires := d.expires, transferId := some transferId }

def setRow (t : ℕ) (row : Row) : Daemon := { s with rows := s.rows.insert t row }

/-- `cancel_deposited`: the requests its record is good for. -/
def depositRequests (d : Deposit) : List RelayRequest :=
  .revoke d.relay d.claim d.revokeToken ::
    (d.offer.map fun o => RelayRequest.retract o.relay o.id o.posterToken).toList

/-- What `cancel` asks of the relays. A finished row is left as it is, and one that
is not deposited has nothing there. -/
def cancelRequests (t : ℕ) : List RelayRequest :=
  match s.rows.lookup t with
  | some ⟨.deposited, _⟩ =>
      if t ∈ s.parked then [] else ((s.deposited.lookup t).map depositRequests).getD []
  | _ => []

/-- `cancel`. -/
def cancel (t : ℕ) : Daemon :=
  match s.rows.lookup t with
  | none => s
  | some row =>
      if row.status.finished then s
      else
        let s := (s.cancelRequests t).foldl send s
        let s := s.setRow t { row with status := .cancelled }
        if row.status = .deposited then
          { s with deposited := s.deposited.erase t, parked := s.parked.filter (· ≠ t) }
        else s

/-- `withdraw`: what it asks of the relays. -/
def withdrawRequests (r : Receipt) : List RelayRequest :=
  if r.expires ≤ s.now then []
  else
    .revoke r.relay r.claim r.revokeToken ::
      (r.offer.map fun o => RelayRequest.retract (r.offerRelay.getD r.relay) o.1 o.2).toList

/-- The row a receipt is routed to: the one that has its transfer id now. -/
def rowOf (r : Receipt) : Option ℕ := r.transferId.filter fun t => (s.rows.lookup t).isSome

/-- `revoke_deposit`: what it asks of the relays. -/
def revokeRequests (rid : String) : List RelayRequest :=
  match s.receipts.lookup rid with
  | none => []
  | some r =>
      match s.rowOf r with
      | some t => s.cancelRequests t
      | none => s.withdrawRequests r

/-- `revoke_deposit` answers `Ok` for every receipt it finds. -/
def revokeAnswersOk (rid : String) : Prop := (s.receipts.lookup rid).isSome

/-- `revoke_deposit`. -/
def revokeDeposit (rid : String) : Daemon :=
  match s.receipts.lookup rid with
  | none => s
  | some r =>
      let s' := match s.rowOf r with
        | some t => s.cancel t
        | none => (s.withdrawRequests r).foldl send s
      { s' with receipts := s'.receipts.erase rid }

/-- `register`. -/
def register (row : Row) : Daemon :=
  { s with rows := s.rows.insert s.nextId row, nextId := s.nextId + 1 }

/-- One turn of the loop over the records a start finds: the old one is removed, and
the deposit is filed under a fresh id unless it has lapsed. -/
def restoreDeposited (old : ℕ) (d : Deposit) : Daemon :=
  let s := { s with deposited := s.deposited.erase old }
  if d.expires ≤ s.now then s
  else
    let t := s.nextId
    let s := s.register ⟨.deposited, some d.claim⟩
    { s with events := s.events ++ [(t, d)], deposited := s.deposited.insert t d }

/-- The engine starts again: ids from 1, and the deposits it has a record of. -/
def restart : Daemon :=
  let loaded := s.deposited.entries
  let s := { s with rows := ∅, nextId := 1, unwritten := ∅, parked := [], events := [] }
  loaded.foldl (fun s e => s.restoreDeposited e.1 e.2) s

/-- The watcher's end of a deposited row. -/
def conclude (t : ℕ) (st : Status) : Daemon :=
  match s.rows.lookup t with
  | some ⟨.deposited, made⟩ =>
      { s.setRow t ⟨st, made⟩ with deposited := s.deposited.erase t }
  | _ => s

/-- A row that has a task and left nothing on a relay so far. -/
def working (t : ℕ) : Bool :=
  (s.rows.lookup t).any fun row =>
    row.made.isNone && !row.status.finished && row.status ≠ .deposited

/-- A new blob is committed; a relay does not give a claim twice. -/
def commit (d : Deposit) : Daemon := { s with blobs := d :: s.blobs, made := d :: s.made }

def fresh (d : Deposit) : Bool := d.claim ∉ s.made.map Deposit.claim

end Daemon

inductive DepositEvent
  | tick (n : ℕ)
  | register
  /-- A transfer's status changes, not to `Deposited`. -/
  | setStatus (t : ℕ) (st : Status)
  /-- `spawn_offline_confirm`: the row and the event, and then the record. -/
  | deposit (t : ℕ) (d : Deposit)
  | persistDeposited (t : ℕ)
  /-- A link's upload lands: the event, and then the row is finished. -/
  | linkReady (t : ℕ) (d : Deposit)
  | park (t : ℕ)
  /-- A deposit made without the engine. -/
  | cliDeposit (d : Deposit)
  /-- The intake task hears of a deposit, or loses the event. -/
  | intake
  | lag
  /-- The watcher's verdicts. -/
  | pickedUp (t : ℕ)
  | expired (t : ℕ)
  | unknown (t : ℕ)
  /-- The relay drops a blob: it was fetched. -/
  | fetched (claim : String)
  | cancel (t : ℕ)
  /-- Clear, remove and prune: a finished row goes. -/
  | removeRow (t : ℕ)
  | adoptFinished (st : Status)
  | revokeDeposit (rid : String)
  | restart
  deriving DecidableEq

namespace Daemon

variable (idFor : String → String)

def step (s : Daemon) : DepositEvent → Daemon
  | .tick n => { s with now := s.now + n }
  | .register => s.register ⟨.active, none⟩
  | .setStatus t st =>
      match s.rows.lookup t with
      | some row =>
          if row.status.finished ∨ row.status = .deposited ∨ st = .deposited then s
          else s.setRow t { row with status := st }
      | none => s
  | .deposit t d =>
      if s.working t ∧ s.fresh d then
        let s := s.commit d
        { s.setRow t ⟨.deposited, some d.claim⟩ with
          events := s.events ++ [(t, d)]
          unwritten := s.unwritten.insert t d }
      else s
  | .persistDeposited t =>
      match s.unwritten.lookup t with
      | some d =>
          { s with deposited := s.deposited.insert t d, unwritten := s.unwritten.erase t }
      | none => s
  | .linkReady t d =>
      match s.rows.lookup t with
      | some row =>
          if s.working t ∧ s.fresh d ∧ d.offer = none then
            let s := s.commit d
            { s.setRow t { row with made := some d.claim } with events := s.events ++ [(t, d)] }
          else s
      | none => s
  | .park t =>
      if s.working t then
        { s.setRow t ⟨.deposited, none⟩ with parked := t :: s.parked }
      else s
  | .cliDeposit d =>
      if s.fresh d then
        (s.commit d).save idFor
          { relay := d.relay, claim := d.claim, revokeToken := d.revokeToken,
            offer := d.offer.map fun o => (o.id, o.posterToken)
            offerRelay := d.offer.map Posted.relay, expires := d.expires, transferId := none }
      else s
  | .intake =>
      match s.events with
      | (t, d) :: events => { s with events }.recordFromEvent idFor t d
      | [] => s
  | .lag => { s with events := s.events.tail }
  | .pickedUp t => s.conclude t .completed
  | .expired t => s.conclude t .failed
  | .unknown t => { s with deposited := s.deposited.erase t }
  | .fetched claim => { s with blobs := s.blobs.filter fun d => d.claim ≠ claim }
  | .cancel t => s.cancel t
  | .removeRow t =>
      if (s.rows.lookup t).any fun row => row.status.finished then
        { s with rows := s.rows.erase t }
      else s
  | .adoptFinished st => if st.finished then s.register ⟨st, none⟩ else s
  | .revokeDeposit rid => s.revokeDeposit rid
  | .restart => s.restart

abbrev run (es : List DepositEvent) : Daemon := es.foldl (step idFor) {}

/-- What `RevokeDeposit` is for: while the blob is on the relay, an `Ok` means that
it was revoked and its offer retracted where it was posted, and that no other
transfer changed; and the receipt does not go unless the blob was revoked. -/
def Withdraws (s : Daemon) (rid : String) : Prop :=
  ∀ r, s.receipts.lookup rid = some r → s.onRelay r.claim →
    (s.revokeAnswersOk rid →
      .revoke r.relay r.claim r.revokeToken ∈ s.revokeRequests rid ∧
      (∀ d ∈ s.made, d.claim = r.claim → ∀ o ∈ d.offer,
        .retract o.relay o.id o.posterToken ∈ s.revokeRequests rid) ∧
      ∀ t row, s.rows.lookup t = some row → row.made ≠ some r.claim →
        (s.revokeDeposit rid).rows.lookup t = some row) ∧
    ((s.revokeDeposit rid).receipts.lookup rid = none →
      .revoke r.relay r.claim r.revokeToken ∈ s.revokeRequests rid)

/-- The request is routed to the row of this very deposit while it is still waiting
to be picked up, or to the receipt, and then the offer was posted where the
receipt has it. -/
def Routed (s : Daemon) (rid : String) : Prop :=
  ∀ r, s.receipts.lookup rid = some r → s.onRelay r.claim →
    match s.rowOf r with
    | some t =>
        (s.rows.lookup t).map Row.status = some .deposited ∧ t ∉ s.parked ∧
        (s.deposited.lookup t).map Deposit.claim = some r.claim
    | none => ∀ d ∈ s.made, d.claim = r.claim → ∀ o ∈ d.offer, o.relay = r.offerRelay.getD r.relay

/-! ### What is on record -/

/-- A record under the id of the row that made the deposit. -/
def Filed (s : Daemon) (t : ℕ) (d : Deposit) : Prop :=
  d ∈ s.made ∧ t < s.nextId ∧ ∀ row, s.rows.lookup t = some row → row.made = some d.claim

structure Inv (s : Daemon) : Prop where
  unique : ∀ d ∈ s.made, ∀ d' ∈ s.made, d.claim = d'.claim → d = d'
  blobs : ∀ d ∈ s.blobs, d ∈ s.made
  events : ∀ e ∈ s.events, e.2 ∈ s.made
  rows : ∀ t row, s.rows.lookup t = some row → t < s.nextId
  deposited : ∀ t d, s.deposited.lookup t = some d → s.Filed t d
  unwritten : ∀ t d, s.unwritten.lookup t = some d → s.Filed t d
  receipts : ∀ rid r, s.receipts.lookup rid = some r → ∃ d ∈ s.made, Receipt.Of r d

theorem inv_start : ({} : Daemon).Inv := by
  constructor <;> simp

theorem mem_cancelRequests {s : Daemon} {t : ℕ} {q : RelayRequest} :
    q ∈ s.cancelRequests t ↔
      (s.rows.lookup t).map Row.status = some .deposited ∧ t ∉ s.parked ∧
        ∃ d, s.deposited.lookup t = some d ∧ q ∈ depositRequests d := by
  unfold cancelRequests
  split
  next made hrow =>
    rw [hrow]
    split_ifs with hp
    · simp [hp]
    · cases hd : s.deposited.lookup t with
      | none => simp [hp]
      | some d => simp [hp]
  next hrow =>
    constructor
    · intro h
      cases h
    · rintro ⟨hst, -⟩
      obtain ⟨row, hr, hst⟩ := Option.map_eq_some_iff.mp hst
      exact absurd (by rw [hr, ← hst]) (hrow row.made)

/-- The relays may lose blobs; nothing else changes. -/
theorem foldl_send (s : Daemon) (qs : List RelayRequest) :
    ∃ blobs, (∀ d ∈ blobs, d ∈ s.blobs) ∧ qs.foldl send s = { s with blobs } := by
  induction qs generalizing s with
  | nil => exact ⟨s.blobs, fun _ h => h, rfl⟩
  | cons q qs ih =>
      obtain ⟨blobs, hsub, heq⟩ := ih (s.send q)
      cases q with
      | revoke relay claim token =>
          exact ⟨blobs, fun d hd => List.mem_of_mem_filter (hsub d hd), heq⟩
      | retract relay id token => exact ⟨blobs, hsub, heq⟩

/-- What cancelling a row may change: that row, its record, and the relays. -/
theorem cancel_eq (s : Daemon) (t : ℕ) : s.cancel t = s ∨
    ∃ row blobs parked, s.rows.lookup t = some row ∧ (∀ d ∈ blobs, d ∈ s.blobs) ∧
      (s.cancel t = { s.setRow t { row with status := .cancelled } with blobs } ∨
       s.cancel t = { s.setRow t { row with status := .cancelled } with
          blobs, parked, deposited := s.deposited.erase t }) := by
  unfold cancel
  split
  · exact .inl rfl
  next row hrow =>
    obtain ⟨blobs, hsub, heq⟩ := s.foldl_send (s.cancelRequests t)
    simp only [heq]
    split_ifs
    · exact .inl rfl
    · exact .inr ⟨row, blobs, s.parked.filter (· ≠ t), hrow, hsub, .inr rfl⟩
    · exact .inr ⟨row, blobs, s.parked, hrow, hsub, .inl rfl⟩

/-- Cancelling a row changes no other. -/
theorem lookup_cancel {s : Daemon} {t t' : ℕ} (h : t' ≠ t) :
    (s.cancel t).rows.lookup t' = s.rows.lookup t' := by
  rcases s.cancel_eq t with heq | ⟨row, blobs, parked, -, -, heq | heq⟩ <;> rw [heq]
  · exact AList.lookup_insert_ne h
  · exact AList.lookup_insert_ne h

section

variable {s : Daemon} {rid : String} {r : Receipt}

theorem revokeRequests_of_row (hr : s.receipts.lookup rid = some r) {t : ℕ}
    (ht : s.rowOf r = some t) : s.revokeRequests rid = s.cancelRequests t := by
  simp [revokeRequests, hr, ht]

theorem revokeRequests_of_none (hr : s.receipts.lookup rid = some r) (ht : s.rowOf r = none) :
    s.revokeRequests rid = s.withdrawRequests r := by
  simp [revokeRequests, hr, ht]

/-- The receipt goes, whatever was done. -/
theorem lookup_receipts_revokeDeposit (hr : s.receipts.lookup rid = some r) :
    (s.revokeDeposit rid).receipts.lookup rid = none := by
  simp [revokeDeposit, hr]

theorem lookup_rows_revokeDeposit (hr : s.receipts.lookup rid = some r) {t : ℕ}
    (ht : s.rowOf r ≠ some t) : (s.revokeDeposit rid).rows.lookup t = s.rows.lookup t := by
  simp only [revokeDeposit, hr]
  cases hrow : s.rowOf r with
  | none =>
      obtain ⟨blobs, -, heq⟩ := s.foldl_send (s.withdrawRequests r)
      simp only [heq]
  | some t' =>
      have hne : t ≠ t' := fun he => ht (he ▸ hrow)
      exact lookup_cancel hne

end

/-- In every state the daemon can reach, `RevokeDeposit` withdraws the deposit of a
receipt exactly when it is routed to it. -/
theorem Inv.withdraws_iff {s : Daemon} (h : s.Inv) (rid : String) :
    s.Withdraws rid ↔ s.Routed rid := by
  constructor
  · intro hw r hr hon
    obtain ⟨hok, -⟩ := hw r hr hon
    obtain ⟨hrevoke, hretract, -⟩ := hok (by simp [revokeAnswersOk, hr])
    cases ht : s.rowOf r with
    | some t =>
        rw [revokeRequests_of_row hr ht, mem_cancelRequests] at hrevoke
        obtain ⟨hst, hp, d, hd, hq⟩ := hrevoke
        refine ⟨hst, hp, ?_⟩
        have hclaim : r.claim = d.claim := by
          simp only [depositRequests, List.mem_cons, RelayRequest.revoke.injEq] at hq
          rcases hq with hq | hq
          · exact hq.2.1
          · obtain ⟨o, -, ho⟩ := Option.map_eq_some_iff.mp (Option.mem_toList.mp hq)
            cases ho
        rw [hd, Option.map_some, hclaim]
    | none =>
        intro d hd hclaim o ho
        have hq := hretract d hd hclaim o ho
        rw [revokeRequests_of_none hr ht, withdrawRequests] at hq
        split_ifs at hq
        · cases hq
        · simp only [List.mem_cons, reduceCtorEq, false_or] at hq
          obtain ⟨p, -, hp⟩ := Option.map_eq_some_iff.mp (Option.mem_toList.mp hq)
          simp only [RelayRequest.retract.injEq] at hp
          exact hp.1.symm
  · intro hrouted r hr hon
    have hroute := hrouted r hr hon
    obtain ⟨d, hd, hof⟩ := h.receipts rid r hr
    have hmade : ∀ d' ∈ s.made, d'.claim = r.claim → d' = d := by
      intro d' hd' hc
      exact h.unique d' hd' d hd (hc.trans hof.claim)
    suffices hreq : .revoke r.relay r.claim r.revokeToken ∈ s.revokeRequests rid ∧
        (∀ o ∈ d.offer, .retract o.relay o.id o.posterToken ∈ s.revokeRequests rid) ∧
        ∀ t row, s.rowOf r = some t → s.rows.lookup t = some row → row.made = some r.claim by
      obtain ⟨hrevoke, hretract, hrow⟩ := hreq
      refine ⟨fun _ => ⟨hrevoke, ?_, ?_⟩, fun _ => hrevoke⟩
      · intro d' hd' hc o ho
        rw [hmade d' hd' hc] at ho
        exact hretract o ho
      · intro t row hlook hne
        rw [lookup_rows_revokeDeposit hr fun ht => hne (hrow t row ht hlook), hlook]
    cases ht : s.rowOf r with
    | some t =>
        rw [ht] at hroute
        obtain ⟨hst, hp, hclaim⟩ := hroute
        obtain ⟨d', hd', hc⟩ := Option.map_eq_some_iff.mp hclaim
        obtain ⟨hmem, -, hrow⟩ := h.deposited t d' hd'
        obtain rfl := hmade d' hmem hc
        have hreq {q : RelayRequest} (hq : q ∈ depositRequests d') : q ∈ s.revokeRequests rid := by
          rw [revokeRequests_of_row hr ht, mem_cancelRequests]
          exact ⟨hst, hp, d', hd', hq⟩
        refine ⟨hreq ?_, fun o ho => hreq ?_, ?_⟩
        · rw [hof.relay, hof.claim, hof.revokeToken]
          exact List.mem_cons_self
        · refine List.mem_cons_of_mem _ (Option.mem_toList.mpr ?_)
          simp [Option.mem_def.mp ho]
        · intro t' row ht' hlook
          obtain rfl := Option.some.inj ht'
          rw [hrow row hlook, hc]
    | none =>
        rw [ht] at hroute
        have hlive : ¬ r.expires ≤ s.now := by
          obtain ⟨b, hb, hbc, hlt⟩ := hon
          obtain rfl := hmade b (h.blobs b hb) hbc
          have := b.reaped_le
          rw [hof.expires]
          omega
        rw [revokeRequests_of_none hr ht, withdrawRequests, if_neg hlive]
        refine ⟨List.mem_cons_self, fun o ho => ?_, fun t row ht' => by cases ht'⟩
        refine List.mem_cons_of_mem _ (Option.mem_toList.mpr ?_)
        rw [hof.offer, Option.mem_def.mp ho, hroute d hd hof.claim.symm o ho]
        rfl

/-! ### Runs -/

section Steps

variable {s : Daemon}

/-- A row is written, and what it made stands. -/
theorem Inv.setRow (h : s.Inv) {t : ℕ} {row : Row} (row' : Row)
    (hrow : s.rows.lookup t = some row) (hmade : ∀ c, row.made = some c → row'.made = some c) :
    (s.setRow t row').Inv := by
  have hfiled {t' : ℕ} {d : Deposit} (hf : s.Filed t' d) : (s.setRow t row').Filed t' d := by
    refine ⟨hf.1, hf.2.1, fun row'' hlook => ?_⟩
    rw [Daemon.setRow, Table.lookup_insert_eq] at hlook
    split_ifs at hlook with he
    · subst he
      obtain rfl := Option.some.inj hlook
      exact hmade _ (hf.2.2 row hrow)
    · exact hf.2.2 row'' hlook
  refine ⟨h.unique, h.blobs, h.events, ?_, ?_, ?_, h.receipts⟩
  · intro t' row'' hlook
    rw [Daemon.setRow, Table.lookup_insert_eq] at hlook
    split_ifs at hlook with he
    · exact he ▸ h.rows t row hrow
    · exact h.rows t' row'' hlook
  · exact fun t' d hd => hfiled (h.deposited t' d hd)
  · exact fun t' d hd => hfiled (h.unwritten t' d hd)

/-- Fewer blobs, records and parked pieces. -/
theorem Inv.fewer (h : s.Inv) {blobs : List Deposit} (hsub : ∀ d ∈ blobs, d ∈ s.blobs)
    {deposited : Table ℕ Deposit}
    (hdep : ∀ t d, deposited.lookup t = some d → s.deposited.lookup t = some d)
    (parked : List ℕ) : Inv { s with blobs, deposited, parked } :=
  ⟨h.unique, fun d hd => h.blobs d (hsub d hd), h.events, h.rows,
    fun t d hd => h.deposited t d (hdep t d hd), h.unwritten, h.receipts⟩

theorem lookup_of_erase {t t' : ℕ} {d : Deposit} (h : (s.deposited.erase t).lookup t' = some d) :
    s.deposited.lookup t' = some d := by
  rw [Table.lookup_erase_eq] at h
  split_ifs at h
  exact h

theorem Inv.cancel (h : s.Inv) (t : ℕ) : (s.cancel t).Inv := by
  rcases s.cancel_eq t with heq | ⟨row, blobs, parked, hrow, hsub, heq | heq⟩ <;> rw [heq]
  · exact h
  · exact (h.setRow ⟨.cancelled, row.made⟩ hrow fun _ hc => hc).fewer hsub (fun _ _ hd => hd)
      s.parked
  · exact (h.setRow ⟨.cancelled, row.made⟩ hrow fun _ hc => hc).fewer hsub
      (fun _ _ hd => lookup_of_erase hd) parked

theorem Inv.save (h : s.Inv) {idFor : String → String} {r : Receipt} {d : Deposit}
    (hd : d ∈ s.made) (hof : r.Of d) : (s.save idFor r).Inv := by
  refine ⟨h.unique, h.blobs, h.events, h.rows, h.deposited, h.unwritten, ?_⟩
  intro rid r' hr'
  rw [Daemon.save, Table.lookup_insert_eq] at hr'
  split_ifs at hr'
  · obtain rfl := Option.some.inj hr'
    exact ⟨d, hd, hof⟩
  · exact h.receipts rid r' hr'

theorem Inv.revokeDeposit (h : s.Inv) (rid : String) : (s.revokeDeposit rid).Inv := by
  have herase {s' : Daemon} (h' : s'.Inv) :
      Inv { s' with receipts := s'.receipts.erase rid } := by
    refine ⟨h'.unique, h'.blobs, h'.events, h'.rows, h'.deposited, h'.unwritten, ?_⟩
    intro rid' r' hr'
    rw [Table.lookup_erase_eq] at hr'
    split_ifs at hr'
    exact h'.receipts rid' r' hr'
  unfold Daemon.revokeDeposit
  split
  · exact h
  next r _ =>
    refine herase ?_
    split
    · exact h.cancel _
    · obtain ⟨blobs, hsub, heq⟩ := s.foldl_send (s.withdrawRequests r)
      rw [heq]
      exact h.fewer hsub (fun _ _ hd => hd) s.parked

/-- A blob with a new claim. -/
theorem Inv.commit (h : s.Inv) {d : Deposit} (hfresh : s.fresh d = true) : (s.commit d).Inv := by
  have hnew : ∀ d' ∈ s.made, d'.claim ≠ d.claim := by
    intro d' hd' he
    have hmem : d.claim ∈ s.made.map Deposit.claim := List.mem_map.mpr ⟨d', hd', he⟩
    simp [Daemon.fresh, hmem] at hfresh
  have hfiled {t : ℕ} {d' : Deposit} (hf : s.Filed t d') : (s.commit d).Filed t d' :=
    ⟨List.mem_cons_of_mem _ hf.1, hf.2⟩
  constructor
  · intro a ha b hb hab
    rcases List.mem_cons.mp ha with rfl | ha'
    · rcases List.mem_cons.mp hb with rfl | hb'
      · rfl
      · exact absurd hab.symm (hnew b hb')
    · rcases List.mem_cons.mp hb with rfl | hb'
      · exact absurd hab (hnew a ha')
      · exact h.unique a ha' b hb' hab
  · intro b hb
    rcases List.mem_cons.mp hb with rfl | hb
    · exact List.mem_cons_self
    · exact List.mem_cons_of_mem _ (h.blobs b hb)
  · exact fun e he => List.mem_cons_of_mem _ (h.events e he)
  · exact h.rows
  · exact fun t d' hd' => hfiled (h.deposited t d' hd')
  · exact fun t d' hd' => hfiled (h.unwritten t d' hd')
  · intro rid r hr
    obtain ⟨d', hd', hof⟩ := h.receipts rid r hr
    exact ⟨d', List.mem_cons_of_mem _ hd', hof⟩

theorem Inv.register (h : s.Inv) (row : Row)
    (hfree : ∀ t d, s.deposited.lookup t = some d ∨ s.unwritten.lookup t = some d → t ≠ s.nextId) :
    (s.register row).Inv := by
  have hfiled {t : ℕ} {d : Deposit} (hf : s.Filed t d) (hne : t ≠ s.nextId) :
      (s.register row).Filed t d := by
    refine ⟨hf.1, Nat.lt_succ_of_lt hf.2.1, fun row' hlook => hf.2.2 row' ?_⟩
    rwa [Daemon.register, Table.lookup_insert_eq, if_neg hne] at hlook
  refine ⟨h.unique, h.blobs, h.events, ?_, ?_, ?_, h.receipts⟩
  · intro t row' hlook
    rw [Daemon.register, Table.lookup_insert_eq] at hlook
    split_ifs at hlook with he
    · exact he ▸ Nat.lt_succ_self _
    · exact Nat.lt_succ_of_lt (h.rows t row' hlook)
  · exact fun t d hd => hfiled (h.deposited t d hd) (hfree t d (.inl hd))
  · exact fun t d hd => hfiled (h.unwritten t d hd) (hfree t d (.inr hd))

theorem working_spec {t : ℕ} (h : s.working t = true) :
    ∃ row, s.rows.lookup t = some row ∧ row.made = none := by
  unfold working at h
  cases hrow : s.rows.lookup t with
  | none => simp [hrow] at h
  | some row =>
      simp only [hrow, Option.any_some, Bool.and_eq_true, Option.isNone_iff_eq_none] at h
      exact ⟨row, rfl, h.1.1⟩

/-- No record stands under an id that is still to be given. -/
theorem Inv.free (h : s.Inv) {t : ℕ} {d : Deposit}
    (hd : s.deposited.lookup t = some d ∨ s.unwritten.lookup t = some d) : t ≠ s.nextId := by
  rcases hd with hd | hd
  · exact (h.deposited t d hd).2.1.ne
  · exact (h.unwritten t d hd).2.1.ne

/-- The row of a new blob, and the event that tells of it. -/
theorem Inv.deposit (h : s.Inv) {t : ℕ} {d : Deposit} (hw : s.working t = true)
    (hfresh : s.fresh d = true) (row' : Row) (hmade : row'.made = some d.claim) :
    Inv { (s.commit d).setRow t row' with events := s.events ++ [(t, d)] } ∧
      { (s.commit d).setRow t row' with events := s.events ++ [(t, d)] }.Filed t d := by
  obtain ⟨row, hrow, hnone⟩ := working_spec hw
  have hinv := (h.commit hfresh).setRow row' hrow (by simp [hnone])
  refine ⟨⟨hinv.unique, hinv.blobs, ?_, hinv.rows, hinv.deposited, hinv.unwritten,
    hinv.receipts⟩, List.mem_cons_self, h.rows t row hrow, ?_⟩
  · intro e he
    rcases List.mem_append.mp he with he | he
    · exact hinv.events e he
    · rw [List.mem_singleton.mp he]
      exact List.mem_cons_self
  · intro row'' hlook
    rw [Daemon.setRow, AList.lookup_insert] at hlook
    rw [← Option.some.inj hlook, hmade]

theorem Inv.conclude (h : s.Inv) (t : ℕ) (st : Status) : (s.conclude t st).Inv := by
  unfold Daemon.conclude
  split
  next made hrow =>
    exact (h.setRow ⟨st, made⟩ hrow fun _ hc => hc).fewer (fun _ hd => hd)
      (fun _ _ hd => lookup_of_erase hd) s.parked
  next => exact h

/-! A start takes the records one after the other. Until its turn comes a record of
the last run stands under its old id, which may be one this run has given already:
then filing the new one writes over it, or removing it takes the new one along. -/

structure Restoring (s : Daemon) (todo : List (Σ _ : ℕ, Deposit)) : Prop where
  inv : Inv { s with deposited := ∅ }
  loaded : ∀ e ∈ todo, e.2 ∈ s.made
  deposited : ∀ t d, s.deposited.lookup t = some d → s.Filed t d ∨ ⟨t, d⟩ ∈ todo

theorem Restoring.restoreDeposited {old : ℕ} {d : Deposit} {todo : List (Σ _ : ℕ, Deposit)}
    (h : s.Restoring (⟨old, d⟩ :: todo)) : (s.restoreDeposited old d).Restoring todo := by
  have hd : d ∈ s.made := h.loaded ⟨old, d⟩ List.mem_cons_self
  have htodo : ∀ e ∈ todo, e.2 ∈ s.made := fun e he => h.loaded e (List.mem_cons_of_mem _ he)
  -- What is left once the old record is removed.
  have hrest : ∀ t d', (s.deposited.erase old).lookup t = some d' →
      s.Filed t d' ∨ ⟨t, d'⟩ ∈ todo := by
    intro t d' hlook
    rw [Table.lookup_erase_eq] at hlook
    split_ifs at hlook with hne
    rcases h.deposited t d' hlook with hf | hmem
    · exact .inl hf
    · rcases List.mem_cons.mp hmem with he | hmem
      · cases he
        exact absurd rfl hne
      · exact .inr hmem
  unfold Daemon.restoreDeposited
  dsimp only
  split_ifs
  · exact ⟨h.inv, htodo, hrest⟩
  · have hreg := h.inv.register ⟨.deposited, some d.claim⟩ fun t d' hd' => h.inv.free hd'
    refine ⟨⟨hreg.unique, hreg.blobs, ?_, hreg.rows, hreg.deposited, hreg.unwritten,
      hreg.receipts⟩, htodo, ?_⟩
    · intro e he
      rcases List.mem_append.mp he with he | he
      · exact hreg.events e he
      · rw [List.mem_singleton.mp he]
        exact hd
    · intro t d' hlook
      rw [Table.lookup_insert_eq] at hlook
      split_ifs at hlook with he
      · obtain rfl := Option.some.inj hlook
        refine .inl ⟨hd, he ▸ Nat.lt_succ_self _, fun row hrow => ?_⟩
        rw [Daemon.register, he, AList.lookup_insert] at hrow
        rw [← Option.some.inj hrow]
      · refine (hrest t d' hlook).imp_left fun hf => ⟨hf.1, Nat.lt_succ_of_lt hf.2.1, ?_⟩
        intro row hrow
        rw [Daemon.register, AList.lookup_insert_ne he] at hrow
        exact hf.2.2 row hrow

theorem Restoring.foldl (todo : List (Σ _ : ℕ, Deposit)) (h : s.Restoring todo) :
    (todo.foldl (fun s e => s.restoreDeposited e.1 e.2) s).Inv := by
  induction todo generalizing s with
  | nil =>
      refine ⟨h.inv.unique, h.inv.blobs, h.inv.events, h.inv.rows, fun t d hd => ?_,
        h.inv.unwritten, h.inv.receipts⟩
      exact (h.deposited t d hd).resolve_right (List.not_mem_nil)
  | cons e todo ih => exact ih h.restoreDeposited

theorem Inv.restart (h : s.Inv) : s.restart.Inv := by
  refine Restoring.foldl _ ⟨?_, ?_, ?_⟩
  · exact ⟨h.unique, h.blobs, by simp, by simp, by simp, by simp, h.receipts⟩
  · intro e he
    exact (h.deposited e.1 e.2 (AList.mem_lookup_iff.mpr he)).1
  · intro t d hd
    exact .inr (Table.mem_of_lookup hd)

theorem Inv.step (idFor : String → String) (h : s.Inv) (e : DepositEvent) :
    (s.step idFor e).Inv := by
  cases e with
  | tick n => exact ⟨h.unique, h.blobs, h.events, h.rows, h.deposited, h.unwritten, h.receipts⟩
  | register => exact h.register _ fun t d hd => h.free hd
  | adoptFinished st =>
      simp only [Daemon.step]
      split_ifs
      · exact h.register _ fun t d hd => h.free hd
      · exact h
  | setStatus t st =>
      simp only [Daemon.step]
      split
      next row hrow =>
        split_ifs
        · exact h
        · exact h.setRow ⟨st, row.made⟩ hrow fun _ hc => hc
      next => exact h
  | deposit t d =>
      simp only [Daemon.step]
      split_ifs with hc
      · obtain ⟨hinv, hfiled⟩ := h.deposit hc.1 hc.2 ⟨.deposited, some d.claim⟩ rfl
        refine ⟨hinv.unique, hinv.blobs, hinv.events, hinv.rows, hinv.deposited, ?_,
          hinv.receipts⟩
        intro t' d' hd'
        rw [Table.lookup_insert_eq] at hd'
        split_ifs at hd' with he
        · obtain rfl := Option.some.inj hd'
          exact he ▸ hfiled
        · exact hinv.unwritten t' d' hd'
      · exact h
  | persistDeposited t =>
      simp only [Daemon.step]
      split
      next d hd =>
        refine ⟨h.unique, h.blobs, h.events, h.rows, ?_, ?_, h.receipts⟩
        · intro t' d' hd'
          rw [Table.lookup_insert_eq] at hd'
          split_ifs at hd' with he
          · obtain rfl := Option.some.inj hd'
            exact he ▸ h.unwritten t d hd
          · exact h.deposited t' d' hd'
        · intro t' d' hd'
          rw [Table.lookup_erase_eq] at hd'
          split_ifs at hd'
          exact h.unwritten t' d' hd'
      next => exact h
  | linkReady t d =>
      simp only [Daemon.step]
      split
      next row hrow =>
        split_ifs with hc
        · exact (h.deposit hc.1 hc.2.1 ⟨row.status, some d.claim⟩ rfl).1
        · exact h
      next => exact h
  | park t =>
      simp only [Daemon.step]
      split_ifs with hw
      · obtain ⟨row, hrow, hnone⟩ := working_spec hw
        exact (h.setRow ⟨.deposited, none⟩ hrow (by simp [hnone])).fewer (fun _ hd => hd)
          (fun _ _ hd => hd) _
      · exact h
  | cliDeposit d =>
      simp only [Daemon.step]
      split_ifs with hfresh
      · exact (h.commit hfresh).save List.mem_cons_self ⟨rfl, rfl, rfl, rfl, rfl⟩
      · exact h
  | intake =>
      simp only [Daemon.step]
      split
      next t d events hev =>
        have hrest : Inv { s with events } :=
          ⟨h.unique, h.blobs, fun e he => h.events e (hev ▸ List.mem_cons_of_mem _ he), h.rows,
            h.deposited, h.unwritten, h.receipts⟩
        exact hrest.save (h.events (t, d) (hev ▸ List.mem_cons_self)) ⟨rfl, rfl, rfl, rfl, rfl⟩
      next => exact h
  | lag =>
      exact ⟨h.unique, h.blobs, fun e he => h.events e (List.mem_of_mem_tail he), h.rows,
        h.deposited, h.unwritten, h.receipts⟩
  | pickedUp t => exact h.conclude t .completed
  | expired t => exact h.conclude t .failed
  | unknown t => exact h.fewer (fun _ hd => hd) (fun _ _ hd => lookup_of_erase hd) s.parked
  | fetched claim =>
      exact h.fewer (fun d hd => List.mem_of_mem_filter hd) (fun _ _ hd => hd) s.parked
  | cancel t => exact h.cancel t
  | removeRow t =>
      simp only [Daemon.step]
      split_ifs
      · have hsub {t' : ℕ} {row : Row} (hlook : (s.rows.erase t).lookup t' = some row) :
            s.rows.lookup t' = some row := by
          rw [Table.lookup_erase_eq] at hlook
          split_ifs at hlook
          exact hlook
        exact ⟨h.unique, h.blobs, h.events, fun t' row hlook => h.rows t' row (hsub hlook),
          fun t' d hd => (h.deposited t' d hd).imp_right fun hf =>
            hf.imp_right fun hr row hlook => hr row (hsub hlook),
          fun t' d hd => (h.unwritten t' d hd).imp_right fun hf =>
            hf.imp_right fun hr row hlook => hr row (hsub hlook), h.receipts⟩
      · exact h
  | revokeDeposit rid => exact h.revokeDeposit rid
  | restart => exact h.restart

end Steps

theorem inv_run (es : List DepositEvent) : (run idFor es).Inv :=
  List.foldlRecOn es _ inv_start fun _ hs e _ => hs.step idFor e

/-- In every state the daemon can come to, `RevokeDeposit` withdraws the deposit of a
receipt, and nothing else, exactly when it is routed to it. -/
theorem withdraws_iff_routed (es : List DepositEvent) (rid : String) :
    (run idFor es).Withdraws rid ↔ (run idFor es).Routed rid :=
  (inv_run idFor es).withdraws_iff rid

/-- A blob that has an hour to live, behind a link. -/
def linked : Deposit :=
  { relay := "relay", claim := "c", revokeToken := "t", offer := none, reaped := 3600,
    expires := 3600, reaped_le := le_refl _ }

/-- The link is ready, its receipt filed and its row finished. Withdrawing it drops
the receipt, answers `Ok`, and asks nothing of the relay. -/
theorem not_withdraws :
    ¬ ∀ (idFor : String → String) (es : List DepositEvent) (rid : String),
      (run idFor es).Withdraws rid := by
  intro h
  have hw := h id [.register, .linkReady 1 linked, .intake, .setStatus 1 .completed] "c"
    { relay := "relay", claim := "c", revokeToken := "t", offer := none, offerRelay := none,
      expires := 3600, transferId := some 1 } (by decide +kernel)
    ⟨linked, by decide +kernel, by decide +kernel, by decide +kernel⟩
  have hreq := (hw.1 (by unfold revokeAnswersOk; decide +kernel)).1
  revert hreq
  decide +kernel

end Daemon

end Arvolo.Engine
