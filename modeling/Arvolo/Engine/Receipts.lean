import Arvolo.Lib.Table
import Arvolo.Manager.Shapes

/-!
The receipts of deposits as they are filed and filed again: `save` and `record_from_event` of
`engine/src/deposits.rs`, over what `spawn_offline_confirm` and `restore_deposited` of
`core/src/manager` tell of a deposit.

A receipt is filed by the command that made the deposit, or by whoever hears of one that the
engine made. The engine has a record of its own with fewer fields. Every start tells of the
deposits on record once more, and their receipts are written anew from what the record has.
-/

namespace Arvolo.Engine.Receipts

open Lib

/-- What is called from outside: the hash that shortens a claim, and the texts of an id. -/
structure Env (P : Type) where
  idFor : String → String
  encodeId : P → String
  toBytes : P → List UInt8
  fromBytes : List UInt8 → Option P

inductive Kind
  | link
  | offline
  deriving DecidableEq

structure PostedOffer where
  id : String
  posterToken : String
  deriving DecidableEq

structure DepositRecord where
  id : String
  kind : Kind
  relay : String
  claim : String
  revokeToken : String
  name : String
  size : ℕ
  max : ℕ
  link : Option String
  ticket : String
  recipient : Option String
  created : ℕ
  expires : ℕ
  transferId : Option ℕ
  offerId : String
  posterToken : String
  /-- Empty where the offer was left on `relay`. -/
  offerRelay : String
  deriving DecidableEq

/-- Where an offer is retracted. -/
def DepositRecord.offeredOn (r : DepositRecord) : String :=
  if r.offerRelay = "" then r.relay else r.offerRelay

/-- What `save` is called with. -/
structure Filing where
  kind : Kind
  relay : String
  claim : String
  revokeToken : String
  name : String
  size : ℕ
  max : ℕ
  link : Option String
  ticket : String
  recipient : Option String
  expires : ℕ
  transferId : Option ℕ
  offer : Option PostedOffer
  offerRelay : Option String

structure DepositInfo (P : Type) where
  relay : String
  claim : String
  revokeToken : String
  name : String
  size : ℕ
  expires : ℕ
  max : ℕ
  recipient : Option P
  offerId : String
  posterToken : String
  ticket : String
  link : Option String

structure DepositOutcome where
  size : ℕ
  claim : String
  revokeToken : String
  offerId : String
  posterToken : String
  ticket : String
  max : ℕ

/-- What is told of a row of this recipient and name. -/
def DepositOutcome.info {P : Type} (out : DepositOutcome) (recipient : Option P)
    (name relay : String) (expires : ℕ) : DepositInfo P :=
  { relay, claim := out.claim, revokeToken := out.revokeToken, name, size := out.size, expires,
    max := out.max, recipient, offerId := out.offerId, posterToken := out.posterToken,
    ticket := out.ticket, link := none }

def offlineMaxDownloads : ℕ := 1

/-- Who made a deposit: a one-shot command, a send in the foreground that has an engine of its
own and no daemon, or the daemon. -/
inductive Maker
  | command
  | foreground
  | daemon
  deriving DecidableEq

/-- How a deposit is handed over. -/
inductive Handover (P : Type)
  | link (url : String)
  | sealed (recipient : P) (ticket : String) (offer : Option PostedOffer) (offerRelay : String)

structure Deposit (P : Type) where
  relay : String
  claim : String
  revokeToken : String
  name : String
  size : ℕ
  max : ℕ
  expires : ℕ
  handover : Handover P

structure Made (P : Type) extends Deposit P where
  maker : Maker
  madeAt : ℕ

structure World (P : Type) where
  now : ℕ := 0
  receipts : Table String DepositRecord := ∅
  /-- The engine's own records. -/
  deposited : Table ℕ Manager.Shapes.DepositedRecord := ∅
  nextId : ℕ := 1
  /-- `Deposited` and `LinkReady`, on their way to the intake task. -/
  events : List (ℕ × DepositInfo P) := []
  made : List (Made P) := []
  /-- The claims of the deposits that a start has brought back. -/
  restored : List String := []
  /-- The claims whose receipt was never filed, or was removed. -/
  unfiled : List String := []

variable {P : Type}

namespace Deposit

variable (d : Deposit P)

def link : Option String :=
  match d.handover with
  | .link url => some url
  | .sealed .. => none

def ticket : String :=
  match d.handover with
  | .link _ => ""
  | .sealed _ ticket .. => ticket

def recipient : Option P :=
  match d.handover with
  | .link _ => none
  | .sealed recipient .. => some recipient

def offer : Option PostedOffer :=
  match d.handover with
  | .link _ => none
  | .sealed _ _ offer _ => offer

def offerRelay : String :=
  match d.handover with
  | .link _ => d.relay
  | .sealed _ _ _ offerRelay => offerRelay

/-- What is known of the offer to retract it; empty where there is none. -/
def offerId : String := (d.offer.map PostedOffer.id).getD ""

def posterToken : String := (d.offer.map PostedOffer.posterToken).getD ""

/-- `send_link` and the mailbox send of `cli/src/commands/offline.rs`. -/
def filing (env : Env P) : Filing :=
  match d.handover with
  | .link url =>
      { kind := .link, relay := d.relay, claim := d.claim, revokeToken := d.revokeToken,
        name := d.name, size := d.size, max := d.max, link := some url, ticket := "",
        recipient := none, expires := d.expires, transferId := none, offer := none,
        offerRelay := none }
  | .sealed recipient ticket offer offerRelay =>
      { kind := .offline, relay := d.relay, claim := d.claim, revokeToken := d.revokeToken,
        name := d.name, size := d.size, max := d.max, link := none, ticket,
        recipient := some (env.encodeId recipient), expires := d.expires, transferId := none,
        offer, offerRelay := some offerRelay }

def outcome : DepositOutcome :=
  { size := d.size, claim := d.claim, revokeToken := d.revokeToken, offerId := d.offerId,
    posterToken := d.posterToken, ticket := d.ticket, max := d.max }

/-- What the engine tells of a deposit it made: `LinkReady` of a link, and `Deposited`. -/
def info : DepositInfo P :=
  { relay := d.relay, claim := d.claim, revokeToken := d.revokeToken, name := d.name,
    size := d.size, expires := d.expires, max := d.max, recipient := d.recipient,
    offerId := d.offerId, posterToken := d.posterToken, ticket := d.ticket, link := d.link }

end Deposit

/-- `record_from_event`, up to its call of `save`. -/
def recordFromEvent (env : Env P) (transferId : Option ℕ) (info : DepositInfo P) : Filing :=
  match info.link with
  | some link =>
      { kind := .link, relay := info.relay, claim := info.claim, revokeToken := info.revokeToken,
        name := info.name, size := info.size, max := info.max, link := some link, ticket := "",
        recipient := none, expires := info.expires, transferId, offer := none,
        offerRelay := none }
  | none =>
      { kind := .offline, relay := info.relay, claim := info.claim,
        revokeToken := info.revokeToken, name := info.name, size := info.size, max := info.max,
        link := none, ticket := info.ticket, recipient := info.recipient.map env.encodeId,
        expires := info.expires, transferId,
        offer := some ⟨info.offerId, info.posterToken⟩, offerRelay := none }

namespace World

variable (env : Env P) (s : World P)

/-- The receipt that `save` writes. An empty ticket does not erase the one on file. -/
def record (f : Filing) : DepositRecord :=
  { id := env.idFor f.claim, kind := f.kind, relay := f.relay, claim := f.claim
    revokeToken := f.revokeToken, name := f.name, size := f.size, max := f.max, link := f.link
    ticket := if f.ticket = "" then
        ((s.receipts.lookup (env.idFor f.claim)).map DepositRecord.ticket).getD ""
      else f.ticket
    recipient := f.recipient, created := s.now, expires := f.expires
    transferId := f.transferId
    offerId := (f.offer.map PostedOffer.id).getD ""
    posterToken := (f.offer.map PostedOffer.posterToken).getD ""
    offerRelay := (f.offerRelay.filter (· ≠ f.relay)).getD "" }

/-- `save`. -/
def save (f : Filing) : World P :=
  { s with receipts := s.receipts.insert (env.idFor f.claim) (s.record env f) }

/-- `spawn_offline_confirm`, for a row of this recipient and name. -/
def spawnOfflineConfirm (id : ℕ) (recipient : Option P) (name relay offerRelay : String)
    (out : DepositOutcome) (expires : ℕ) : World P :=
  { s with
    events := s.events ++ [(id, out.info recipient name relay expires)]
    deposited := s.deposited.insert id
      { id, recipient := (recipient.map env.toBytes).getD [], name, size := out.size, relay,
        claim := out.claim, expires, revokeToken := out.revokeToken, offerId := out.offerId,
        posterToken := out.posterToken, offerRelay } }

/-- `restore_deposited`. -/
def restoreDeposited (rec : Manager.Shapes.DepositedRecord) : World P :=
  if rec.expires ≤ s.now then { s with deposited := s.deposited.erase rec.id }
  else
    { s with nextId := s.nextId + 1, restored := rec.claim :: s.restored }.spawnOfflineConfirm env
      s.nextId (env.fromBytes rec.recipient) rec.name rec.relay rec.offerRelay
      { size := rec.size, claim := rec.claim, revokeToken := rec.revokeToken,
        offerId := rec.offerId, posterToken := rec.posterToken, ticket := "",
        max := offlineMaxDownloads }
      rec.expires

/-- One turn of the loop over the records a start finds. -/
def bringBack (rec : Manager.Shapes.DepositedRecord) : World P :=
  { s with deposited := s.deposited.erase rec.id }.restoreDeposited env rec

def hasReceipt (claim : String) : Bool := (s.receipts.lookup (env.idFor claim)).isSome

/-- The events of these are not heard. -/
def unheard (infos : List (DepositInfo P)) : List String :=
  (infos.map DepositInfo.claim).filter (! s.hasReceipt env ·)

/-- The daemon dies, and is started again. -/
def restart : World P :=
  let loaded := s.deposited.entries.map Sigma.snd
  loaded.foldl (bringBack env)
    { s with
      nextId := 1
      events := []
      unfiled := s.unheard env (s.events.map Prod.snd) ++ s.unfiled }

/-- A relay gives no claim twice. -/
def fresh (d : Deposit P) : Bool := d.claim ∉ s.made.map (·.claim)

def make (maker : Maker) (d : Deposit P) : World P :=
  { s with made := { d with maker, madeAt := s.now } :: s.made }

end World

inductive Event (P : Type)
  | tick (n : ℕ)
  /-- A deposit by a one-shot command, by a send in the foreground, by the daemon. -/
  | command (d : Deposit P)
  | foreground (d : Deposit P)
  | daemon (d : Deposit P)
  /-- Another transfer takes an id. -/
  | register
  /-- The intake task hears an event, or has fallen behind and loses it. -/
  | intake
  | lag
  /-- The engine drops its record: picked up, cancelled, or never written. -/
  | retire (id : ℕ)
  /-- A receipt goes: withdrawn, or swept after its time. -/
  | remove (rid : String)
  | restart

namespace World

variable (env : Env P)

def step (s : World P) : Event P → World P
  | .tick n => { s with now := s.now + n }
  | .command d => if s.fresh d then (s.make .command d).save env (d.filing env) else s
  | .foreground d =>
      if s.fresh d then (s.make .foreground d).save env (recordFromEvent env none d.info) else s
  | .daemon d =>
      if s.fresh d then
        let id := s.nextId
        let s := { s.make .daemon d with nextId := id + 1 }
        match d.handover with
        | .link _ => { s with events := s.events ++ [(id, d.info)] }
        | .sealed recipient _ _ offerRelay =>
            s.spawnOfflineConfirm env id (some recipient) d.name d.relay offerRelay d.outcome
              d.expires
      else s
  | .register => { s with nextId := s.nextId + 1 }
  | .intake =>
      match s.events with
      | (id, info) :: events =>
          { s with events }.save env (recordFromEvent env (some id) info)
      | [] => s
  | .lag =>
      { s with
        events := s.events.tail
        unfiled := s.unheard env (s.events.head?.map Prod.snd).toList ++ s.unfiled }
  | .retire id => { s with deposited := s.deposited.erase id }
  | .remove rid =>
      match s.receipts.lookup rid with
      | some r =>
          { s with receipts := s.receipts.erase rid, unfiled := r.claim :: s.unfiled }
      | none => s
  | .restart => s.restart env

abbrev run (es : List (Event P)) : World P := es.foldl (step env) {}

/-- No two claims have one short id. -/
def Distinct (s : World P) : Prop :=
  ∀ d ∈ s.made, ∀ d' ∈ s.made, env.idFor d.claim = env.idFor d'.claim → d.claim = d'.claim

/-- What a receipt says of the deposit it was filed for. The ticket can only be missing where
the receipt was once, the cap is another one where a start has brought the deposit back, and
of an offer on another relay only the one-shot command has kept which. -/
structure Keeps (s : World P) (d : Made P) (r : DepositRecord) : Prop where
  claim : r.claim = d.claim
  relay : r.relay = d.relay
  revokeToken : r.revokeToken = d.revokeToken
  expires : r.expires = d.expires
  offerId : r.offerId = d.offerId
  posterToken : r.posterToken = d.posterToken
  ticket : d.claim ∉ s.unfiled → r.ticket = d.ticket
  max : r.max = d.max ∨ d.claim ∈ s.restored ∧ r.max = offlineMaxDownloads
  created : d.maker ≠ .daemon → r.created = d.madeAt
  offeredOn : d.maker = .command ∧ d.offerRelay ≠ "" ∨ d.offerRelay = d.relay →
    r.offeredOn = d.offerRelay

/-- The receipts of a state. Of what happens next, only the removal of a receipt and the news
of its own deposit touch it. -/
structure Faithful (s : World P) : Prop where
  keeps : ∀ d ∈ s.made, ∀ r, s.receipts.lookup (env.idFor d.claim) = some r → s.Keeps d r
  filed : ∀ d ∈ s.made, d.claim ∈ s.unfiled ∨ (∃ e ∈ s.events, e.2.claim = d.claim) ∨
    s.hasReceipt env d.claim
  restored : ∀ claim ∈ s.restored, ∃ d ∈ s.made, d.claim = claim ∧ d.maker = .daemon ∧
    d.link = none
  frame : ∀ e, (s.step env e).Distinct env → ∀ rid r, s.receipts.lookup rid = some r →
    (s.step env e).receipts.lookup rid = some r ∨ (∃ rid', e = .remove rid' ∧ rid' = rid) ∨
      ∃ e' ∈ s.events.head?, e'.2.claim = r.claim

/-! ### What is on its way -/

/-- An event that tells of this deposit. -/
structure Told (s : World P) (d : Made P) (i : DepositInfo P) : Prop where
  claim : i.claim = d.claim
  relay : i.relay = d.relay
  revokeToken : i.revokeToken = d.revokeToken
  expires : i.expires = d.expires
  offerId : i.offerId = d.offerId
  posterToken : i.posterToken = d.posterToken
  link : i.link = d.link
  max : i.max = d.max ∨ d.claim ∈ s.restored ∧ i.max = offlineMaxDownloads
  ticket : i.ticket = d.ticket ∨
    i.ticket = "" ∧ (d.claim ∈ s.unfiled ∨ s.hasReceipt env d.claim)

/-- The engine's record of this deposit. -/
structure Recorded (d : Made P) (rec : Manager.Shapes.DepositedRecord) : Prop where
  claim : rec.claim = d.claim
  relay : rec.relay = d.relay
  revokeToken : rec.revokeToken = d.revokeToken
  expires : rec.expires = d.expires
  offerId : rec.offerId = d.offerId
  posterToken : rec.posterToken = d.posterToken
  maker : d.maker = .daemon
  link : d.link = none

structure Inv (s : World P) : Prop where
  unique : ∀ d ∈ s.made, ∀ d' ∈ s.made, d.claim = d'.claim → d = d'
  restored : ∀ claim ∈ s.restored, ∃ d ∈ s.made, d.claim = claim ∧ d.maker = .daemon ∧
    d.link = none
  events : ∀ e ∈ s.events, ∃ d ∈ s.made, d.maker = .daemon ∧ s.Told env d e.2
  deposited : ∀ row ∈ s.deposited.entries, ∃ d ∈ s.made, Recorded d row.2
  receipts : ∀ row ∈ s.receipts.entries, ∃ d ∈ s.made, row.1 = env.idFor d.claim ∧ s.Keeps d row.2

/-- Whose receipt is missing, an event is on its way or was lost. -/
def Filed (s : World P) : Prop :=
  ∀ d ∈ s.made, d.claim ∈ s.unfiled ∨ (∃ e ∈ s.events, e.2.claim = d.claim) ∨
    s.hasReceipt env d.claim

theorem Keeps.mono {s s' : World P} {d : Made P} {r : DepositRecord} (h : s.Keeps d r)
    (hunfiled : s.unfiled ⊆ s'.unfiled) (hrestored : s.restored ⊆ s'.restored) : s'.Keeps d r :=
  { h with
    ticket := fun hc => h.ticket fun hc' => hc (hunfiled hc')
    max := h.max.imp_right fun hm => ⟨hrestored hm.1, hm.2⟩ }

theorem Told.mono {env : Env P} {s s' : World P} {d : Made P} {i : DepositInfo P}
    (h : s.Told env d i) (hunfiled : s.unfiled ⊆ s'.unfiled)
    (hrestored : s.restored ⊆ s'.restored)
    (hreceipt : s.hasReceipt env d.claim → d.claim ∈ s'.unfiled ∨ s'.hasReceipt env d.claim) :
    s'.Told env d i :=
  { h with
    max := h.max.imp_right fun hm => ⟨hrestored hm.1, hm.2⟩
    ticket := h.ticket.imp_right fun ht =>
      ⟨ht.1, ht.2.elim (fun hc => .inl (hunfiled hc)) hreceipt⟩ }

section Steps

variable {env} {s : World P}

/-- Fewer events, records and receipts, as long as it is remembered whose receipt is gone. -/
theorem Inv.fewer (h : s.Inv env) {s' : World P} (hmade : s'.made = s.made)
    (hrestored : s'.restored = s.restored) (hevents : s'.events ⊆ s.events)
    (hunfiled : s.unfiled ⊆ s'.unfiled) (hdeposited : s'.deposited.entries ⊆ s.deposited.entries)
    (hreceipts : s'.receipts.entries ⊆ s.receipts.entries)
    (hreceipt : ∀ d ∈ s.made, s.hasReceipt env d.claim →
      d.claim ∈ s'.unfiled ∨ s'.hasReceipt env d.claim) : s'.Inv env where
  unique := hmade ▸ h.unique
  restored := hmade ▸ hrestored ▸ h.restored
  events e he := by
    obtain ⟨d, hd, hmaker, htold⟩ := h.events e (hevents he)
    exact ⟨d, hmade ▸ hd, hmaker,
      htold.mono hunfiled (hrestored ▸ List.Subset.refl _) (hreceipt d hd)⟩
  deposited row hrow := hmade ▸ h.deposited row (hdeposited hrow)
  receipts row hrow := by
    obtain ⟨d, hd, hid, hkeeps⟩ := h.receipts row (hreceipts hrow)
    exact ⟨d, hmade ▸ hd, hid, hkeeps.mono hunfiled (hrestored ▸ List.Subset.refl _)⟩

/-- A receipt that is looked up under the id of a claim is one of that claim. -/
theorem Inv.keeps (h : s.Inv env) (hdistinct : s.Distinct env) {d : Made P} (hd : d ∈ s.made)
    {r : DepositRecord} (hr : s.receipts.lookup (env.idFor d.claim) = some r) : s.Keeps d r := by
  obtain ⟨d', hd', hid, hkeeps⟩ := h.receipts _ (Table.mem_of_lookup hr)
  rwa [h.unique d hd d' hd' (hdistinct d hd d' hd' hid)]

/-- What the removal of a receipt takes away. -/
theorem Inv.claim_of_erase (h : s.Inv env) (hdistinct : s.Distinct env) {rid : String}
    {r : DepositRecord} (hr : s.receipts.lookup rid = some r) {d : Made P} (hd : d ∈ s.made)
    (hhas : s.hasReceipt env d.claim) :
    d.claim = r.claim ∨ hasReceipt env { s with receipts := s.receipts.erase rid } d.claim := by
  by_cases hrid : env.idFor d.claim = rid
  · exact .inl (h.keeps hdistinct hd (hrid ▸ hr)).claim.symm
  · refine .inr ?_
    rw [hasReceipt, Table.lookup_erase_eq, if_neg hrid]
    exact hhas

theorem hasReceipt_save {f : Filing} {claim : String} (h : s.hasReceipt env claim) :
    (s.save env f).hasReceipt env claim := by
  rw [hasReceipt, save, Table.lookup_insert_eq]
  split_ifs
  · rfl
  · exact h

/-- A filing for this deposit. -/
structure For (env : Env P) (s : World P) (d : Made P) (f : Filing) : Prop where
  claim : f.claim = d.claim
  relay : f.relay = d.relay
  revokeToken : f.revokeToken = d.revokeToken
  expires : f.expires = d.expires
  offerId : (f.offer.map PostedOffer.id).getD "" = d.offerId
  posterToken : (f.offer.map PostedOffer.posterToken).getD "" = d.posterToken
  ticket : f.ticket = d.ticket ∨ f.ticket = "" ∧ (d.claim ∈ s.unfiled ∨ s.hasReceipt env d.claim)
  max : f.max = d.max ∨ d.claim ∈ s.restored ∧ f.max = offlineMaxDownloads
  created : d.maker ≠ .daemon → s.now = d.madeAt
  named : d.maker = .command →
    (f.offerRelay.filter (· ≠ d.relay)).getD "" =
      if d.offerRelay = d.relay then "" else d.offerRelay
  unnamed : d.maker ≠ .command → f.offerRelay = none

theorem keeps_record (h : s.Inv env) (hdistinct : s.Distinct env) {d : Made P} (hd : d ∈ s.made)
    {f : Filing} (hf : For env s d f) : s.Keeps d (s.record env f) where
  claim := hf.claim
  relay := hf.relay
  revokeToken := hf.revokeToken
  expires := hf.expires
  offerId := hf.offerId
  posterToken := hf.posterToken
  max := hf.max
  created := hf.created
  ticket hunfiled := by
    have hprev : ∀ r, s.receipts.lookup (env.idFor d.claim) = some r → r.ticket = d.ticket :=
      fun r hr => (h.keeps hdistinct hd hr).ticket hunfiled
    rw [record, hf.claim]
    dsimp only
    split_ifs with hempty
    · rcases hlook : s.receipts.lookup (env.idFor d.claim) with _ | r
      · rcases hf.ticket with ht | ⟨-, hc | hr⟩
        · rw [← ht, hempty]
          rfl
        · exact absurd hc hunfiled
        · rw [hasReceipt, hlook] at hr
          exact absurd hr Bool.false_ne_true
      · exact hprev r hlook
    · exact hf.ticket.resolve_right fun ht => hempty ht.1
  offeredOn hon := by
    have hrelay : (s.record env f).offerRelay = if d.maker = .command ∧ d.offerRelay ≠ d.relay
        then d.offerRelay else "" := by
      by_cases hcommand : d.maker = .command
      · rw [record, hf.relay]
        dsimp only
        rw [hf.named hcommand]
        by_cases hsame : d.offerRelay = d.relay <;> simp [hcommand, hsame]
      · simp [record, hf.unnamed hcommand, hcommand]
    have hblob : (s.record env f).relay = d.relay := hf.relay
    rw [DepositRecord.offeredOn, hrelay, hblob]
    by_cases hsame : d.offerRelay = d.relay
    · simp [hsame]
    · obtain ⟨hcommand, hne⟩ := hon.resolve_right hsame
      simp [hcommand, hsame, hne]

theorem Inv.save (h : s.Inv env) (hdistinct : s.Distinct env) {d : Made P} (hd : d ∈ s.made)
    {f : Filing} (hf : For env s d f) : (s.save env f).Inv env where
  unique := h.unique
  restored := h.restored
  events e he := by
    obtain ⟨d', hd', hmaker, htold⟩ := h.events e he
    exact ⟨d', hd', hmaker, htold.mono (List.Subset.refl _) (List.Subset.refl _)
      fun hr => .inr (hasReceipt_save hr)⟩
  deposited := h.deposited
  receipts row hrow := by
    rcases Table.mem_insert hrow with rfl | hrow
    · refine ⟨d, hd, by rw [hf.claim], ?_⟩
      exact (keeps_record h hdistinct hd hf).mono (List.Subset.refl _) (List.Subset.refl _)
    · obtain ⟨d', hd', hid, hkeeps⟩ := h.receipts row hrow
      exact ⟨d', hd', hid, hkeeps.mono (List.Subset.refl _) (List.Subset.refl _)⟩

/-- A deposit with a claim that is new. -/
theorem Inv.make (h : s.Inv env) {d : Deposit P} (hfresh : s.fresh d = true) (maker : Maker) :
    (s.make maker d).Inv env := by
  have hnew : ∀ d' ∈ s.made, d'.claim ≠ d.claim := by
    intro d' hd' he
    have hmem : d.claim ∈ s.made.map (·.claim) := List.mem_map.mpr ⟨d', hd', he⟩
    simp [fresh, hmem] at hfresh
  constructor
  · intro a ha b hb hab
    rcases List.mem_cons.mp ha with rfl | ha'
    · rcases List.mem_cons.mp hb with rfl | hb'
      · rfl
      · exact absurd hab.symm (hnew b hb')
    · rcases List.mem_cons.mp hb with rfl | hb'
      · exact absurd hab (hnew a ha')
      · exact h.unique a ha' b hb' hab
  · intro claim hclaim
    obtain ⟨d', hd', hspec⟩ := h.restored claim hclaim
    exact ⟨d', List.mem_cons_of_mem _ hd', hspec⟩
  · intro e he
    obtain ⟨d', hd', hmaker, htold⟩ := h.events e he
    exact ⟨d', List.mem_cons_of_mem _ hd', hmaker,
      htold.mono (List.Subset.refl _) (List.Subset.refl _) .inr⟩
  · intro row hrow
    obtain ⟨d', hd', hrec⟩ := h.deposited row hrow
    exact ⟨d', List.mem_cons_of_mem _ hd', hrec⟩
  · intro row hrow
    obtain ⟨d', hd', hid, hkeeps⟩ := h.receipts row hrow
    exact ⟨d', List.mem_cons_of_mem _ hd', hid,
      hkeeps.mono (List.Subset.refl _) (List.Subset.refl _)⟩

/-- An event is sent. -/
theorem Inv.tell (h : s.Inv env) {d : Made P} (hd : d ∈ s.made) (hmaker : d.maker = .daemon)
    {i : DepositInfo P} (htold : s.Told env d i) (id nextId : ℕ) :
    Inv env { s with nextId, events := s.events ++ [(id, i)] } where
  unique := h.unique
  restored := h.restored
  events e he := by
    rcases List.mem_append.mp he with he | he
    · obtain ⟨d', hd', hmaker', htold'⟩ := h.events e he
      exact ⟨d', hd', hmaker', htold'.mono (List.Subset.refl _) (List.Subset.refl _) .inr⟩
    · rw [List.mem_singleton.mp he]
      exact ⟨d, hd, hmaker, htold.mono (List.Subset.refl _) (List.Subset.refl _) .inr⟩
  deposited := h.deposited
  receipts row hrow := by
    obtain ⟨d', hd', hid, hkeeps⟩ := h.receipts row hrow
    exact ⟨d', hd', hid, hkeeps.mono (List.Subset.refl _) (List.Subset.refl _)⟩

/-- A record is written. -/
theorem Inv.note (h : s.Inv env) {d : Made P} (hd : d ∈ s.made)
    {rec : Manager.Shapes.DepositedRecord} (hrec : Recorded d rec) (id : ℕ) :
    Inv env { s with deposited := s.deposited.insert id rec } where
  unique := h.unique
  restored := h.restored
  events e he := by
    obtain ⟨d', hd', hmaker, htold⟩ := h.events e he
    exact ⟨d', hd', hmaker, htold.mono (List.Subset.refl _) (List.Subset.refl _) .inr⟩
  deposited := Table.forall_insert h.deposited ⟨d, hd, hrec⟩
  receipts row hrow := by
    obtain ⟨d', hd', hid, hkeeps⟩ := h.receipts row hrow
    exact ⟨d', hd', hid, hkeeps.mono (List.Subset.refl _) (List.Subset.refl _)⟩

theorem Inv.spawnOfflineConfirm (h : s.Inv env) {d : Made P} (hd : d ∈ s.made)
    (hmaker : d.maker = .daemon) (id : ℕ) {recipient : Option P} {name relay : String}
    (offerRelay : String) {out : DepositOutcome} {expires : ℕ}
    (htold : Told env s d (out.info recipient name relay expires)) :
    (s.spawnOfflineConfirm env id recipient name relay offerRelay out expires).Inv env := by
  refine (h.tell hd hmaker htold id s.nextId).note hd ?_ id
  exact ⟨htold.claim, htold.relay, htold.revokeToken, htold.expires, htold.offerId,
    htold.posterToken, hmaker, htold.link.symm⟩

/-- Nothing is on its way that is still to be filed. -/
def Settled (env : Env P) (s : World P) : Prop :=
  ∀ d ∈ s.made, d.claim ∈ s.unfiled ∨ s.hasReceipt env d.claim

theorem Settled.bringBack (h : s.Settled env) (rec : Manager.Shapes.DepositedRecord) :
    (s.bringBack env rec).Settled env := by
  rw [World.bringBack, restoreDeposited]
  split_ifs <;> exact h

theorem made_bringBack (rec : Manager.Shapes.DepositedRecord) :
    (s.bringBack env rec).made = s.made := by
  rw [World.bringBack, restoreDeposited]
  split_ifs <;> rfl

theorem Inv.bringBack (h : s.Inv env) (hsettled : s.Settled env) {d : Made P} (hd : d ∈ s.made)
    {rec : Manager.Shapes.DepositedRecord} (hrec : Recorded d rec) :
    (s.bringBack env rec).Inv env := by
  have herased (id : ℕ) : Inv env { s with deposited := s.deposited.erase id } :=
    h.fewer rfl rfl (List.Subset.refl _) (List.Subset.refl _)
      (fun _ hrow => Table.mem_of_mem_erase hrow) (List.Subset.refl _) fun _ _ hr => .inr hr
  rw [World.bringBack, restoreDeposited]
  split_ifs
  · exact (herased rec.id).fewer rfl rfl (List.Subset.refl _) (List.Subset.refl _)
      (fun _ hrow => Table.mem_of_mem_erase hrow) (List.Subset.refl _) fun _ _ hr => .inr hr
  · have hback : Inv env { s with
        deposited := s.deposited.erase rec.id, nextId := s.nextId + 1,
        restored := rec.claim :: s.restored } := by
      refine ⟨h.unique, ?_, ?_, (herased rec.id).deposited, ?_⟩
      · intro claim hclaim
        rcases List.mem_cons.mp hclaim with rfl | hclaim
        · exact ⟨d, hd, hrec.claim.symm, hrec.maker, hrec.link⟩
        · exact h.restored claim hclaim
      · intro e he
        obtain ⟨d', hd', hmaker, htold⟩ := h.events e he
        exact ⟨d', hd', hmaker, htold.mono (List.Subset.refl _) (List.subset_cons_self _ _) .inr⟩
      · intro row hrow
        obtain ⟨d', hd', hid, hkeeps⟩ := h.receipts row hrow
        exact ⟨d', hd', hid, hkeeps.mono (List.Subset.refl _) (List.subset_cons_self _ _)⟩
    refine hback.spawnOfflineConfirm hd hrec.maker s.nextId rec.offerRelay
      ⟨hrec.claim, hrec.relay, hrec.revokeToken, hrec.expires, hrec.offerId, hrec.posterToken,
        hrec.link.symm, .inr ⟨hrec.claim ▸ List.mem_cons_self, rfl⟩,
        .inr ⟨rfl, hsettled d hd⟩⟩

theorem Inv.foldl_bringBack (recs : List Manager.Shapes.DepositedRecord) (h : s.Inv env)
    (hsettled : s.Settled env) (hrecs : ∀ rec ∈ recs, ∃ d ∈ s.made, Recorded d rec) :
    (recs.foldl (World.bringBack env) s).Inv env ∧
      (recs.foldl (World.bringBack env) s).Settled env := by
  induction recs generalizing s with
  | nil => exact ⟨h, hsettled⟩
  | cons rec recs ih =>
      obtain ⟨d, hd, hrec⟩ := hrecs rec List.mem_cons_self
      refine ih (h.bringBack hsettled hd hrec) (hsettled.bringBack rec) fun rec' hrec' => ?_
      rw [made_bringBack]
      exact hrecs rec' (List.mem_cons_of_mem _ hrec')

theorem mem_unheard {infos : List (DepositInfo P)} {claim : String} :
    claim ∈ s.unheard env infos ↔
      (∃ i ∈ infos, i.claim = claim) ∧ s.hasReceipt env claim = false := by
  simp [unheard]

theorem Inv.restart (h : s.Inv env) (hfiled : s.Filed env) :
    (s.restart env).Inv env ∧ (s.restart env).Settled env := by
  refine Inv.foldl_bringBack _ ?_ ?_ ?_
  · exact h.fewer rfl rfl (List.nil_subset _) (List.subset_append_right _ _)
      (List.Subset.refl _) (List.Subset.refl _) fun _ _ hr => .inr hr
  · intro d hd
    rcases hfiled d hd with hc | ⟨e, he, hclaim⟩ | hr
    · exact .inl (List.mem_append_right _ hc)
    · cases hr : s.hasReceipt env d.claim with
      | true => exact .inr hr
      | false =>
          refine .inl (List.mem_append_left _ (mem_unheard.mpr ⟨⟨e.2, ?_, hclaim⟩, hr⟩))
          exact List.mem_map_of_mem he
    · exact .inr hr
  · intro rec hrec
    obtain ⟨row, hrow, rfl⟩ := List.mem_map.mp hrec
    exact h.deposited row hrow

theorem Told.filing {d : Made P} {i : DepositInfo P} (h : s.Told env d i) (id : Option ℕ)
    (hmaker : d.maker ≠ .command) (hcreated : d.maker ≠ .daemon → s.now = d.madeAt) :
    For env s d (recordFromEvent env id i) := by
  rw [recordFromEvent]
  rcases hlink : i.link with _ | url
  · exact ⟨h.claim, h.relay, h.revokeToken, h.expires, h.offerId, h.posterToken, h.ticket, h.max,
      hcreated, fun hc => absurd hc hmaker, fun _ => rfl⟩
  · have hurl : d.handover = .link url := by
      have hd := h.link.symm.trans hlink
      rw [Deposit.link] at hd
      split at hd
      · rename_i hover
        rw [hover, Option.some.inj hd]
      · exact absurd hd (Option.some_ne_none url).symm
    refine ⟨h.claim, h.relay, h.revokeToken, h.expires, ?_, ?_, .inl ?_, h.max, hcreated,
      fun hc => absurd hc hmaker, fun _ => rfl⟩
    · rw [Deposit.offerId, Deposit.offer, hurl]
    · rw [Deposit.posterToken, Deposit.offer, hurl]
    · rw [Deposit.ticket, hurl]

theorem told_info (s : World P) (d : Made P) : s.Told env d d.info :=
  ⟨rfl, rfl, rfl, rfl, rfl, rfl, rfl, .inl rfl, .inl rfl⟩

theorem for_filing {d : Made P} (hmaker : d.maker = .command) (hcreated : s.now = d.madeAt) :
    For env s d (d.filing env) := by
  rw [Deposit.filing]
  rcases hover : d.handover with url | ⟨recipient, ticket, offer, offerRelay⟩
  · refine ⟨rfl, rfl, rfl, rfl, ?_, ?_, .inl ?_, .inl rfl, fun _ => hcreated, fun _ => ?_,
      fun hc => absurd hmaker hc⟩
    · rw [Deposit.offerId, Deposit.offer, hover]
    · rw [Deposit.posterToken, Deposit.offer, hover]
    · rw [Deposit.ticket, hover]
    · rw [Deposit.offerRelay, hover]
      simp
  · refine ⟨rfl, rfl, rfl, rfl, ?_, ?_, .inl ?_, .inl rfl, fun _ => hcreated, fun _ => ?_,
      fun hc => absurd hmaker hc⟩
    · rw [Deposit.offerId, Deposit.offer, hover]
    · rw [Deposit.posterToken, Deposit.offer, hover]
    · rw [Deposit.ticket, hover]
    · rw [Deposit.offerRelay, hover]
      by_cases hsame : offerRelay = d.relay <;> simp [Option.filter, hsame]

theorem made_restart (s : World P) : (s.restart env).made = s.made := by
  have hloop (recs : List Manager.Shapes.DepositedRecord) (s : World P) :
      (recs.foldl (World.bringBack env) s).made = s.made := by
    induction recs generalizing s with
    | nil => rfl
    | cons rec recs ih => rw [List.foldl_cons, ih, made_bringBack]
  exact hloop _ _

theorem made_step (s : World P) (e : Event P) : s.made ⊆ (s.step env e).made := by
  have hcons (d : Made P) : s.made ⊆ d :: s.made := List.subset_cons_self _ _
  cases e with
  | command d | foreground d =>
      rw [step]
      split_ifs
      · exact hcons _
      · exact List.Subset.refl _
  | daemon d =>
      rw [step]
      split_ifs
      · dsimp only
        split <;> exact hcons _
      · exact List.Subset.refl _
  | intake =>
      rw [step]
      split <;> exact List.Subset.refl _
  | remove rid =>
      rw [step]
      split <;> exact List.Subset.refl _
  | restart => exact (made_restart s).symm ▸ List.Subset.refl _
  | tick n | register | lag | retire id => exact List.Subset.refl _

theorem Distinct.of_step {e : Event P} (h : (s.step env e).Distinct env) : s.Distinct env :=
  fun d hd d' hd' => h d (made_step s e hd) d' (made_step s e hd')

theorem Inv.step (h : s.Inv env) (hfiled : s.Filed env) {e : Event P}
    (hdistinct : (s.step env e).Distinct env) : (s.step env e).Inv env := by
  have hsame : ∀ {s' : World P}, s'.made = s.made → s'.restored = s.restored →
      s'.events = s.events → s'.unfiled = s.unfiled → s'.deposited = s.deposited →
      s'.receipts = s.receipts → s'.Inv env := by
    intro s' hmade hrestored hevents hunfiled hdeposited hreceipts
    refine h.fewer hmade hrestored (hevents ▸ List.Subset.refl _) (hunfiled ▸ List.Subset.refl _)
      (hdeposited ▸ List.Subset.refl _) (hreceipts ▸ List.Subset.refl _) fun d _ hr => .inr ?_
    rw [hasReceipt, hreceipts]
    exact hr
  cases e with
  | tick n => exact hsame rfl rfl rfl rfl rfl rfl
  | register => exact hsame rfl rfl rfl rfl rfl rfl
  | command d =>
      rw [World.step] at hdistinct ⊢
      split_ifs at hdistinct ⊢ with hfresh
      · exact (h.make hfresh .command).save hdistinct List.mem_cons_self (for_filing rfl rfl)
      · exact h
  | foreground d =>
      rw [World.step] at hdistinct ⊢
      split_ifs at hdistinct ⊢ with hfresh
      · exact (h.make hfresh .foreground).save hdistinct List.mem_cons_self
          ((told_info _ _).filing none (by simp) fun _ => rfl)
      · exact h
  | daemon d =>
      rw [World.step]
      split_ifs with hfresh
      · have hmade := h.make hfresh .daemon
        dsimp only
        split
        · exact hmade.tell List.mem_cons_self rfl (told_info _ _) s.nextId (s.nextId + 1)
        · rename_i recipient ticket offer offerRelay hover
          have hnext : Inv env { s.make .daemon d with nextId := s.nextId + 1 } :=
            hmade.fewer rfl rfl (List.Subset.refl _) (List.Subset.refl _) (List.Subset.refl _)
              (List.Subset.refl _) fun _ _ hr => .inr hr
          refine hnext.spawnOfflineConfirm (d := { d with maker := .daemon, madeAt := s.now })
            List.mem_cons_self rfl s.nextId offerRelay
            ⟨rfl, rfl, rfl, rfl, rfl, rfl, ?_, .inl rfl, .inl rfl⟩
          rw [Deposit.link, hover]
          rfl
      · exact h
  | intake =>
      have hdistinct := hdistinct.of_step
      rw [World.step]
      split
      next id i events hevents =>
        obtain ⟨d, hd, hmaker, htold⟩ := h.events (id, i) (hevents ▸ List.mem_cons_self)
        have hsaved : (s.save env (recordFromEvent env (some id) i)).Inv env :=
          h.save hdistinct hd (htold.filing (some id) (by simp [hmaker]) fun hc => absurd hmaker hc)
        refine hsaved.fewer rfl rfl ?_ (List.Subset.refl _) (List.Subset.refl _)
          (List.Subset.refl _) fun _ _ hr => .inr hr
        change events ⊆ s.events
        rw [hevents]
        exact List.subset_cons_self _ _
      next => exact h
  | lag =>
      exact h.fewer rfl rfl (List.tail_subset _) (List.subset_append_right _ _)
        (List.Subset.refl _) (List.Subset.refl _) fun _ _ hr => .inr hr
  | retire id =>
      exact h.fewer rfl rfl (List.Subset.refl _) (List.Subset.refl _)
        (fun _ hrow => Table.mem_of_mem_erase hrow) (List.Subset.refl _) fun _ _ hr => .inr hr
  | remove rid =>
      have hdistinct := hdistinct.of_step
      rw [World.step]
      split
      next r hr =>
        refine h.fewer rfl rfl (List.Subset.refl _) (List.subset_cons_self _ _)
          (List.Subset.refl _) (fun _ hrow => Table.mem_of_mem_erase hrow) ?_
        exact fun d hd hhas => (h.claim_of_erase hdistinct hr hd hhas).imp_left
          (List.mem_cons.mpr <| .inl ·)
      next => exact h
  | restart => exact (h.restart hfiled).1

theorem hasReceipt_saved (s : World P) {f : Filing} {claim : String} (h : f.claim = claim) :
    (s.save env f).hasReceipt env claim := by
  rw [hasReceipt, save, h, AList.lookup_insert]
  rfl

/-- The deposits there were are accounted for as before. -/
theorem Filed.imp (h : s.Filed env) {s' : World P} {d : Made P} (hd : d ∈ s.made)
    (hunfiled : s.unfiled ⊆ s'.unfiled)
    (hevents : ∀ e ∈ s.events, e.2.claim = d.claim → d.claim ∈ s'.unfiled ∨
      (∃ e ∈ s'.events, e.2.claim = d.claim) ∨ s'.hasReceipt env d.claim)
    (hreceipt : s.hasReceipt env d.claim →
      d.claim ∈ s'.unfiled ∨ s'.hasReceipt env d.claim) :
    d.claim ∈ s'.unfiled ∨ (∃ e ∈ s'.events, e.2.claim = d.claim) ∨
      s'.hasReceipt env d.claim := by
  rcases h d hd with hc | ⟨e, he, hclaim⟩ | hr
  · exact .inl (hunfiled hc)
  · exact hevents e he hclaim
  · exact (hreceipt hr).imp_right .inr

theorem claim_filing (d : Deposit P) : (d.filing env).claim = d.claim := by
  rw [Deposit.filing]
  split <;> rfl

theorem claim_recordFromEvent (id : Option ℕ) (i : DepositInfo P) :
    (recordFromEvent env id i).claim = i.claim := by
  rw [recordFromEvent]
  split <;> rfl

/-- A deposit that is filed as soon as it is made. -/
theorem Filed.make (h : s.Filed env) {maker : Maker} {d : Deposit P} {f : Filing}
    (hclaim : f.claim = d.claim) : ((s.make maker d).save env f).Filed env := by
  intro d' hd'
  rcases List.mem_cons.mp hd' with rfl | hd'
  · exact .inr (.inr (hasReceipt_saved _ hclaim))
  · exact h.imp hd' (List.Subset.refl _) (fun e he hclaim => .inr (.inl ⟨e, he, hclaim⟩))
      fun hr => .inr (hasReceipt_save hr)

theorem Filed.step (hfiled : s.Filed env) (h : s.Inv env) {e : Event P}
    (hdistinct : (s.step env e).Distinct env) : (s.step env e).Filed env := by
  have hkept {s' : World P} {d : Made P} (hevents : s.events ⊆ s'.events) :
      ∀ e ∈ s.events, e.2.claim = d.claim → d.claim ∈ s'.unfiled ∨
        (∃ e ∈ s'.events, e.2.claim = d.claim) ∨ s'.hasReceipt env d.claim :=
    fun e he hclaim => .inr (.inl ⟨e, hevents he, hclaim⟩)
  cases e with
  | tick n | register | retire id =>
      exact fun d hd => hfiled.imp hd (List.Subset.refl _) (hkept (List.Subset.refl _)) .inr
  | command d =>
      rw [World.step]
      split_ifs with hfresh
      · exact hfiled.make (claim_filing d)
      · exact hfiled
  | foreground d =>
      rw [World.step]
      split_ifs with hfresh
      · exact hfiled.make (claim_recordFromEvent none d.info)
      · exact hfiled
  | daemon d =>
      rw [World.step]
      split_ifs with hfresh
      · dsimp only
        split
        all_goals
          intro d' hd'
          rcases List.mem_cons.mp hd' with rfl | hd'
          · exact .inr (.inl ⟨_, List.mem_append_right _ (List.mem_singleton_self _), rfl⟩)
          · exact hfiled.imp hd' (List.Subset.refl _) (hkept (List.subset_append_left _ _)) .inr
      · exact hfiled
  | intake =>
      rw [World.step]
      split
      next id i events hevents =>
        intro d hd
        refine hfiled.imp hd (List.Subset.refl _) ?_ fun hr => .inr (hasReceipt_save hr)
        intro e he hclaim
        rw [hevents] at he
        rcases List.mem_cons.mp he with rfl | he
        · exact .inr (.inr (hasReceipt_saved _ ((claim_recordFromEvent _ _).trans hclaim)))
        · exact .inr (.inl ⟨e, he, hclaim⟩)
      next => exact hfiled
  | lag =>
      intro d hd
      refine hfiled.imp hd (List.subset_append_right _ _) ?_ .inr
      intro e he hclaim
      rcases hevents : s.events with _ | ⟨e', events⟩
      · rw [hevents] at he
        exact absurd he List.not_mem_nil
      · rw [hevents] at he
        rcases List.mem_cons.mp he with rfl | he
        · cases hr : s.hasReceipt env d.claim with
          | true => exact .inr (.inr hr)
          | false =>
              refine .inl (List.mem_append_left _ (mem_unheard.mpr ⟨⟨e.2, ?_, hclaim⟩, hr⟩))
              simp [hevents]
        · refine .inr (.inl ⟨e, ?_, hclaim⟩)
          change e ∈ s.events.tail
          rwa [hevents]
  | remove rid =>
      have hdistinct := hdistinct.of_step
      rw [World.step]
      split
      next r hr =>
        intro d hd
        refine hfiled.imp hd (List.subset_cons_self _ _) (hkept (List.Subset.refl _)) ?_
        exact fun hhas => (h.claim_of_erase hdistinct hr hd hhas).imp_left
          (List.mem_cons.mpr <| .inl ·)
      next => exact hfiled
  | restart => exact fun d hd => ((h.restart hfiled).2 d hd).imp_right .inr

theorem receipts_restart (s : World P) : (s.restart env).receipts = s.receipts := by
  have hloop (recs : List Manager.Shapes.DepositedRecord) (s : World P) :
      (recs.foldl (World.bringBack env) s).receipts = s.receipts := by
    induction recs generalizing s with
    | nil => rfl
    | cons rec recs ih =>
        rw [List.foldl_cons, ih, World.bringBack, restoreDeposited]
        split_ifs <;> rfl
  exact hloop _ _

/-- Filing a receipt leaves those of other claims. -/
theorem Inv.lookup_save (h : s.Inv env) {rid : String} {r : DepositRecord}
    (hr : s.receipts.lookup rid = some r) {f : Filing}
    (hdistinct : ∀ d ∈ s.made, env.idFor d.claim = env.idFor f.claim → d.claim = f.claim) :
    (s.save env f).receipts.lookup rid = some r ∨ f.claim = r.claim := by
  obtain ⟨d, hd, hid, hkeeps⟩ := h.receipts _ (Table.mem_of_lookup hr)
  by_cases hrid : rid = env.idFor f.claim
  · exact .inr ((hdistinct d hd (hid.symm.trans hrid)).symm.trans hkeeps.claim.symm)
  · refine .inl ?_
    rw [World.save, Table.lookup_insert_eq, if_neg hrid]
    exact hr

/-- A new claim has no receipt to be lost. -/
theorem Inv.lookup_make (h : s.Inv env) {rid : String} {r : DepositRecord}
    (hr : s.receipts.lookup rid = some r) {maker : Maker} {d : Deposit P} {f : Filing}
    (hclaim : f.claim = d.claim) (hfresh : s.fresh d = true)
    (hdistinct : ((s.make maker d).save env f).Distinct env) :
    ((s.make maker d).save env f).receipts.lookup rid = some r := by
  obtain ⟨d', hd', hid, -⟩ := h.receipts _ (Table.mem_of_lookup hr)
  change ((s.make maker d).receipts.insert (env.idFor f.claim) _).lookup rid = some r
  rw [Table.lookup_insert_eq, if_neg]
  · exact hr
  · intro hrid
    have hsame := hdistinct d' (List.mem_cons_of_mem _ hd') _ List.mem_cons_self
      (hid.symm.trans (hrid.trans (by rw [hclaim])))
    have hmem : d.claim ∈ s.made.map (·.claim) := List.mem_map.mpr ⟨d', hd', hsame⟩
    simp [fresh, hmem] at hfresh

theorem Inv.lookup_step (h : s.Inv env) {e : Event P} (hdistinct : (s.step env e).Distinct env)
    {rid : String} {r : DepositRecord} (hr : s.receipts.lookup rid = some r) :
    (s.step env e).receipts.lookup rid = some r ∨ (∃ rid', e = .remove rid' ∧ rid' = rid) ∨
      ∃ e' ∈ s.events.head?, e'.2.claim = r.claim := by
  cases e with
  | tick n | register | lag | retire id => exact .inl hr
  | command d =>
      rw [World.step] at hdistinct ⊢
      split_ifs at hdistinct ⊢ with hfresh
      · exact .inl (h.lookup_make hr (claim_filing d) hfresh hdistinct)
      · exact .inl hr
  | foreground d =>
      rw [World.step] at hdistinct ⊢
      split_ifs at hdistinct ⊢ with hfresh
      · exact .inl (h.lookup_make hr (claim_recordFromEvent none d.info) hfresh hdistinct)
      · exact .inl hr
  | daemon d =>
      rw [World.step]
      split_ifs
      · dsimp only
        split <;> exact .inl hr
      · exact .inl hr
  | intake =>
      have hdistinct := hdistinct.of_step
      rw [World.step]
      split
      next id i events hevents =>
        obtain ⟨d, hd, -, htold⟩ := h.events (id, i) (hevents ▸ List.mem_cons_self)
        have hclaim : (recordFromEvent env (some id) i).claim = d.claim :=
          (claim_recordFromEvent _ _).trans htold.claim
        have hd' : ∀ d' ∈ s.made, env.idFor d'.claim = env.idFor d.claim → d'.claim = d.claim :=
          fun d' hd' hid => hdistinct d' hd' d hd hid
        refine (h.lookup_save hr (hclaim ▸ hd')).imp_right fun hf => .inr ⟨(id, i), ?_, ?_⟩
        · rw [hevents]
          rfl
        · rw [← hf, claim_recordFromEvent]
      next => exact .inl hr
  | remove rid' =>
      rw [World.step]
      split
      · by_cases hrid : rid' = rid
        · exact .inr (.inl ⟨rid', rfl, hrid⟩)
        · refine .inl ?_
          rw [Table.lookup_erase_eq, if_neg (Ne.symm hrid)]
          exact hr
      · exact .inl hr
  | restart => exact .inl ((receipts_restart s).symm ▸ hr)

end Steps

theorem inv_start : ({} : World P).Inv env := by
  constructor <;> simp

theorem inv_run (es : List (Event P)) (hdistinct : (run env es).Distinct env) :
    (run env es).Inv env ∧ (run env es).Filed env := by
  induction es using List.reverseRecOn with
  | nil => exact ⟨inv_start env, by simp [Filed]⟩
  | append_singleton es e ih =>
      rw [run, List.foldl_append] at hdistinct ⊢
      obtain ⟨hinv, hfiled⟩ := ih hdistinct.of_step
      exact ⟨hinv.step hfiled hdistinct, hfiled.step hinv hdistinct⟩

/-- Short ids that are the claims themselves. -/
def plain : Env Unit := ⟨id, fun _ => "id", fun _ => [], fun _ => some ()⟩

/-- Five downloads, and the offer on another relay. -/
def elsewhere : Deposit Unit :=
  { relay := "ours", claim := "c", revokeToken := "t", name := "a", size := 1, max := 5
    expires := 60, handover := .sealed () "arvm" (some ⟨"o", "p"⟩) "theirs" }

end World

end Arvolo.Engine.Receipts
