import Arvolo.Lib.Machine
import Arvolo.Lib.Table

/-!
One file put on a relay: `core/src/manager/uploads.rs` and the deposit half of
`work.rs`, over the client of `upload.rs`.

A link, an explicit deposit and the fallback of a held send are the same upload
under three loops. An attempt fills a session on the relay and commits it, and
the relay keeps a memo of the commit, so that the same session committed again
gives the same claim. What the next attempt carries on from is the `Resumable`,
the seal and the session.

The relay is not told who asks. Every request the client has sent may reach it at
a later moment, or never, and every answer may be lost. How many attempts a
failure is worth is left to the run.
-/

namespace Arvolo.Manager

open Lib

/-- `run_link`, `run_deposit` and `deliver_to`. -/
inductive Kind
  | link
  | deposit
  | held
  deriving DecidableEq

/-- An entry of the relay's mailbox, with the token that revokes it. -/
structure Blob where
  claim : ℕ
  token : ℕ
  deriving DecidableEq

/-- A row of the relay's uploads. -/
structure Session where
  token : ℕ
  /-- All its bytes are there. -/
  complete : Bool
  claim : Option ℕ
  deriving DecidableEq

/-- A seal, which is named by its revoke token, and the session that is filled with it. -/
structure Resumable where
  token : ℕ
  session : Option ℕ
  deriving DecidableEq

inductive Request
  | openSession (token : ℕ)
  | status (sid : ℕ)
  | patch (sid : ℕ)
  | commit (sid : ℕ)
  /-- The whole deposit in one request, for a relay without sessions. -/
  | single (token : ℕ)
  | abandon (sid : ℕ)
  deriving DecidableEq

inductive Answer
  | opened (sid : ℕ)
  /-- How far the session is. -/
  | stands (complete : Bool)
  | committed (claim : ℕ)
  | notFound
  deriving DecidableEq

inductive Phase
  /-- Between two attempts. -/
  | resting
  /-- Asking what the relay can do. -/
  | asking
  | waiting (req : ℕ) (q : Request)
  /-- The blob is there, and the offer that points at it is being posted. -/
  | offering (claim token : ℕ)
  /-- A held send the relay refused as too large; a pause makes it forget. -/
  | tooBig
  | paused
  | over
  deriving DecidableEq

structure Upload where
  kind : Kind
  phase : Phase := .resting
  upload : Option Resumable := none
  /-- What `LinkReady`, or `Deposited` and its record, have told the sender. -/
  told : List Blob := []
  blobs : List Blob := []
  sessions : Table ℕ Session := ∅
  sent : Table ℕ Request := ∅
  answers : Table ℕ Answer := ∅
  nextToken : ℕ := 0
  nextClaim : ℕ := 0
  nextSession : ℕ := 0
  nextReq : ℕ := 0

/-- `TooLarge`, and what else retrying will not change. -/
inductive Refusal
  | tooLarge
  | fatal
  deriving DecidableEq

inductive UploadEvent
  /-- An attempt starts, and finds the file as it was or another size. -/
  | begin (sizeChanged : Bool)
  | probe (supports : Bool)
  | hear (giveUp : Bool)
  /-- The request fails, or its answer is lost. -/
  | fail (giveUp : Bool)
  | refuse (r : Refusal)
  | offered
  | offerFailed
  /-- Cancelled; or, for a held send, delivered live or failed. -/
  | cancel
  | pause
  | resume
  /-- A request reaches the relay. -/
  | handle (req : ℕ)
  /-- The relay drops a session, or the memo of one. -/
  | reap (sid : ℕ)
  /-- A blob is fetched, revoked or reaped. -/
  | gone (claim : ℕ)
  deriving DecidableEq

namespace Upload

variable (s : Upload)

/-- A fresh seal, kept for next time. -/
def remember : Upload :=
  { s with upload := some ⟨s.nextToken, none⟩, nextToken := s.nextToken + 1 }

/-- `create_link` seals before it starts; the others seal in their first attempt. -/
def start (kind : Kind) : Upload :=
  if kind = .link then { kind : Upload }.remember else { kind }

def post (q : Request) : Upload :=
  { s with sent := s.sent.insert s.nextReq q, nextReq := s.nextReq + 1 }

def ask (q : Request) : Upload := { s.post q with phase := .waiting s.nextReq q }

/-- `session_changed`. -/
def sessionChanged (session : Option ℕ) : Upload :=
  { s with upload := s.upload.map fun r => { r with session } }

/-- `forget`. -/
def forget (abandon : Bool) : Upload :=
  match abandon, s.upload.bind Resumable.session with
  | true, some sid => { s.post (.abandon sid) with upload := none }
  | _, _ => { s with upload := none }

/-- One turn of the loop of `upload`: ask where the session stands, or open one. -/
def turn : Upload :=
  match s.upload with
  | some ⟨_, some sid⟩ => s.ask (.status sid)
  | some ⟨token, none⟩ => s.ask (.openSession token)
  | none => s

/-- `mailbox_seal`, or a link's own seal, and the attempt begins. -/
def begin (sizeChanged : Bool) : Upload :=
  match s.kind, s.upload with
  | .link, none => { s with phase := .over }
  | .link, some _ => { s with phase := .asking }
  | _, none => { s.remember with phase := .asking }
  | _, some _ =>
      if sizeChanged then { (s.forget true).remember with phase := .asking }
      else { s with phase := .asking }

def probe (supports : Bool) : Upload :=
  match s.upload with
  | none => s
  | some r => if supports then s.turn else s.ask (.single r.token)

/-- The upload is done: the blob has this claim. -/
def succeed (claim : ℕ) : Upload :=
  match s.upload with
  | none => s
  | some r =>
      let s := s.forget false
      match s.kind with
      | .link => { s with told := ⟨claim, r.token⟩ :: s.told, phase := .over }
      | _ => { s with phase := .offering claim r.token }

/-- `Restart`: the relay forgot the session. -/
def restart (giveUp : Bool) : Upload :=
  let s := s.sessionChanged none
  if giveUp then { s with phase := .resting } else s.turn

/-- What `drive` does with an answer to this request. -/
def hear (giveUp : Bool) : Request → Answer → Upload
  | .openSession _, .opened sid => (s.sessionChanged (some sid)).turn
  | .status sid, .stands complete | .patch sid, .stands complete
  | .commit sid, .stands complete =>
      s.ask (if complete then .commit sid else .patch sid)
  | .commit _, .committed claim | .single _, .committed claim => s.succeed claim
  | .status _, .notFound | .patch _, .notFound | .commit _, .notFound => s.restart giveUp
  | _, _ => s

/-- The request failed: once more, or the attempt ends as `Unavailable`. -/
def fail (giveUp : Bool) : Request → Upload
  | .single _ => { s with phase := .resting }
  | _ => if giveUp then { s with phase := .resting } else s.turn

def refuse (r : Refusal) : Upload :=
  let s := s.forget true
  { s with phase := if s.kind = .held ∧ r = .tooLarge then .tooBig else .over }

/-- `deposit`: an entry, under a claim that was never given before. -/
def commitDeposit (token : ℕ) : Upload :=
  { s with blobs := ⟨s.nextClaim, token⟩ :: s.blobs, nextClaim := s.nextClaim + 1 }

/-- The relay's side of a request: the new state and the answer. -/
def serve : Request → Upload × Option Answer
  | .openSession token =>
      ({ s with
          sessions := s.sessions.insert s.nextSession ⟨token, false, none⟩
          nextSession := s.nextSession + 1 }, some (.opened s.nextSession))
  | .status sid =>
      match s.sessions.lookup sid with
      | none => (s, some .notFound)
      | some se => (s, some (.stands (se.complete || se.claim.isSome)))
  | .patch sid =>
      match s.sessions.lookup sid with
      | none => (s, some .notFound)
      | some se =>
          ({ s with sessions := s.sessions.insert sid { se with complete := true } },
            some (.stands true))
  | .commit sid =>
      match s.sessions.lookup sid with
      | none => (s, some .notFound)
      | some se =>
          match se.claim with
          | some claim => (s, some (.committed claim))
          | none =>
              if se.complete then
                let s' := s.commitDeposit se.token
                ({ s' with sessions := s.sessions.insert sid { se with claim := some s.nextClaim } },
                  some (.committed s.nextClaim))
              else (s, some (.stands false))
  | .single token => (s.commitDeposit token, some (.committed s.nextClaim))
  | .abandon sid => ({ s with sessions := s.sessions.erase sid }, none)

/-- A request is dealt with, and what is answered is on its way. -/
def answer (n : ℕ) (a : Option Answer) : Upload :=
  { s with sent := s.sent.erase n, answers := (a.map (s.answers.insert n)).getD s.answers }

def handle (n : ℕ) : Upload :=
  match s.sent.lookup n with
  | none => s
  | some q => (s.serve q).1.answer n (s.serve q).2

def step (s : Upload) : UploadEvent → Upload
  | .begin sizeChanged => if s.phase = .resting then s.begin sizeChanged else s
  | .probe supports => if s.phase = .asking then s.probe supports else s
  | .hear giveUp =>
      match s.phase with
      | .waiting n q => ((s.answers.lookup n).map (s.hear giveUp q)).getD s
      | _ => s
  | .fail giveUp =>
      match s.phase with
      | .asking => { s with phase := .resting }
      | .waiting _ q => s.fail giveUp q
      | _ => s
  | .refuse r =>
      match s.phase with
      | .asking | .waiting _ _ => s.refuse r
      | _ => s
  | .offered =>
      match s.phase with
      | .offering claim token =>
          { s with told := ⟨claim, token⟩ :: s.told, phase := .over }
      | _ => s
  | .offerFailed =>
      match s.phase with
      | .offering _ _ => { s with phase := .resting }
      | _ => s
  | .cancel => if s.phase = .over then s else { s.forget true with phase := .over }
  | .pause =>
      if s.kind = .held ∧ s.phase ≠ .over then { s with phase := .paused } else s
  | .resume => if s.phase = .paused then { s with phase := .resting } else s
  | .handle n => s.handle n
  | .reap sid => { s with sessions := s.sessions.erase sid }
  | .gone claim => { s with blobs := s.blobs.filter fun b => b.claim ≠ claim }

abbrev run (kind : Kind) (es : List UploadEvent) : Upload := es.foldl step (start kind)

/-! ### What is known of a blob -/

/-- The session the next attempt would carry on from was committed as this blob. -/
def Kept (b : Blob) : Prop :=
  ∃ sid se, s.upload = some ⟨b.token, some sid⟩ ∧ s.sessions.lookup sid = some se ∧
    se.claim = some b.claim

/-- The running attempt has its claim, or waits for the answer that has it. -/
def Carried (b : Blob) : Prop :=
  s.phase = .offering b.claim b.token ∨
  ∃ n, s.phase = .waiting n (.single b.token) ∧ s.answers.lookup n = some (.committed b.claim)

/-- The sender knows of the blob. -/
def Named (b : Blob) : Prop := s.Kept b ∨ s.Carried b ∨ b ∈ s.told

/-- One live blob, and no orphan. -/
def NoOrphan : Prop := s.blobs.length ≤ 1 ∧ ∀ b ∈ s.blobs, s.Named b

/-- A step that loses no blob. Whatever makes a blob reaches the relay while there is
no other, and while the transfer still keeps the session or waits for the answer.
When the transfer lets its upload state go, there is no blob, and when an attempt
without a session, or an offer, comes to nothing, there is none but the one the
session was committed as. The relay keeps the memo of a commit as long as the
blob is there and the transfer has not heard of it. -/
def Calm : UploadEvent → Prop
  | .handle n =>
      match s.sent.lookup n with
      | some (.commit sid) =>
          ∀ se, s.sessions.lookup sid = some se → se.claim = none → se.complete →
            s.blobs = [] ∧ s.upload.bind Resumable.session = some sid
      | some (.single token) => s.blobs = [] ∧ s.phase = .waiting n (.single token)
      | some (.abandon sid) => ∀ b ∈ s.blobs, s.upload ≠ some ⟨b.token, some sid⟩
      | _ => True
  | .reap sid => ∀ b ∈ s.blobs, s.upload ≠ some ⟨b.token, some sid⟩
  | .begin sizeChanged =>
      s.phase = .resting → s.kind ≠ .link → sizeChanged → s.upload.isSome → s.blobs = []
  | .refuse _ => s.phase = .asking ∨ (∃ n q, s.phase = .waiting n q) → s.blobs = []
  | .cancel => s.phase = .over ∨ s.blobs = []
  | .pause | .offerFailed | .fail _ => ∀ b ∈ s.blobs, ¬ s.Carried b
  | .hear _ => ∀ n token claim, s.phase = .waiting n (.single token) →
      s.answers.lookup n = some (.committed claim) → ∀ b ∈ s.blobs, b.claim = claim
  | _ => True

/-! ### Calm runs -/

/-- The upload state is that of the request the client waits for. -/
def Waits : Request → Prop
  | .openSession token => s.upload = some ⟨token, none⟩
  | .status sid | .patch sid | .commit sid => s.upload.bind Resumable.session = some sid
  | .single token => s.upload.map Resumable.token = some token
  | .abandon _ => False

/-- What an answer to the request still tells of the relay. -/
def Tells : Request → Answer → Prop
  | .openSession token, .opened sid =>
      sid < s.nextSession ∧ ∀ se, s.sessions.lookup sid = some se → se.token = token
  | .commit sid, .committed claim =>
      ∀ se, s.sessions.lookup sid = some se → se.claim = some claim
  | .status sid, .notFound | .patch sid, .notFound | .commit sid, .notFound =>
      s.sessions.lookup sid = none
  | _, _ => True

/-- The state, but for what the running attempt is at. -/
structure Filed : Prop where
  sessions : ∀ sid se, s.sessions.lookup sid = some se → sid < s.nextSession
  upload : ∀ token sid, s.upload = some ⟨token, some sid⟩ →
    sid < s.nextSession ∧ ∀ se, s.sessions.lookup sid = some se → se.token = token
  sent : ∀ n q, s.sent.lookup n = some q → n < s.nextReq
  answers : ∀ n a, s.answers.lookup n = some a → n < s.nextReq

structure Inv : Prop extends s.Filed where
  noOrphan : s.NoOrphan
  told : s.phase ≠ .over → s.told = []
  waiting : ∀ n q, s.phase = .waiting n q →
    n < s.nextReq ∧ (∀ q', s.sent.lookup n = some q' → q' = q) ∧ s.Waits q ∧
      ∀ a, s.answers.lookup n = some a → s.Tells q a

/-- Nothing hangs on the running attempt. -/
structure Settled : Prop extends s.Filed where
  one : s.blobs.length ≤ 1
  kept : ∀ b ∈ s.blobs, s.Kept b
  told : s.told = []

section Steps

variable {s : Upload}

theorem Inv.settled (h : s.Inv) (hphase : s.phase ≠ .over)
    (hcarried : ∀ b ∈ s.blobs, ¬ s.Carried b) : s.Settled := by
  refine ⟨h.toFiled, h.noOrphan.1, fun b hb => ?_, h.told hphase⟩
  rcases h.noOrphan.2 b hb with hk | hc | ht
  · exact hk
  · exact absurd hc (hcarried b hb)
  · rw [h.told hphase] at ht
    cases ht

/-- The attempt is dropped, whatever comes next. -/
theorem Settled.setPhase (h : s.Settled) {phase : Phase} (hphase : ∀ n q, phase ≠ .waiting n q) :
    Inv { s with phase } :=
  ⟨⟨h.sessions, h.upload, h.sent, h.answers⟩, ⟨h.one, fun b hb => .inl (h.kept b hb)⟩,
    fun _ => h.told, fun n q hw => absurd hw (hphase n q)⟩

theorem Settled.ask (h : s.Settled) {q : Request} (hw : s.Waits q) : (s.ask q).Inv := by
  have hlt : ∀ n q', (s.sent.insert s.nextReq q).lookup n = some q' → n < s.nextReq + 1 := by
    intro n q' hq'
    rw [Table.lookup_insert_eq] at hq'
    split_ifs at hq' with he
    · omega
    · have := h.sent n q' hq'
      omega
  refine ⟨⟨h.sessions, h.upload, hlt, ?_⟩, ⟨h.one, fun b hb => .inl (h.kept b hb)⟩,
    fun _ => h.told, ?_⟩
  · intro n a ha
    have := h.answers n a ha
    exact Nat.lt_succ_of_lt this
  · rintro n q' hphase
    cases hphase
    refine ⟨Nat.lt_succ_self _, ?_, hw, ?_⟩
    · intro q' hq'
      simpa [Upload.ask, post] using hq'.symm
    · intro a ha
      exact absurd (h.answers _ a ha) (lt_irrefl _)

theorem Settled.turn (h : s.Settled) (hup : s.upload.isSome) : s.turn.Inv := by
  unfold Upload.turn
  split
  next token sid heq => exact h.ask (by simp [Waits, heq])
  next token heq => exact h.ask heq
  next heq => simp [heq] at hup

theorem Filed.post (h : s.Filed) (q : Request) : (s.post q).Filed := by
  refine ⟨h.sessions, h.upload, ?_, fun n a ha => Nat.lt_succ_of_lt (h.answers n a ha)⟩
  intro n q' hq'
  simp only [Upload.post, Table.lookup_insert_eq] at hq' ⊢
  split_ifs at hq' with he
  · omega
  · have := h.sent n q' hq'
    omega

/-- Nothing is on the relay, so there is nothing to lose. -/
theorem Settled.forget (h : s.Filed) (hb : s.blobs = []) (htold : s.told = []) (abandon : Bool) :
    (s.forget abandon).Settled := by
  unfold Upload.forget
  split
  next sid heq =>
    have hp := h.post (.abandon sid)
    exact ⟨⟨hp.sessions, by simp, hp.sent, hp.answers⟩, by simp [Upload.post, hb],
      by simp [Upload.post, hb], htold⟩
  next => exact ⟨⟨h.sessions, by simp, h.sent, h.answers⟩, by simp [hb], by simp [hb], htold⟩

theorem Settled.remember (h : s.Settled) (hup : s.upload = none) : s.remember.Settled := by
  refine ⟨⟨h.sessions, by simp [Upload.remember], h.sent, h.answers⟩, h.one, fun b hb => ?_,
    h.told⟩
  obtain ⟨sid, se, heq, -⟩ := h.kept b hb
  rw [hup] at heq
  cases heq

@[simp] theorem forget_upload (abandon : Bool) : (s.forget abandon).upload = none := by
  unfold Upload.forget
  split <;> rfl

/-- The answer to the request the client waits for is the last one there will be. -/
theorem Inv.succeed (h : s.Inv) (hphase : s.phase ≠ .over) {claim : ℕ} (hclaim : ∀ b ∈ s.blobs, b.claim = claim)
    (htoken : ∀ b ∈ s.blobs, s.upload.map Resumable.token = some b.token) :
    (s.succeed claim).Inv := by
  unfold Upload.succeed
  split
  · exact h
  next r heq =>
    have hb : ∀ b ∈ s.blobs, b = ⟨claim, r.token⟩ := by
      intro b hb
      have ht := htoken b hb
      rw [heq] at ht
      obtain ⟨c, t⟩ := b
      rw [← hclaim _ hb, Option.some.inj ht]
    have hforget : s.forget false = { s with upload := none } := rfl
    simp only [hforget]
    have hfiled : Filed { s with upload := none } := ⟨h.sessions, by simp, h.sent, h.answers⟩
    split
    · refine ⟨⟨hfiled.sessions, by simp, hfiled.sent, hfiled.answers⟩, ⟨h.noOrphan.1, ?_⟩,
        by simp, ?_⟩
      · intro b hmem
        exact .inr (.inr (List.mem_cons.mpr (.inl (hb b hmem))))
      · rintro n q ⟨⟩
    · refine ⟨⟨hfiled.sessions, by simp, hfiled.sent, hfiled.answers⟩, ⟨h.noOrphan.1, ?_⟩,
        fun _ => h.told hphase, ?_⟩
      · intro b hmem
        rw [hb b hmem]
        exact .inr (.inl (.inl rfl))
      · rintro n q ⟨⟩

theorem not_carried_of_waiting {n : ℕ} {q : Request} (hphase : s.phase = .waiting n q)
    (hq : ∀ token, q ≠ .single token) (b : Blob) : ¬ s.Carried b := by
  rintro (hc | ⟨m, hc, -⟩) <;> rw [hphase] at hc
  · cases hc
  · cases hc
    exact hq _ rfl

theorem Settled.sessionChanged (h : s.Settled) {token sid : ℕ} (hup : s.upload = some ⟨token, none⟩)
    (hsid : sid < s.nextSession ∧ ∀ se, s.sessions.lookup sid = some se → se.token = token) :
    (s.sessionChanged (some sid)).Settled := by
  refine ⟨⟨h.sessions, ?_, h.sent, h.answers⟩, h.one, fun b hb => ?_, h.told⟩
  · intro t sid' heq
    simp only [Upload.sessionChanged, hup, Option.map_some, Option.some.injEq,
      Resumable.mk.injEq] at heq
    obtain ⟨rfl, rfl⟩ := heq
    exact hsid
  · obtain ⟨sid', se, heq, -⟩ := h.kept b hb
    rw [hup] at heq
    cases heq

/-- The session the relay does not know any more is given up. -/
theorem Settled.restart (h : s.Settled) {sid : ℕ} (hup : s.upload.bind Resumable.session = some sid)
    (hgone : s.sessions.lookup sid = none) (giveUp : Bool) : (s.restart giveUp).Inv := by
  obtain ⟨⟨token, session⟩, heq, rfl⟩ := Option.bind_eq_some_iff.mp hup
  have hset : (s.sessionChanged none).Settled := by
    refine ⟨⟨h.sessions, by simp [Upload.sessionChanged], h.sent, h.answers⟩, h.one,
      fun b hb => ?_, h.told⟩
    obtain ⟨sid', se, heq', hse, -⟩ := h.kept b hb
    rw [heq] at heq'
    cases heq'
    rw [hgone] at hse
    cases hse
  unfold Upload.restart
  dsimp only
  split_ifs
  · exact hset.setPhase (by simp)
  · exact hset.turn (by simp [Upload.sessionChanged, heq])

theorem Inv.hear (h : s.Inv) {n : ℕ} {q : Request} {a : Answer} (giveUp : Bool)
    (hcalm : s.Calm (.hear giveUp)) (hphase : s.phase = .waiting n q)
    (ha : s.answers.lookup n = some a) : (s.hear giveUp q a).Inv := by
  obtain ⟨-, -, hwaits, htells⟩ := h.waiting n q hphase
  have hover : s.phase ≠ .over := by simp [hphase]
  have hset (hq : ∀ token, q ≠ .single token) : s.Settled :=
    h.settled hover fun b _ => not_carried_of_waiting hphase hq b
  have htell := htells a ha
  unfold Upload.hear
  split
  next token sid =>
    have hup : s.upload = some ⟨token, none⟩ := hwaits
    refine ((hset (by simp)).sessionChanged hup htell).turn ?_
    simp [Upload.sessionChanged, hup]
  next sid complete =>
    refine (hset (by simp)).ask ?_
    cases complete <;> exact hwaits
  next sid complete =>
    refine (hset (by simp)).ask ?_
    cases complete <;> exact hwaits
  next sid complete =>
    refine (hset (by simp)).ask ?_
    cases complete <;> exact hwaits
  next sid claim =>
    have hkept := (hset (by simp)).kept
    refine h.succeed hover (fun b hb => ?_) fun b hb => ?_
    · obtain ⟨sid', se, hup, hse, hc⟩ := hkept b hb
      have hsid : sid' = sid := by simpa [Waits, hup] using hwaits
      rw [htell se (hsid ▸ hse)] at hc
      exact (Option.some.inj hc).symm
    · obtain ⟨sid', se, hup, -⟩ := hkept b hb
      rw [hup, Option.map_some]
  next token claim =>
    refine h.succeed hover (hcalm n token claim hphase ha) fun b hb => ?_
    rcases h.noOrphan.2 b hb with ⟨sid, se, hup, -⟩ | (hc | ⟨m, hc, -⟩) | ht
    · rw [hup, Option.map_some]
    · rw [hphase] at hc
      cases hc
    · rw [hphase] at hc
      cases hc
      exact hwaits
    · rw [h.told hover] at ht
      cases ht
  next sid => exact (hset (by simp)).restart hwaits htell giveUp
  next sid => exact (hset (by simp)).restart hwaits htell giveUp
  next sid => exact (hset (by simp)).restart hwaits htell giveUp
  next => exact h

/-- A session goes, and no blob is known by it. -/
theorem Inv.erase (h : s.Inv) {sid : ℕ} (hcalm : ∀ b ∈ s.blobs, s.upload ≠ some ⟨b.token, some sid⟩) :
    Inv { s with sessions := s.sessions.erase sid } := by
  have hsub {sid' : ℕ} {se : Session} (hse : (s.sessions.erase sid).lookup sid' = some se) :
      s.sessions.lookup sid' = some se := by
    rw [Table.lookup_erase_eq] at hse
    split_ifs at hse
    exact hse
  refine ⟨⟨fun sid' se hse => h.sessions sid' se (hsub hse), fun token sid' hup => ?_, h.sent,
    h.answers⟩, ⟨h.noOrphan.1, fun b hb => ?_⟩, h.told, fun n q hphase => ?_⟩
  · exact (h.upload token sid' hup).imp_right fun ht se hse => ht se (hsub hse)
  · refine (h.noOrphan.2 b hb).imp_left ?_
    rintro ⟨sid', se, hup, hse, hc⟩
    have hne : sid' ≠ sid := fun he => hcalm b hb (he ▸ hup)
    exact ⟨sid', se, hup, (AList.lookup_erase_ne hne).trans hse, hc⟩
  · obtain ⟨hn, hq, hwaits, htells⟩ := h.waiting n q hphase
    refine ⟨hn, hq, hwaits, fun a ha => ?_⟩
    have htell := htells a ha
    unfold Tells at htell ⊢
    split at htell
    · exact htell.imp_right fun ht se hse => ht se (hsub hse)
    · exact fun se hse => htell se (hsub hse)
    all_goals simp_all [Table.lookup_erase_eq]

/-- A session is written, and what it was opened and committed with stands. -/
theorem Inv.setSession (h : s.Inv) {sid : ℕ} {se se' : Session} {blobs : List Blob} {nextClaim : ℕ}
    (hse : s.sessions.lookup sid = some se) (htoken : se'.token = se.token)
    (hclaim : ∀ claim, se.claim = some claim → se'.claim = some claim)
    (hno : NoOrphan { s with sessions := s.sessions.insert sid se', blobs, nextClaim }) :
    Inv { s with sessions := s.sessions.insert sid se', blobs, nextClaim } := by
  refine ⟨⟨fun sid' se'' hlook => ?_, fun token sid' hup => ?_, h.sent, h.answers⟩, hno, h.told,
    fun n q hphase => ?_⟩
  · rw [Table.lookup_insert_eq] at hlook
    split_ifs at hlook with he
    · exact he ▸ h.sessions sid se hse
    · exact h.sessions sid' se'' hlook
  · refine (h.upload token sid' hup).imp_right fun ht se'' hlook => ?_
    rw [Table.lookup_insert_eq] at hlook
    split_ifs at hlook with he
    · rw [← Option.some.inj hlook, htoken]
      exact ht se (he ▸ hse)
    · exact ht se'' hlook
  · obtain ⟨hn, hq, hwaits, htells⟩ := h.waiting n q hphase
    have hgone {sid' : ℕ} (hnone : s.sessions.lookup sid' = none) :
        (s.sessions.insert sid se').lookup sid' = none := by
      refine (AList.lookup_insert_ne ?_).trans hnone
      rintro rfl
      simp [hse] at hnone
    refine ⟨hn, hq, hwaits, fun a ha => ?_⟩
    have htell := htells a ha
    unfold Tells at htell ⊢
    split at htell
    · refine htell.imp_right fun ht se'' hlook => ?_
      rw [Table.lookup_insert_eq] at hlook
      split_ifs at hlook with he
      · rw [← Option.some.inj hlook, htoken]
        exact ht se (he ▸ hse)
      · exact ht se'' hlook
    · intro se'' hlook
      rw [Table.lookup_insert_eq] at hlook
      split_ifs at hlook with he
      · rw [← Option.some.inj hlook]
        exact hclaim _ (htell se (he ▸ hse))
      · exact htell se'' hlook
    · exact hgone htell
    · exact hgone htell
    · exact hgone htell
    · trivial

/-- A session under an id that was never given. -/
theorem Inv.openSession (h : s.Inv) (token : ℕ) :
    Inv { s with
      sessions := s.sessions.insert s.nextSession ⟨token, false, none⟩
      nextSession := s.nextSession + 1 } := by
  have hold {sid : ℕ} (hlt : sid < s.nextSession) :
      (s.sessions.insert s.nextSession ⟨token, false, none⟩).lookup sid = s.sessions.lookup sid :=
    AList.lookup_insert_ne hlt.ne
  refine ⟨⟨fun sid se hse => ?_, fun token' sid hup => ?_, h.sent, h.answers⟩,
    ⟨h.noOrphan.1, fun b hb => ?_⟩, h.told, fun n q hphase => ?_⟩
  · rw [Table.lookup_insert_eq] at hse
    split_ifs at hse with he
    · exact he ▸ Nat.lt_succ_self _
    · exact Nat.lt_succ_of_lt (h.sessions sid se hse)
  · obtain ⟨hlt, ht⟩ := h.upload token' sid hup
    exact ⟨Nat.lt_succ_of_lt hlt, fun se hse => ht se (hold hlt ▸ hse)⟩
  · refine (h.noOrphan.2 b hb).imp_left ?_
    rintro ⟨sid, se, hup, hse, hc⟩
    exact ⟨sid, se, hup, (hold (h.sessions sid se hse)).trans hse, hc⟩
  · obtain ⟨hn, hq, hwaits, htells⟩ := h.waiting n q hphase
    have hsid {sid : ℕ} (hup : s.upload.bind Resumable.session = some sid) : sid < s.nextSession := by
      obtain ⟨⟨token', session⟩, hup', rfl⟩ := Option.bind_eq_some_iff.mp hup
      exact (h.upload token' sid hup').1
    refine ⟨hn, hq, hwaits, fun a ha => ?_⟩
    have htell := htells a ha
    unfold Tells at htell ⊢
    split at htell
    · exact ⟨Nat.lt_succ_of_lt htell.1, fun se hse => htell.2 se (hold htell.1 ▸ hse)⟩
    · exact fun se hse => htell se (hold (hsid hwaits) ▸ hse)
    · exact (hold (hsid hwaits)).trans htell
    · exact (hold (hsid hwaits)).trans htell
    · exact (hold (hsid hwaits)).trans htell
    · trivial

/-- The answer is on its way. -/
theorem Inv.answer (h : s.Inv) {n : ℕ} {q : Request} (hq : s.sent.lookup n = some q)
    (hblobs : s.blobs = [] ∨ ∀ token, q ≠ .single token) {answer : Option Answer}
    (htells : ∀ a, answer = some a → s.Tells q a) : (s.answer n answer).Inv := by
  have hlook {m : ℕ} {a : Answer} (ha : (s.answer n answer).answers.lookup m = some a) :
      s.answers.lookup m = some a ∨ m = n ∧ answer = some a := by
    cases answer with
    | none => exact .inl ha
    | some a' =>
        simp only [Upload.answer, Option.map_some, Option.getD_some, Table.lookup_insert_eq] at ha
        split_ifs at ha with he
        · exact .inr ⟨he, ha⟩
        · exact .inl ha
  refine ⟨⟨h.sessions, h.upload, fun m q' hm => ?_, fun m a ha => ?_⟩,
    ⟨h.noOrphan.1, fun b hb => ?_⟩, h.told, fun m q' hphase => ?_⟩
  · rw [Upload.answer, Table.lookup_erase_eq] at hm
    split_ifs at hm
    exact h.sent m q' hm
  · rcases hlook ha with ha | ⟨rfl, -⟩
    · exact h.answers m a ha
    · exact h.sent m q hq
  · rcases h.noOrphan.2 b hb with hk | (hc | ⟨m, hc, ha⟩) | ht
    · exact .inl hk
    · exact .inr (.inl (.inl hc))
    · refine .inr (.inl (.inr ⟨m, hc, ?_⟩))
      -- The request is another: this one would have found the relay empty.
      have hne : m ≠ n := by
        rintro rfl
        have hsingle := (h.waiting m _ hc).2.1 q hq
        rcases hblobs with hb' | hq'
        · exact absurd hb (by simp [Upload.answer, hb'])
        · exact hq' _ hsingle
      cases answer with
      | none => exact ha
      | some a => exact (AList.lookup_insert_ne hne).trans ha
    · exact .inr (.inr ht)
  · obtain ⟨hn, hq', hwaits, ht⟩ := h.waiting m q' hphase
    refine ⟨hn, fun q'' hm => ?_, hwaits, fun a ha => ?_⟩
    · rw [Upload.answer, Table.lookup_erase_eq] at hm
      split_ifs at hm
      exact hq' q'' hm
    · rcases hlook ha with ha | ⟨rfl, hans⟩
      · exact ht a ha
      · rw [← hq' q hq]
        exact htells a hans

theorem noOrphan_insert (h : s.NoOrphan) {sid : ℕ} {se se' : Session}
    (hse : s.sessions.lookup sid = some se)
    (hclaim : ∀ claim, se.claim = some claim → se'.claim = some claim) :
    NoOrphan { s with sessions := s.sessions.insert sid se' } := by
  refine ⟨h.1, fun b hb => (h.2 b hb).imp_left ?_⟩
  rintro ⟨sid', se'', hup, hlook, hc⟩
  by_cases he : sid' = sid
  · subst he
    rw [hse] at hlook
    cases hlook
    exact ⟨sid', se', hup, AList.lookup_insert s.sessions, hclaim _ hc⟩
  · exact ⟨sid', se'', hup, (AList.lookup_insert_ne he).trans hlook, hc⟩

/-- The blob of a commit is the one the upload state leads to. -/
theorem Inv.commit (h : s.Inv) {sid : ℕ} {se : Session} (hse : s.sessions.lookup sid = some se)
    (hnone : se.claim = none) (hblobs : s.blobs = [])
    (hup : s.upload.bind Resumable.session = some sid) :
    Inv { s.commitDeposit se.token with
      sessions := s.sessions.insert sid { se with claim := some s.nextClaim } } := by
  refine h.setSession hse rfl (by simp [hnone]) ⟨by simp [commitDeposit, hblobs], fun b hb => .inl ?_⟩
  obtain rfl : b = ⟨s.nextClaim, se.token⟩ := by simpa [commitDeposit, hblobs] using hb
  obtain ⟨⟨token, session⟩, heq, rfl⟩ := Option.bind_eq_some_iff.mp hup
  have htoken := (h.upload token sid heq).2 se hse
  exact ⟨sid, _, by rw [heq, htoken], AList.lookup_insert s.sessions, rfl⟩

/-- The blob of a single request is the one its answer names. -/
theorem Inv.single (h : s.Inv) {n token : ℕ} (hblobs : s.blobs = [])
    (hphase : s.phase = .waiting n (.single token)) :
    ((s.commitDeposit token).answer n (some (.committed s.nextClaim))).Inv := by
  obtain ⟨hn, hq, hwaits, -⟩ := h.waiting n _ hphase
  refine ⟨⟨h.sessions, h.upload, fun m q' hm => ?_, fun m a ha => ?_⟩,
    ⟨by simp [Upload.answer, commitDeposit, hblobs],
      fun b hb => .inr (.inl (.inr ⟨n, ?_, ?_⟩))⟩, h.told, fun m q' hphase' => ?_⟩
  · rw [Upload.answer, Table.lookup_erase_eq] at hm
    split_ifs at hm
    exact h.sent m q' hm
  · simp only [Upload.answer, Option.map_some, Option.getD_some, Table.lookup_insert_eq] at ha
    split_ifs at ha with he
    · exact he ▸ hn
    · exact h.answers m a ha
  · obtain rfl : b = ⟨s.nextClaim, token⟩ := by
      simpa [Upload.answer, commitDeposit, hblobs] using hb
    exact hphase
  · obtain rfl : b = ⟨s.nextClaim, token⟩ := by
      simpa [Upload.answer, commitDeposit, hblobs] using hb
    exact AList.lookup_insert s.answers
  · obtain ⟨rfl, rfl⟩ : n = m ∧ .single token = q' := by
      simpa [hphase] using (show s.phase = .waiting m q' from hphase')
    exact ⟨hn, by simp [Upload.answer], hwaits, fun a _ => trivial⟩

/-- The relay hears of a request. What it makes is named by the upload state, or by
the answer the client waits for. -/
theorem Inv.handle (h : s.Inv) {n : ℕ} (hcalm : s.Calm (.handle n)) : (s.handle n).Inv := by
  unfold Upload.handle
  split
  · exact h
  next q hq =>
    simp only [Calm, hq] at hcalm
    cases q with
    | openSession token =>
        refine (h.openSession token).answer hq (.inr (by simp)) fun a ha => ?_
        cases ha
        refine ⟨Nat.lt_succ_self _, fun se hse => ?_⟩
        rw [AList.lookup_insert] at hse
        rw [← Option.some.inj hse]
    | status sid =>
        simp only [serve]
        split
        next hse =>
          exact h.answer hq (.inr (by simp)) fun a ha => by cases ha; exact hse
        next se hse =>
          exact h.answer hq (.inr (by simp)) fun a ha => by cases ha; trivial
    | patch sid =>
        simp only [serve]
        split
        next hse =>
          exact h.answer hq (.inr (by simp)) fun a ha => by cases ha; exact hse
        next se hse =>
          have hset : Inv { s with sessions := s.sessions.insert sid { se with complete := true } } :=
            h.setSession hse rfl (fun _ hc => hc) (noOrphan_insert h.noOrphan hse fun _ hc => hc)
          exact hset.answer hq (.inr (by simp)) fun a ha => by cases ha; trivial
    | commit sid =>
        simp only [serve]
        split
        next hse =>
          exact h.answer hq (.inr (by simp)) fun a ha => by cases ha; exact hse
        next se hse =>
          split
          next claim hclaim =>
            refine h.answer hq (.inr (by simp)) fun a ha => ?_
            cases ha
            intro se' hse'
            rw [← Option.some.inj (hse.symm.trans hse')]
            exact hclaim
          next hnone =>
            split_ifs with hcomplete
            · obtain ⟨hblobs, hup⟩ := hcalm se hse hnone hcomplete
              refine (h.commit hse hnone hblobs hup).answer hq (.inr (by simp)) fun a ha => ?_
              cases ha
              intro se' hse'
              rw [AList.lookup_insert] at hse'
              rw [← Option.some.inj hse']
            · exact h.answer hq (.inr (by simp)) fun a ha => by cases ha; trivial
    | single token => exact h.single hcalm.1 hcalm.2
    | abandon sid =>
        exact (h.erase hcalm).answer hq (.inr (by simp)) fun a ha => by cases ha

theorem isSome_of_waits {q : Request} (h : s.Waits q) : s.upload.isSome := by
  cases hup : s.upload with
  | some r => rfl
  | none => cases q <;> simp [Waits, hup] at h

theorem Inv.step (h : s.Inv) {e : UploadEvent} (hcalm : s.Calm e) : (s.step e).Inv := by
  cases e with
  | begin sizeChanged =>
      simp only [Upload.step]
      split_ifs with hphase
      · have hset : s.Settled := h.settled (by simp [hphase]) fun b _ => by simp [Carried, hphase]
        unfold Upload.begin
        split
        · exact hset.setPhase (by simp)
        · exact hset.setPhase (by simp)
        next hup hlink => exact (hset.remember hup).setPhase (by simp)
        next r hup hlink =>
          split_ifs with hsize
          · have hb := hcalm hphase hlink hsize (by simp [hup])
            exact ((Settled.forget hset.toFiled hb hset.told true).remember (by simp)).setPhase
              (by simp)
          · exact hset.setPhase (by simp)
      · exact h
  | probe supports =>
      simp only [Upload.step]
      split_ifs with hphase
      · have hset : s.Settled := h.settled (by simp [hphase]) fun b _ => by simp [Carried, hphase]
        unfold Upload.probe
        split
        · exact h
        next r hup =>
          split_ifs
          · exact hset.turn (by simp [hup])
          · exact hset.ask (by simp [Waits, hup])
      · exact h
  | hear giveUp =>
      simp only [Upload.step]
      split
      next n q hphase =>
        cases ha : s.answers.lookup n with
        | none => exact h
        | some a => exact h.hear giveUp hcalm hphase ha
      next => exact h
  | fail giveUp =>
      simp only [Upload.step]
      split
      next hphase =>
        exact (h.settled (by simp [hphase]) hcalm).setPhase (by simp)
      next n q hphase =>
        have hset : s.Settled := h.settled (by simp [hphase]) hcalm
        obtain ⟨-, -, hwaits, -⟩ := h.waiting n q hphase
        unfold Upload.fail
        split
        · exact hset.setPhase (by simp)
        next hq =>
          split_ifs
          · exact hset.setPhase (by simp)
          · exact hset.turn (isSome_of_waits hwaits)
      next => exact h
  | refuse r =>
      have hgive (hphase : s.phase ≠ .over) (hb : s.blobs = []) : (s.refuse r).Inv :=
        (Settled.forget h.toFiled hb (h.told hphase) true).setPhase (by split_ifs <;> simp)
      simp only [Upload.step]
      split
      next hphase => exact hgive (by simp [hphase]) (hcalm (.inl hphase))
      next n q hphase => exact hgive (by simp [hphase]) (hcalm (.inr ⟨n, q, hphase⟩))
      next => exact h
  | offered =>
      simp only [Upload.step]
      split
      next claim token hphase =>
        refine ⟨⟨h.sessions, h.upload, h.sent, h.answers⟩, ⟨h.noOrphan.1, fun b hb => ?_⟩, by simp,
          by rintro n q ⟨⟩⟩
        rcases h.noOrphan.2 b hb with hk | (hc | ⟨m, hc, -⟩) | ht
        · exact .inl hk
        · rw [hphase] at hc
          cases hc
          exact .inr (.inr List.mem_cons_self)
        · rw [hphase] at hc
          cases hc
        · exact .inr (.inr (List.mem_cons_of_mem _ ht))
      next => exact h
  | offerFailed =>
      simp only [Upload.step]
      split
      next claim token hphase =>
        exact (h.settled (by simp [hphase]) hcalm).setPhase (by simp)
      next => exact h
  | cancel =>
      simp only [Upload.step]
      split_ifs with hphase
      · exact h
      · exact (Settled.forget h.toFiled (hcalm.resolve_left hphase) (h.told hphase) true).setPhase
          (by simp)
  | pause =>
      simp only [Upload.step]
      split_ifs with hc
      · exact (h.settled hc.2 hcalm).setPhase (by simp)
      · exact h
  | resume =>
      simp only [Upload.step]
      split_ifs with hphase
      · exact (h.settled (by simp [hphase]) fun b _ => by simp [Carried, hphase]).setPhase (by simp)
      · exact h
  | handle n => exact h.handle hcalm
  | reap sid => exact h.erase hcalm
  | gone claim =>
      refine ⟨⟨h.sessions, h.upload, h.sent, h.answers⟩, ⟨?_, fun b hb => ?_⟩, h.told, h.waiting⟩
      · exact (List.length_filter_le _ _).trans h.noOrphan.1
      · exact h.noOrphan.2 b (List.mem_of_mem_filter hb)

end Steps

theorem inv_start (kind : Kind) : (start kind).Inv := by
  cases kind <;> exact ⟨⟨by simp [start, remember], by simp [start, remember],
    by simp [start, remember], by simp [start, remember]⟩,
    ⟨by simp [start, remember], by simp [start, remember]⟩, by simp [start, remember],
    by simp [start, remember]⟩

/-- A send or a link whose steps are all calm has at most one blob on the relay, and
knows of it. -/
theorem noOrphan_of_calm (kind : Kind) (es : List UploadEvent)
    (hcalm : Along step Calm (start kind) es) : (run kind es).NoOrphan :=
  (hcalm.foldl_inv Inv (fun _ _ hs hc => hs.step hc) (inv_start kind)).noOrphan

/-- A link that goes up in one session, without a failure. -/
def linkRun : List UploadEvent :=
  [.begin false, .probe true, .handle 0, .hear false, .handle 1, .hear false, .handle 2,
    .hear false, .handle 3, .hear false]

theorem linkRun_noOrphan : (run .link linkRun).blobs = [⟨0, 0⟩] ∧ (run .link linkRun).NoOrphan := by
  refine ⟨by decide +kernel, noOrphan_of_calm .link linkRun ?_⟩
  refine ⟨fun _ h => absurd rfl h, trivial, trivial, ?_, trivial, ?_, trivial, ?_, ?_, ?_, trivial⟩
  · rintro n token claim ⟨⟩
  · rintro n token claim ⟨⟩
  · rintro n token claim ⟨⟩
  · exact fun se _ _ _ => ⟨rfl, rfl⟩
  · rintro n token claim ⟨⟩

/-- A deposit whose offer does not get through. The blob is there, and the transfer
keeps neither its claim nor its token: the next attempt seals the file again. -/
def lostRun : List UploadEvent :=
  [.begin false, .probe true, .handle 0, .hear false, .handle 1, .hear false, .handle 2,
    .hear false, .handle 3, .hear false, .offerFailed]

theorem not_noOrphan :
    ¬ ∀ (kind : Kind) (es : List UploadEvent), (run kind es).NoOrphan := by
  intro h
  have hblobs : (run .deposit lostRun).blobs = [⟨0, 0⟩] := by decide +kernel
  have hup : (run .deposit lostRun).upload = none := by decide +kernel
  have hphase : (run .deposit lostRun).phase = .resting := by decide +kernel
  have htold : (run .deposit lostRun).told = [] := by decide +kernel
  have hnamed := (h .deposit lostRun).2 ⟨0, 0⟩ (by rw [hblobs]; exact List.mem_singleton_self _)
  rcases hnamed with ⟨sid, se, hk, -⟩ | (hc | ⟨n, hc, -⟩) | ht
  · rw [hup] at hk
    cases hk
  · rw [hphase] at hc
    cases hc
  · rw [hphase] at hc
    cases hc
  · rw [htold] at ht
    cases ht

end Upload

end Arvolo.Manager
