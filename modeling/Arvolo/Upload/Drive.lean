import Arvolo.Lib.Machine
import Arvolo.Sync.Bridge

/-!
How long an upload goes on: `upload` and `drive` of `core/src/upload.rs`, request by
request, whatever the relay answers.

A failed attempt is charged to a budget, which progress refills. `furthest` is where the
session has been at most; no step reads it. What is reported through the hooks is not
kept.
-/

namespace Arvolo.Upload

open Lib
open Sync (trim isWhitespace)

/-- An answer to a request, with the headers that are read of it. The offset and the two
others are there if they parse as `u64`; the text is there if the body arrives whole. -/
structure Response where
  status : ℕ
  offset : Option UInt64 := none
  text : Option String := none
  grantedTtl : Option UInt64 := none
  blobLimit : Option UInt64 := none
  deriving DecidableEq

inductive Reply
  /-- No answer: the connection failed, or nothing moved for too long. `fault` if the file
  could not be read as it was sent. -/
  | failed (fault : Bool)
  | answered (a : Response)
  deriving DecidableEq

inductive UploadError
  | tooLarge (size : ℕ) (limit : Option ℕ)
  | busy
  | linksDisabled
  | unavailable
  | fatal
  deriving DecidableEq

structure Committed where
  claim : String
  ttlSecs : ℕ
  deriving DecidableEq

structure UploadSession where
  relay : String
  id : String
  length : ℕ
  deriving DecidableEq

/-- What one step of the protocol says to do next. -/
inductive Step
  | retry
  | restart
  | stop (e : UploadError)
  deriving DecidableEq

namespace Response

variable (a : Response)

def isSuccess : Prop := 200 ≤ a.status ∧ a.status < 300

instance : Decidable a.isSuccess := inferInstanceAs (Decidable (_ ∧ _))

def conflict : ℕ := 409

def blobLimitOf : Option ℕ := (a.blobLimit.map UInt64.toNat).filter (0 < ·)

/-- `refusal`: `none` for what each caller handles itself. -/
def refusal (size : ℕ) : Option Step :=
  if a.status = 413 then some (.stop (.tooLarge size a.blobLimitOf))
  else if a.status = 507 then some (.stop .busy)
  else if a.status = 403 then some (.stop .linksDisabled)
  else if a.status = 404 then some .restart
  else if a.status = 429 ∨ 500 ≤ a.status ∧ a.status < 600 then some .retry
  else none

/-- A relay may only grant less than was asked. -/
def grantedTtlOf (asked : ℕ) : ℕ := (a.grantedTtl.map fun t => min t.toNat asked).getD asked

end Response

def maxQuietRetries : ℕ := 4
def maxRestarts : ℕ := 2

/-- What is to be put where. -/
structure Target where
  relay : String
  len : ℕ
  plainLen : ℕ
  ttl : ℕ

/-- The request that is under way. -/
inductive Phase
  /-- `relay_supports_upload` -/
  | probe
  /-- `single_request` -/
  | single
  | opening
  | asking (s : UploadSession)
  | sending (s : UploadSession) (pos : ℕ) (progressed : Bool)
  | committing (s : UploadSession) (pos : ℕ) (progressed : Bool)
  | ended (result : Except UploadError Committed)

structure Driver where
  phase : Phase
  session : Option UploadSession
  quietFailures : ℕ
  restarts : ℕ
  furthest : WithBot ℕ

/-- `"upload":true` in the features, blanks aside. -/
def supportsUpload (features : String) : Bool :=
  (features.toList.filter fun c => !isWhitespace c).tails.any fun cs =>
    "\"upload\":true".toList.isPrefixOf cs

namespace Driver

variable (t : Target) (d : Driver)

/-- `upload`, resuming `session` if it is for this relay and this length. -/
def start (session : Option UploadSession) : Driver :=
  ⟨.probe, session.filter fun s => s.relay = t.relay ∧ s.length = t.len, 0, 0, ⊥⟩

/-- The next round: with the session there is, or a new one. -/
def next : Driver :=
  { d with
    phase := match d.session with
      | some s => .asking s
      | none => .opening }

def finish (result : Except UploadError Committed) : Driver := { d with phase := .ended result }

/-- What `upload` does when a round has failed. -/
def fail (progressed : Bool) : Step → Driver
  | .retry =>
      let quiet := (if progressed then 0 else d.quietFailures) + 1
      if maxQuietRetries < quiet then { d with quietFailures := quiet }.finish (.error .unavailable)
      else { d with quietFailures := quiet }.next
  | .restart =>
      let d' := { d with restarts := d.restarts + 1, session := none, furthest := ⊥ }
      if maxRestarts < d'.restarts then d'.finish (.error .unavailable) else d'.next
  | .stop e => d.finish (.error e)

def stand (pos : ℕ) : Driver := { d with furthest := max d.furthest pos }

/-- `drive` goes on from `pos`. -/
def go (s : UploadSession) (pos : ℕ) (progressed : Bool) : Driver :=
  { d.stand pos with
    phase := if pos < s.length then .sending s pos progressed else .committing s pos progressed }

def hearProbe : Reply → Driver
  | .answered a =>
      if a.isSuccess ∧ (a.text.map supportsUpload).getD false then d.next
      else { d with phase := .single }
  | .failed _ => { d with phase := .single }

def hearSingle : Reply → Driver
  | .failed fault => d.finish (.error (if fault then .fatal else .unavailable))
  | .answered a =>
      if a.isSuccess then
        match a.text with
        | some claim => d.finish (.ok ⟨trim claim, a.grantedTtlOf t.ttl⟩)
        | none => d.finish (.error .unavailable)
      else
        match a.refusal t.plainLen with
        | some (.stop e) => d.finish (.error e)
        | _ => d.finish (.error .unavailable)

/-- `open` -/
def hearOpening : Reply → Driver
  | .failed _ => d.fail false .retry
  | .answered a =>
      if a.isSuccess then
        match a.text with
        | some id => { d with session := some ⟨t.relay, trim id, t.len⟩ }.next
        | none => d.fail false .retry
      else
        match a.refusal t.plainLen with
        | some .restart | none => d.fail false (.stop .fatal)
        | some step => d.fail false step

/-- `status` -/
def hearAsking (s : UploadSession) : Reply → Driver
  | .failed _ => d.fail false .retry
  | .answered a =>
      if a.isSuccess then
        match a.offset with
        | some pos => d.go s pos.toNat false
        | none => d.fail false .retry
      else d.fail false ((a.refusal t.plainLen).getD .retry)

/-- The answer to a segment. -/
def hearSending (s : UploadSession) (pos : ℕ) (progressed : Bool) : Reply → Driver
  | .failed fault => d.fail progressed (if fault then .stop .fatal else .retry)
  | .answered a =>
      if a.isSuccess ∨ a.status = Response.conflict then
        match a.offset with
        | some new =>
            -- an answer that leaves the upload where it was counts as a failed attempt
            if new.toNat = pos then d.fail progressed .retry
            else d.go s new.toNat (progressed || pos < new.toNat)
        | none => d.fail progressed .retry
      else
        let step := (a.refusal t.plainLen).getD .retry
        match a.offset with
        | some new =>
            if pos < new.toNat then (d.stand new.toNat).fail true step
            else d.fail progressed step
        | none => d.fail progressed step

def hearCommitting (s : UploadSession) (progressed : Bool) : Reply → Driver
  | .failed _ => d.fail progressed .retry
  | .answered a =>
      if a.isSuccess then
        match a.text with
        | some claim => d.finish (.ok ⟨trim claim, a.grantedTtlOf t.ttl⟩)
        | none => d.fail progressed .retry
      else if a.status = Response.conflict then
        match a.offset with
        | some new =>
            if new.toNat < s.length then d.go s new.toNat progressed else d.fail progressed .retry
        | none => d.fail progressed .retry
      else d.fail progressed ((a.refusal t.plainLen).getD .retry)

/-- What a request came to reaches the driver. -/
def hear (r : Reply) : Driver :=
  match d.phase with
  | .probe => d.hearProbe r
  | .single => d.hearSingle t r
  | .opening => d.hearOpening t r
  | .asking s => d.hearAsking t s r
  | .sending s pos progressed => d.hearSending t s pos progressed r
  | .committing s _ progressed => d.hearCommitting t s progressed r
  | .ended _ => d

/-- The driver after `n` requests, request `k` coming to `rs k`. -/
def after (rs : ℕ → Reply) : ℕ → Driver
  | 0 => d
  | n + 1 => (after rs n).hear t (rs n)

/-! ### The budget -/

def Ended : Prop := ∃ result, d.phase = .ended result

/-- The failures that are still put up with. -/
def budget : ℕ :=
  match d.phase with
  | .sending _ _ true | .committing _ _ true => maxQuietRetries + 1
  | _ => maxQuietRetries + 1 - d.quietFailures

/-- A request was paid for: with one of the failures put up with, or of the restarts, or it
was the last one. -/
def Charged (d d' : Driver) : Prop := d'.budget < d.budget ∨ d.restarts < d'.restarts ∨ d'.Ended

/-- The driver is sending a segment or committing. What opens an attempt, a session to be
opened or a status to be asked for, belongs to the attempt. -/
def Driving : Prop := ∃ s pos progressed,
  d.phase = .sending s pos progressed ∨ d.phase = .committing s pos progressed

/-- An answer on which `drive` goes on, or has its budget refilled, is about a place past
all those the session has been at. -/
def Past (r : Reply) : Prop :=
  match d.phase, r with
  | .sending _ pos _, .answered a => ∀ new ∈ a.offset,
      (if a.isSuccess ∨ a.status = Response.conflict then new.toNat ≠ pos
        else pos < new.toNat ∧ (a.refusal t.plainLen).getD .retry = .retry ∧
          d.budget ≤ maxQuietRetries) → d.furthest < new.toNat
  | .committing s _ _, .answered a =>
      a.status = Response.conflict → ∀ new ∈ a.offset, s.length ≤ new.toNat
  | _, _ => True

/-- What holds of the driver after any answers. -/
structure Steady : Prop where
  quiet : ¬ d.Ended → d.quietFailures ≤ maxQuietRetries
  restarts : ¬ d.Ended → d.restarts ≤ maxRestarts
  sending : ∀ s pos progressed, d.phase = .sending s pos progressed → pos ≤ d.furthest
  committing : ∀ s pos progressed, d.phase = .committing s pos progressed →
    s.length ≤ pos ∧ pos ≤ d.furthest

/-- How far a session can get from where it has been at most. -/
def room : WithBot ℕ → ℕ
  | none => 2 ^ 64
  | some n => 2 ^ 64 - 1 - n

def rank : ℕ :=
  match d.phase with
  | .probe => 4
  | .opening => 3
  | .asking _ => 2
  | .sending .. | .committing .. | .single => 1
  | .ended _ => 0

/-- Lowered by every request, as long as every answer is past. -/
def patience : ℕ :=
  if d.rank = 0 then 0
  else (((maxRestarts + 1 - d.restarts) * (2 ^ 64 + 1) + room d.furthest) * (maxQuietRetries + 2) +
    d.budget) * 5 + d.rank

/-! ### What an answer does -/

variable {t d} {d' : Driver} {r : Reply}

/-- Whether the attempt under way has made progress. -/
def progressed (d : Driver) : Bool :=
  match d.phase with
  | .sending _ _ p | .committing _ _ p => p
  | _ => false

/-- What an answer does, with why. -/
inductive Heard (t : Target) (d : Driver) : Reply → Driver → Prop
  | ended {r : Reply} {d' : Driver} (h : d'.Ended) (hpast : d.Past t r) : Heard t d r d'
  | single {r : Reply} (hphase : d.phase = .probe) : Heard t d r { d with phase := .single }
  | next {r : Reply} (hphase : d.phase = .probe) : Heard t d r d.next
  | opened {r : Reply} (hphase : d.phase = .opening) (s : UploadSession) :
      Heard t d r { d with session := some s }.next
  | asked {r : Reply} {s : UploadSession} (hphase : d.phase = .asking s) (pos : UInt64) :
      Heard t d r (d.go s pos.toNat false)
  | failed {r : Reply} (hpast : d.Past t r) (step : Step) : Heard t d r (d.fail d.progressed step)
  | reached {a : Response} {s : UploadSession} {pos : ℕ} {p : Bool} {new : UInt64}
      (hphase : d.phase = .sending s pos p) (hnew : a.offset = some new) (hlt : pos < new.toNat)
      (hstatus : ¬ (a.isSuccess ∨ a.status = Response.conflict)) :
      Heard t d (.answered a) ((d.stand new.toNat).fail true ((a.refusal t.plainLen).getD .retry))
  | moved {a : Response} {s : UploadSession} {pos : ℕ} {p : Bool} {new : UInt64}
      (hphase : d.phase = .sending s pos p) (hnew : a.offset = some new) (hne : new.toNat ≠ pos)
      (hstatus : a.isSuccess ∨ a.status = Response.conflict) :
      Heard t d (.answered a) (d.go s new.toNat (p || pos < new.toNat))
  | corrected {a : Response} {s : UploadSession} {pos : ℕ} {p : Bool} {new : UInt64}
      (hphase : d.phase = .committing s pos p) (hnew : a.offset = some new)
      (hlt : new.toNat < s.length) (hstatus : a.status = Response.conflict) :
      Heard t d (.answered a) (d.go s new.toNat p)

attribute [local simp] Past

theorem ended_finish (result : Except UploadError Committed) : (d.finish result).Ended := ⟨_, rfl⟩

theorem heard_failed {p : Bool} (hp : d.progressed = p) (hpast : d.Past t r) (step : Step) :
    Heard t d r (d.fail p step) :=
  hp ▸ .failed hpast step

theorem heard_probe (h : d.phase = .probe) (r : Reply) : Heard t d r (d.hearProbe r) := by
  cases r with
  | failed fault => exact .single h
  | answered a =>
      simp only [hearProbe]
      split_ifs
      · exact .next h
      · exact .single h

theorem heard_single (h : d.phase = .single) (r : Reply) : Heard t d r (d.hearSingle t r) := by
  refine .ended ?_ (by simp [Past, h])
  cases r with
  | failed fault => exact ended_finish _
  | answered a =>
      simp only [hearSingle]
      split_ifs
      · split <;> exact ended_finish _
      · split <;> exact ended_finish _

theorem heard_opening (h : d.phase = .opening) (r : Reply) : Heard t d r (d.hearOpening t r) := by
  have hfail : ∀ step, Heard t d r (d.fail false step) :=
    heard_failed (by simp [progressed, h]) (by simp [Past, h])
  cases r with
  | failed fault => exact hfail .retry
  | answered a =>
      simp only [hearOpening]
      split_ifs
      · split
        · exact .opened h _
        · exact hfail _
      · split <;> exact hfail _

theorem heard_asking {s : UploadSession} (h : d.phase = .asking s) (r : Reply) :
    Heard t d r (d.hearAsking t s r) := by
  have hfail : ∀ step, Heard t d r (d.fail false step) :=
    heard_failed (by simp [progressed, h]) (by simp [Past, h])
  cases r with
  | failed fault => exact hfail .retry
  | answered a =>
      simp only [hearAsking]
      split_ifs
      · split
        · exact .asked h _
        · exact hfail _
      · exact hfail _

theorem heard_sending {s : UploadSession} {pos : ℕ} {p : Bool} (h : d.phase = .sending s pos p)
    (r : Reply) : Heard t d r (d.hearSending t s pos p r) := by
  have hfail : d.Past t r → ∀ step, Heard t d r (d.fail p step) :=
    heard_failed (by simp [progressed, h])
  cases r with
  | failed fault => exact hfail (by simp [Past, h]) _
  | answered a =>
      simp only [hearSending]
      by_cases hstatus : a.isSuccess ∨ a.status = Response.conflict
      · rw [if_pos hstatus]
        cases hnew : a.offset with
        | none => exact hfail (by simp [Past, h, hnew]) _
        | some new =>
            by_cases heq : new.toNat = pos
            · simp only [if_pos heq]
              exact hfail (by simp [Past, h, hnew, hstatus, heq]) _
            · simp only [if_neg heq]
              exact .moved h hnew heq hstatus
      · rw [if_neg hstatus]
        cases hnew : a.offset with
        | none => exact hfail (by simp [Past, h, hnew]) _
        | some new =>
            by_cases hlt : pos < new.toNat
            · simp only [if_pos hlt]
              exact .reached h hnew hlt hstatus
            · simp only [if_neg hlt]
              exact hfail (by simp [Past, h, hnew, hstatus, hlt]) _

theorem heard_committing {s : UploadSession} {pos : ℕ} {p : Bool}
    (h : d.phase = .committing s pos p) (r : Reply) : Heard t d r (d.hearCommitting t s p r) := by
  have hfail : d.Past t r → ∀ step, Heard t d r (d.fail p step) :=
    heard_failed (by simp [progressed, h])
  cases r with
  | failed fault => exact hfail (by simp [Past, h]) .retry
  | answered a =>
      simp only [hearCommitting]
      by_cases hok : a.isSuccess
      · have hstatus : a.status ≠ Response.conflict := by
          intro hconflict
          have hlt := hok.2
          rw [hconflict] at hlt
          exact absurd hlt (by decide)
        rw [if_pos hok]
        split
        · exact .ended (ended_finish _) (by simp [Past, h, hstatus])
        · exact hfail (by simp [Past, h, hstatus]) _
      · rw [if_neg hok]
        by_cases hstatus : a.status = Response.conflict
        · rw [if_pos hstatus]
          cases hnew : a.offset with
          | none => exact hfail (by simp [Past, h, hnew]) _
          | some new =>
              by_cases hlt : new.toNat < s.length
              · simp only [if_pos hlt]
                exact .corrected h hnew hlt hstatus
              · simp only [if_neg hlt]
                exact hfail (by simp [Past, h, hnew, not_lt.1 hlt]) _
        · rw [if_neg hstatus]
          exact hfail (by simp [Past, h, hstatus]) _

theorem heard (t : Target) (d : Driver) (r : Reply) : Heard t d r (d.hear t r) := by
  unfold hear
  split
  · next h => exact heard_probe h r
  · next h => exact heard_single h r
  · next h => exact heard_opening h r
  · next h => exact heard_asking h r
  · next h => exact heard_sending h r
  · next h => exact heard_committing h r
  · next result h => exact .ended ⟨result, h⟩ (by simp [Past, h])

/-! ### Steadiness -/

/-- Between two rounds. -/
def Waits (d : Driver) : Prop := (∃ s, d.phase = .asking s) ∨ d.phase = .opening

theorem waits_next (d : Driver) : d.next.Waits := by
  cases hs : d.session with
  | none =>
      right
      simp [next, hs]
  | some s =>
      left
      exact ⟨s, by simp [next, hs]⟩

/-- A failure ends the upload, or it is counted and the next round begins. -/
inductive Failed (d : Driver) (p : Bool) : Step → Driver → Prop
  | ended {step : Step} {d' : Driver} (h : d'.Ended) : Failed d p step d'
  | retry {d' : Driver} (hwaits : d'.Waits)
      (hquiet : d'.quietFailures = (if p then 0 else d.quietFailures) + 1)
      (hle : d'.quietFailures ≤ maxQuietRetries) (hrestarts : d'.restarts = d.restarts)
      (hfurthest : d'.furthest = d.furthest) : Failed d p .retry d'
  | restart {d' : Driver} (hwaits : d'.Waits) (hquiet : d'.quietFailures = d.quietFailures)
      (hrestarts : d'.restarts = d.restarts + 1) (hle : d'.restarts ≤ maxRestarts) :
      Failed d p .restart d'

theorem failed (d : Driver) (p : Bool) (step : Step) : Failed d p step (d.fail p step) := by
  cases step with
  | retry =>
      by_cases hmax : maxQuietRetries < (if p then 0 else d.quietFailures) + 1
      · simp only [fail, if_pos hmax]
        exact .ended (ended_finish _)
      · simp only [fail, if_neg hmax]
        exact .retry (waits_next _) rfl (not_lt.1 hmax) rfl rfl
  | restart =>
      simp only [fail]
      split_ifs with hmax
      · exact .ended (ended_finish _)
      · exact .restart (waits_next _) rfl rfl (not_lt.1 hmax)
  | stop e => exact .ended (ended_finish _)

theorem Waits.not_sending (h : d.Waits) (s : UploadSession) (pos : ℕ) (p : Bool) :
    d.phase ≠ .sending s pos p := by
  rcases h with ⟨s', h⟩ | h
  · rw [h]
    exact fun hne => nomatch hne
  · rw [h]
    exact fun hne => nomatch hne

theorem Waits.not_committing (h : d.Waits) (s : UploadSession) (pos : ℕ) (p : Bool) :
    d.phase ≠ .committing s pos p := by
  rcases h with ⟨s', h⟩ | h
  · rw [h]
    exact fun hne => nomatch hne
  · rw [h]
    exact fun hne => nomatch hne

theorem Waits.budget (h : d.Waits) : d.budget = maxQuietRetries + 1 - d.quietFailures := by
  rcases h with ⟨s, h⟩ | h
  · simp [Driver.budget, h]
  · simp [Driver.budget, h]

theorem budget_eq (d : Driver) : d.budget =
    if d.progressed then maxQuietRetries + 1 else maxQuietRetries + 1 - d.quietFailures := by
  unfold budget progressed
  cases d.phase with
  | sending s pos p => cases p <;> rfl
  | committing s pos p => cases p <;> rfl
  | _ => rfl

theorem not_ended_of_phase {ph : Phase} (h : d.phase = ph) (hph : ∀ result, ph ≠ .ended result) :
    ¬ d.Ended := by
  rintro ⟨result, hend⟩
  exact hph result (h.symm.trans hend)

/-- After `go` a segment is sent, or the commit. -/
theorem phase_go (s : UploadSession) (pos : ℕ) (p : Bool) :
    (d.go s pos p).phase = .sending s pos p ∨
      ((d.go s pos p).phase = .committing s pos p ∧ s.length ≤ pos) := by
  by_cases hpos : pos < s.length
  · left
    simp [go, hpos]
  · right
    exact ⟨by simp [go, hpos], not_lt.1 hpos⟩

theorem budget_go (s : UploadSession) (pos : ℕ) (p : Bool) : (d.go s pos p).budget =
    if p then maxQuietRetries + 1 else maxQuietRetries + 1 - d.quietFailures := by
  have hprogressed : (d.go s pos p).progressed = p := by
    unfold progressed
    rcases phase_go (d := d) s pos p with h | ⟨h, -⟩
    · rw [h]
    · rw [h]
  rw [budget_eq, hprogressed]
  rfl

theorem furthest_go (s : UploadSession) (pos : ℕ) (p : Bool) :
    (d.go s pos p).furthest = max d.furthest pos := rfl

theorem Steady.go (h : d.Steady) (hend : ¬ d.Ended) (s : UploadSession) (pos : ℕ) (p : Bool) :
    (d.go s pos p).Steady where
  quiet _ := h.quiet hend
  restarts _ := h.restarts hend
  sending s' pos' p' hphase := by
    rw [furthest_go]
    rcases phase_go (d := d) s pos p with hgo | ⟨hgo, -⟩
    · rw [hgo] at hphase
      cases hphase
      exact le_max_right _ _
    · rw [hgo] at hphase
      cases hphase
  committing s' pos' p' hphase := by
    rw [furthest_go]
    rcases phase_go (d := d) s pos p with hgo | ⟨hgo, hle⟩
    · rw [hgo] at hphase
      cases hphase
    · rw [hgo] at hphase
      cases hphase
      exact ⟨hle, le_max_right _ _⟩

theorem Steady.of_ended (h : d.Ended) : d.Steady := by
  obtain ⟨result, hend⟩ := h
  refine ⟨fun hn => absurd ⟨result, hend⟩ hn, fun hn => absurd ⟨result, hend⟩ hn, ?_, ?_⟩
  · intro s pos p hphase
    rw [hend] at hphase
    cases hphase
  · intro s pos p hphase
    rw [hend] at hphase
    cases hphase

theorem Steady.of_waits (h : d.Waits) (hquiet : d.quietFailures ≤ maxQuietRetries)
    (hrestarts : d.restarts ≤ maxRestarts) : d.Steady where
  quiet _ := hquiet
  restarts _ := hrestarts
  sending s pos p hphase := absurd hphase (h.not_sending s pos p)
  committing s pos p hphase := absurd hphase (h.not_committing s pos p)

theorem Steady.fail (hquiet : d.quietFailures ≤ maxQuietRetries)
    (hrestarts : d.restarts ≤ maxRestarts) (p : Bool) (step : Step) : (d.fail p step).Steady := by
  rcases failed d p step with hend | ⟨hwaits, -, hle, hres, -⟩ | ⟨hwaits, hq, -, hle⟩
  · exact .of_ended hend
  · exact .of_waits hwaits hle (hres ▸ hrestarts)
  · exact .of_waits hwaits (hq ▸ hquiet) hle

theorem steady_start (t : Target) (session : Option UploadSession) : (start t session).Steady where
  quiet _ := Nat.zero_le _
  restarts _ := Nat.zero_le _
  sending _ _ _ hphase := nomatch hphase
  committing _ _ _ hphase := nomatch hphase

theorem Steady.hear (h : d.Steady) (hend : ¬ d.Ended) (t : Target) (r : Reply) :
    (d.hear t r).Steady := by
  have hquiet := h.quiet hend
  have hrestarts := h.restarts hend
  have hheard := heard t d r
  generalize d.hear t r = d' at hheard ⊢
  cases hheard with
  | ended hend' => exact .of_ended hend'
  | single hphase =>
      refine ⟨fun _ => hquiet, fun _ => hrestarts, ?_, ?_⟩
      · exact fun s pos p hne => nomatch hne
      · exact fun s pos p hne => nomatch hne
  | next hphase => exact .of_waits (waits_next d) hquiet hrestarts
  | opened hphase s => exact .of_waits (waits_next _) hquiet hrestarts
  | asked hphase pos => exact h.go hend _ _ _
  | failed hpast step => exact .fail hquiet hrestarts _ step
  | reached hphase hnew hlt hstatus => exact Steady.fail (d := d.stand _) hquiet hrestarts _ _
  | moved hphase hnew hne hstatus => exact h.go hend _ _ _
  | corrected hphase hnew hlt hstatus => exact h.go hend _ _ _

/-! ### Paying -/

theorem budget_lt_of_counted (h : d.Steady) (hend : ¬ d.Ended) (hwaits : d'.Waits)
    (hquiet : d'.quietFailures = (if d.progressed then 0 else d.quietFailures) + 1) :
    d'.budget < d.budget := by
  have hle := h.quiet hend
  rw [hwaits.budget, budget_eq d, hquiet]
  cases hprogressed : d.progressed with
  | true => simp
  | false =>
      simp only [Bool.false_eq_true, if_false]
      omega

theorem charged_fail (h : d.Steady) (hend : ¬ d.Ended) (step : Step) :
    Charged d (d.fail d.progressed step) := by
  have hfailed := failed d d.progressed step
  generalize d.fail d.progressed step = d' at hfailed ⊢
  cases hfailed with
  | ended hend' => exact .inr (.inr hend')
  | retry hwaits hq hle hres hfur => exact .inl (budget_lt_of_counted h hend hwaits hq)
  | restart hwaits hq hres hle =>
      right
      left
      omega

theorem not_charged_go (s : UploadSession) (pos : ℕ) {p : Bool}
    (hp : d.progressed = true → p = true) : ¬ Charged d (d.go s pos p) := by
  rintro (hbudget | hres | hend)
  · rw [budget_go, budget_eq] at hbudget
    cases hprogressed : d.progressed with
    | true => simp [hprogressed, hp hprogressed] at hbudget
    | false =>
        rw [hprogressed] at hbudget
        simp only [Bool.false_eq_true, if_false] at hbudget
        split_ifs at hbudget
        · omega
        · omega
  · exact absurd hres (lt_irrefl _)
  · obtain ⟨result, hend⟩ := hend
    rcases phase_go (d := d) s pos p with hgo | ⟨hgo, -⟩
    · rw [hgo] at hend
      cases hend
    · rw [hgo] at hend
      cases hend

/-- A failed segment that got somewhere: paid for if that does not refill the budget. -/
theorem paid_reached (d : Driver) (new : ℕ) (step : Step) :
    (Charged d ((d.stand new).fail true step) ∨
        d.furthest < ((d.stand new).fail true step).furthest) ↔
      (step = .retry → d.budget ≤ maxQuietRetries → d.furthest < new) := by
  have hfailed := failed (d.stand new) true step
  cases step with
  | retry =>
      have hbudget : ((d.stand new).fail true .retry).budget = maxQuietRetries := by
        have hwaits : ((d.stand new).fail true .retry).Waits := waits_next _
        rw [hwaits.budget]
        rfl
      have hend : ¬ ((d.stand new).fail true .retry).Ended := by
        have hwaits : ((d.stand new).fail true .retry).Waits := waits_next _
        rintro ⟨result, hend⟩
        rcases hwaits with ⟨s, hs⟩ | hs
        · cases hs.symm.trans hend
        · cases hs.symm.trans hend
      have hfur : ((d.stand new).fail true .retry).furthest = max d.furthest new := rfl
      have hres : ((d.stand new).fail true .retry).restarts = d.restarts := rfl
      rw [Charged, hbudget, hfur, hres, lt_max_iff]
      simp only [lt_irrefl, hend, or_false, false_or, true_implies]
      rw [← not_le, imp_iff_not_or]
  | restart =>
      refine iff_of_true (.inl ?_) nofun
      generalize (d.stand new).fail true .restart = d' at hfailed ⊢
      cases hfailed with
      | ended hend => exact .inr (.inr hend)
      | restart _ _ hres _ => exact .inr (.inl (hres ▸ Nat.lt_succ_self _))
  | stop e => exact iff_of_true (.inl (.inr (.inr (ended_finish _)))) nofun

/-- While it drives, a request is paid for or gets further than ever exactly if its answer
is past. -/
theorem paid_iff_past (h : d.Steady) (hdriving : d.Driving) (r : Reply) :
    (Charged d (d.hear t r) ∨ d.furthest < (d.hear t r).furthest) ↔ d.Past t r := by
  obtain ⟨s, pos, p, hphase⟩ := hdriving
  have hend : ¬ d.Ended := by
    rcases hphase with hphase | hphase
    · exact not_ended_of_phase hphase fun _ => nofun
    · exact not_ended_of_phase hphase fun _ => nofun
  have hheard := heard t d r
  generalize d.hear t r = d' at hheard ⊢
  cases hheard with
  | ended hend' hpast => exact iff_of_true (.inl (.inr (.inr hend'))) hpast
  | single hprobe => rcases hphase with hphase | hphase <;> cases hprobe.symm.trans hphase
  | next hprobe => rcases hphase with hphase | hphase <;> cases hprobe.symm.trans hphase
  | opened hopen => rcases hphase with hphase | hphase <;> cases hopen.symm.trans hphase
  | asked hask => rcases hphase with hphase | hphase <;> cases hask.symm.trans hphase
  | failed hpast step => exact iff_of_true (.inl (charged_fail h hend step)) hpast
  | @reached a _ _ _ new hsend hnew hlt hstatus =>
      rw [paid_reached d new.toNat]
      simp only [Past, hsend, hnew, if_neg hstatus, Option.mem_some_iff, forall_eq']
      exact ⟨fun hpaid hcond => hpaid hcond.2.1 hcond.2.2, fun hpast hs hb => hpast ⟨hlt, hs, hb⟩⟩
  | @moved a s' pos' p' new hsend hnew hne hstatus =>
      have hfree : ¬ Charged d (d.go s' new.toNat (p' || pos' < new.toNat)) := by
        refine not_charged_go s' new.toNat fun hp => ?_
        simp only [progressed, hsend] at hp
        rw [hp, Bool.true_or]
      rw [furthest_go, lt_max_iff, or_iff_right hfree, or_iff_right (lt_irrefl _)]
      simp only [Past, hsend, hnew, if_pos hstatus, Option.mem_some_iff, forall_eq']
      exact ⟨fun hlt _ => hlt, fun hpast => hpast hne⟩
  | @corrected a s' pos' p' new hcommit hnew hlt hstatus =>
      obtain ⟨hle, hfur⟩ := h.committing _ _ _ hcommit
      refine iff_of_false ?_ ?_
      · rintro (hcharged | hfurther)
        · refine not_charged_go _ _ (fun hp => ?_) hcharged
          simpa only [progressed, hcommit] using hp
        · rw [furthest_go, lt_max_iff, or_iff_right (lt_irrefl _)] at hfurther
          have hpos : pos' < new.toNat := by exact_mod_cast hfur.trans_lt hfurther
          omega
      · simp only [Past, hcommit, hnew, Option.mem_some_iff, forall_eq']
        exact fun hpast => absurd (hpast hstatus) (not_le.2 hlt)

/-! ### Patience -/

theorem room_anti {a b : WithBot ℕ} (h : a ≤ b) : room b ≤ room a := by
  cases a with
  | bot =>
      cases b with
      | bot => exact le_rfl
      | coe n =>
          change 2 ^ 64 - 1 - n ≤ 2 ^ 64
          omega
  | coe m =>
      cases b with
      | bot => exact absurd h (WithBot.not_coe_le_bot m)
      | coe n =>
          have hmn := WithBot.coe_le_coe.1 h
          change 2 ^ 64 - 1 - n ≤ 2 ^ 64 - 1 - m
          omega

theorem room_lt {a : WithBot ℕ} {new : ℕ} (h : a < new) (hnew : new < 2 ^ 64) :
    room (max a new) < room a := by
  rw [max_eq_right h.le]
  cases a with
  | bot =>
      change 2 ^ 64 - 1 - new < 2 ^ 64
      omega
  | coe m =>
      have hmn : m < new := WithBot.coe_lt_coe.1 h
      change 2 ^ 64 - 1 - new < 2 ^ 64 - 1 - m
      omega

theorem room_le (a : WithBot ℕ) : room a ≤ 2 ^ 64 := room_anti (bot_le (a := a))

theorem budget_le (d : Driver) : d.budget ≤ maxQuietRetries + 1 := by
  rw [budget_eq]
  split_ifs
  · exact le_rfl
  · exact Nat.sub_le _ _

theorem rank_eq_zero : d.rank = 0 ↔ d.Ended := by
  unfold rank Ended
  cases d.phase <;> simp

theorem rank_le (d : Driver) : d.rank ≤ 4 := by
  unfold rank
  cases d.phase <;> simp

theorem patience_lt_of (hend : ¬ d.Ended)
    (h : d'.Ended ∨ (maxRestarts + 1 - d'.restarts < maxRestarts + 1 - d.restarts) ∨
      (d'.restarts = d.restarts ∧ (room d'.furthest < room d.furthest ∨
        (room d'.furthest ≤ room d.furthest ∧
          (d'.budget < d.budget ∨ (d'.budget ≤ d.budget ∧ d'.rank < d.rank)))))) :
    d'.patience < d.patience := by
  have hrank : d.rank ≠ 0 := rank_eq_zero.not.2 hend
  by_cases hend' : d'.rank = 0
  · rw [patience, patience, if_pos hend', if_neg hrank]
    omega
  · rw [or_iff_right (rank_eq_zero.not.1 hend')] at h
    rw [patience, patience, if_neg hend', if_neg hrank]
    have hroom := room_le d'.furthest
    have hbudget := budget_le d'
    have hrank' := rank_le d'
    unfold maxQuietRetries maxRestarts at *
    rcases h with hres | ⟨hres, hroom' | ⟨hroom', hbudget' | ⟨hbudget', hlow⟩⟩⟩
    · omega
    · rw [hres]
      omega
    · rw [hres]
      omega
    · rw [hres]
      omega

theorem Waits.rank (h : d.Waits) : d.rank ≤ 3 := by
  rcases h with ⟨s, h⟩ | h
  · simp [Driver.rank, h]
  · simp [Driver.rank, h]

/-- Every answer that is past wears the patience down. -/
theorem patience_hear (h : d.Steady) (hend : ¬ d.Ended) (hpast : d.Past t r) :
    (d.hear t r).patience < d.patience := by
  have hres := h.restarts hend
  have hheard := heard t d r
  generalize d.hear t r = d' at hheard ⊢
  apply patience_lt_of hend
  cases hheard with
  | ended hend' => exact .inl hend'
  | single hphase =>
      refine .inr (.inr ⟨rfl, .inr ⟨le_rfl, .inr ⟨?_, ?_⟩⟩⟩)
      · simp [budget, hphase]
      · simp [rank, hphase]
  | next hphase =>
      refine .inr (.inr ⟨rfl, .inr ⟨le_rfl, .inr ⟨?_, ?_⟩⟩⟩)
      · rw [(waits_next d).budget]
        simp [budget, hphase, next]
      · have hrank := (waits_next d).rank
        simp only [rank, hphase] at hrank ⊢
        omega
  | opened hphase s =>
      refine .inr (.inr ⟨rfl, .inr ⟨le_rfl, .inr ⟨?_, ?_⟩⟩⟩)
      · rw [(waits_next _).budget]
        simp [budget, hphase, next]
      · simp [rank, hphase, next]
  | @asked r s hphase pos =>
      refine .inr (.inr ⟨rfl, .inr ⟨room_anti (le_max_left _ _), .inr ⟨?_, ?_⟩⟩⟩)
      · rw [budget_go]
        simp [budget, hphase]
      · rcases phase_go (d := d) s pos.toNat false with hgo | ⟨hgo, -⟩
        · simp [rank, hphase, hgo]
        · simp [rank, hphase, hgo]
  | failed _ step =>
      have hfailed := failed d d.progressed step
      generalize d.fail d.progressed step = d' at hfailed ⊢
      cases hfailed with
      | ended hend' => exact .inl hend'
      | retry hwaits hq _ hr hf =>
          exact .inr (.inr ⟨hr, .inr ⟨hf ▸ le_rfl, .inl (budget_lt_of_counted h hend hwaits hq)⟩⟩)
      | restart _ _ hr hle => exact .inr (.inl (by omega))
  | @reached a s pos p new hsend hnew hlt hstatus =>
      have hfailed := failed (d.stand new.toNat) true ((a.refusal t.plainLen).getD .retry)
      generalize hstep : (a.refusal t.plainLen).getD .retry = step at hfailed
      generalize hd' : (d.stand new.toNat).fail true step = d' at hfailed
      have hpaid : step = .retry → d.budget ≤ maxQuietRetries → d.furthest < new.toNat := by
        intro hretry hbudget
        simp only [Past, hsend, hnew, if_neg hstatus, Option.mem_some_iff, forall_eq'] at hpast
        exact hpast ⟨hlt, hstep.trans hretry, hbudget⟩
      cases hfailed with
      | ended hend' => exact .inl hend'
      | retry hwaits hq _ hr hf =>
          have hbudget : d'.budget = maxQuietRetries := by
            rw [hwaits.budget, hq]
            rfl
          have hfur : d'.furthest = max d.furthest new.toNat := hf
          refine .inr (.inr ⟨hr, ?_⟩)
          rw [hfur]
          by_cases hle : d.budget ≤ maxQuietRetries
          · exact .inl (room_lt (hpaid rfl hle) new.toNat_lt)
          · exact .inr ⟨room_anti (le_max_left _ _), .inl (hbudget ▸ not_le.1 hle)⟩
      | restart _ _ hr hle =>
          have hstand : (d.stand new.toNat).restarts = d.restarts := rfl
          exact .inr (.inl (by omega))
  | @moved a s pos p new hsend hnew hne hstatus =>
      simp only [Past, hsend, hnew, if_pos hstatus, Option.mem_some_iff, forall_eq'] at hpast
      exact .inr (.inr ⟨rfl, .inl (room_lt (hpast hne) new.toNat_lt)⟩)
  | corrected hcommit hnew hlt hstatus =>
      simp only [Past, hcommit, hnew, Option.mem_some_iff, forall_eq'] at hpast
      exact absurd (hpast hstatus) (not_le.2 hlt)

/-! ### Ending -/

variable {rs : ℕ → Reply}

theorem hear_of_ended (h : d.Ended) (r : Reply) : d.hear t r = d := by
  obtain ⟨result, hend⟩ := h
  simp only [hear, hend]

theorem past_of_ended (h : d.Ended) (r : Reply) : d.Past t r := by
  obtain ⟨result, hend⟩ := h
  simp [Past, hend]

theorem past_of_not_driving (h : ¬ d.Driving) (r : Reply) : d.Past t r := by
  unfold Past
  split
  · next s pos p a hphase => exact absurd ⟨s, pos, p, .inl hphase⟩ h
  · next s pos p a hphase => exact absurd ⟨s, pos, p, .inr hphase⟩ h
  · trivial

theorem Steady.after (h : d.Steady) (rs : ℕ → Reply) (n : ℕ) : (d.after t rs n).Steady := by
  induction n with
  | zero => exact h
  | succ n ih =>
      change ((d.after t rs n).hear t (rs n)).Steady
      by_cases hend : (d.after t rs n).Ended
      · rw [hear_of_ended hend]
        exact ih
      · exact ih.hear hend t (rs n)

theorem ended_after {n m : ℕ} (h : (d.after t rs n).Ended) (hnm : n ≤ m) :
    (d.after t rs m).Ended := by
  induction m, hnm using Nat.le_induction with
  | base => exact h
  | succ m hnm ih =>
      change ((d.after t rs m).hear t (rs m)).Ended
      rw [hear_of_ended ih]
      exact ih

/-- The upload ends exactly if all but finitely many answers are past. -/
theorem ends_iff (h : d.Steady) (rs : ℕ → Reply) : (∃ n, (d.after t rs n).Ended) ↔
    {n | ¬ (d.after t rs n).Past t (rs n)}.Finite := by
  constructor
  · rintro ⟨n, hend⟩
    refine (Set.finite_lt_nat n).subset fun m hm => ?_
    by_contra hlt
    exact hm (past_of_ended (ended_after hend (not_lt.1 hlt)) _)
  · intro hfin
    obtain ⟨N, hN⟩ := hfin.bddAbove
    refine exists_of_lowered patience (N + 1) fun n hn hend => ?_
    refine patience_hear (h.after rs n) hend ?_
    by_contra hpast
    exact absurd (hN hpast) (not_le.2 hn)

end Driver

/-- The upload ends, and a request of `drive` that is not paid for leaves the session further
than ever before. -/
structure Frugal (t : Target) (session : Option UploadSession) (rs : ℕ → Reply) : Prop where
  ends : ∃ n, ((Driver.start t session).after t rs n).Ended
  further : ∀ n, ((Driver.start t session).after t rs n).Driving →
    ¬ Driver.Charged ((Driver.start t session).after t rs n)
      ((Driver.start t session).after t rs (n + 1)) →
    ((Driver.start t session).after t rs n).furthest <
      ((Driver.start t session).after t rs (n + 1)).furthest

/-- An upload is frugal exactly if every answer is past; it ends exactly if all but finitely
many are. -/
theorem frugal_iff_past (t : Target) (session : Option UploadSession) (rs : ℕ → Reply) :
    (Frugal t session rs ↔
      ∀ n, ((Driver.start t session).after t rs n).Past t (rs n)) ∧
    ((∃ n, ((Driver.start t session).after t rs n).Ended) ↔
      {n | ¬ ((Driver.start t session).after t rs n).Past t (rs n)}.Finite) := by
  have hsteady := Driver.steady_start t session
  have hends := Driver.ends_iff (t := t) hsteady rs
  refine ⟨⟨fun h n => ?_, fun h => ⟨?_, fun n hdriving hfree => ?_⟩⟩, hends⟩
  · by_cases hdriving : ((Driver.start t session).after t rs n).Driving
    · refine (Driver.paid_iff_past (hsteady.after rs n) hdriving (rs n)).1 ?_
      by_cases hcharged : Driver.Charged ((Driver.start t session).after t rs n)
          ((Driver.start t session).after t rs (n + 1))
      · exact .inl hcharged
      · exact .inr (h.further n hdriving hcharged)
    · exact Driver.past_of_not_driving hdriving _
  · refine hends.2 ?_
    have hnone : {n | ¬ ((Driver.start t session).after t rs n).Past t (rs n)} = ∅ :=
      Set.eq_empty_of_forall_notMem fun n hn => hn (h n)
    rw [hnone]
    exact Set.finite_empty
  · have hpaid := (Driver.paid_iff_past (hsteady.after rs n) hdriving (rs n)).2 (h n)
    exact hpaid.resolve_left hfree

/-! ### A relay that goes to and fro -/

def twoBytes : Target := ⟨"r", 2, 2, 60⟩

/-- The relay takes the first byte of two and then says that it has none, again and again. -/
def toAndFro : ℕ → Reply
  | 0 => .answered { status := 200, text := "\"upload\":true" }
  | 1 => .answered { status := 200, text := "id" }
  | 2 => .answered { status := 200, offset := some 0 }
  | n + 3 =>
      if n % 2 = 0 then .answered { status := 204, offset := some 1 }
      else .answered { status := 409, offset := some 0 }

def between (pos : ℕ) : Driver :=
  ⟨.sending ⟨"r", "id", 2⟩ pos true, some ⟨"r", "id", 2⟩, 0, 0, (1 : ℕ)⟩

theorem after_toAndFro (k : ℕ) :
    (Driver.start twoBytes none).after twoBytes toAndFro (2 * k + 4) = between 1 := by
  induction k with
  | zero => rfl
  | succ k ih =>
      have hback : toAndFro (2 * k + 4) = .answered { status := 409, offset := some 0 } := by
        have hodd : (2 * k + 1) % 2 ≠ 0 := by omega
        simp only [toAndFro, if_neg hodd]
      have hforth : toAndFro (2 * k + 5) = .answered { status := 204, offset := some 1 } := by
        have heven : (2 * k + 2) % 2 = 0 := by omega
        simp only [toAndFro, if_pos heven]
      calc (Driver.start twoBytes none).after twoBytes toAndFro (2 * (k + 1) + 4)
          = (((Driver.start twoBytes none).after twoBytes toAndFro (2 * k + 4)).hear twoBytes
              (toAndFro (2 * k + 4))).hear twoBytes (toAndFro (2 * k + 5)) := rfl
        _ = between 1 := by
          rw [ih, hback, hforth]
          rfl

/-- The upload goes on for ever, and none of its failures is counted. -/
theorem not_frugal_toAndFro : ¬ Frugal twoBytes none toAndFro ∧
    ∀ n, ¬ ((Driver.start twoBytes none).after twoBytes toAndFro n).Ended := by
  have hnever : ∀ n, ¬ ((Driver.start twoBytes none).after twoBytes toAndFro n).Ended := by
    intro n hend
    have hlate := Driver.ended_after hend (m := 2 * n + 4) (by omega)
    rw [after_toAndFro] at hlate
    obtain ⟨result, hlate⟩ := hlate
    cases hlate
  refine ⟨fun h => ?_, hnever⟩
  obtain ⟨n, hend⟩ := h.ends
  exact hnever n hend

end Arvolo.Upload
