import Arvolo.Lib.Machine

/-!
The status of one transfer, and the tasks that write it: `core/src/manager`.

The row of a transfer is written by its own task, which pauses, ends, or leaves
the file on a relay; by the watcher of what was left there; by `cancel`, which
ends some rows itself and for others starts a task that withdraws the file first;
and by `resume`. Each looks at the row under the lock, and acts on what it saw
when it has let the lock go.

`set_status` writes over whatever is there, and takes the token of the row away.
-/

namespace Arvolo.Manager

open Lib

inductive RowStatus
  | active
  | preparing
  | waiting
  | paused
  | deposited
  | completed
  | failed
  | cancelled
  deriving DecidableEq

namespace RowStatus

/-- A task runs, or ought to. -/
def live : RowStatus → Bool
  | .active | .preparing | .waiting => true
  | _ => false

def terminal : RowStatus → Bool
  | .completed | .failed | .cancelled => true
  | _ => false

end RowStatus

structure TransferRow where
  status : RowStatus := .active
  /-- The row is there, and its token and task are not yet. -/
  starting : Bool := true
  /-- `cancels` has a token for it, and whether that was cancelled. -/
  token : Bool := false
  tokenCancelled : Bool := false
  pauseFlag : Bool := false
  /-- Its own tasks that run. -/
  loops : ℕ := 0
  /-- Pickup watchers that run. -/
  watchers : ℕ := 0
  /-- A cancel has been asked for since the file was left on the relay. -/
  asked : Bool := false
  /-- Calls of `cancel` that have seen the row live, or paused. -/
  cancelsLive : ℕ := 0
  cancelsPaused : ℕ := 0
  /-- `cancel_deposited` and `cancel_parked`, on their way. -/
  withdrawals : ℕ := 0
  /-- Calls of `resume` that have seen the row paused. -/
  resumes : ℕ := 0
  /-- The terminal events, latest first. -/
  ended : List RowStatus := []
  deriving DecidableEq

inductive RowEvent
  | start
  /-- The task reports where it is. -/
  | setLive (st : RowStatus)
  /-- The task sees its token cancelled. -/
  | stop
  /-- Held too long, or a full disk. -/
  | giveUp
  /-- `finish`. -/
  | finish (ok : Bool)
  /-- The file is on the relay, deposited or parked. -/
  | deposit
  /-- What the watcher concludes. -/
  | pickedUp
  | expired
  | unknown
  | pause
  | cancelLook
  | cancelLive
  | cancelPaused
  | withdrawn
  | resumeLook
  | resumeAct
  deriving DecidableEq

namespace TransferRow

variable (r : TransferRow)

/-- `set_status`. -/
def setStatus (st : RowStatus) : TransferRow := { r with status := st, token := false }

/-- A terminal status, and its event. -/
def conclude (st : RowStatus) : TransferRow :=
  { r.setStatus st with ended := st :: r.ended }

def step (r : TransferRow) : RowEvent → TransferRow
  | .start => if r.starting then { r with starting := false, token := true, loops := 1 } else r
  | .setLive st => if 0 < r.loops ∧ st.live then { r with status := st } else r
  | .stop =>
      if 0 < r.loops ∧ r.tokenCancelled then
        if r.pauseFlag then { r.setStatus .paused with loops := r.loops - 1 }
        else { r.conclude .cancelled with loops := r.loops - 1 }
      else r
  | .giveUp => if 0 < r.loops then { r.setStatus .paused with loops := r.loops - 1 } else r
  | .finish ok =>
      if 0 < r.loops then
        { r.conclude (if ok then .completed else .failed) with loops := r.loops - 1 }
      else r
  | .deposit =>
      if 0 < r.loops then
        { r.setStatus .deposited with
          loops := r.loops - 1, watchers := r.watchers + 1, asked := false }
      else r
  | .pickedUp =>
      if 0 < r.watchers then { r.conclude .completed with watchers := r.watchers - 1 } else r
  | .expired => if 0 < r.watchers then { r.conclude .failed with watchers := r.watchers - 1 } else r
  | .unknown => { r with watchers := r.watchers - 1 }
  | .pause =>
      if r.status.live then
        { r with pauseFlag := true, tokenCancelled := r.tokenCancelled || r.token }
      else r
  | .cancelLook =>
      match r.status with
      | .completed | .failed | .cancelled => r
      | .paused => { r with cancelsPaused := r.cancelsPaused + 1 }
      | .deposited => { r with withdrawals := r.withdrawals + 1, asked := true }
      | .active | .preparing | .waiting => { r with cancelsLive := r.cancelsLive + 1 }
  | .cancelLive =>
      if 0 < r.cancelsLive then
        let r := { r with cancelsLive := r.cancelsLive - 1 }
        if r.token then { r with tokenCancelled := true } else r.conclude .cancelled
      else r
  | .cancelPaused =>
      if 0 < r.cancelsPaused then
        { r.conclude .cancelled with cancelsPaused := r.cancelsPaused - 1 }
      else r
  | .withdrawn =>
      if 0 < r.withdrawals then
        { r.conclude .cancelled with withdrawals := r.withdrawals - 1 }
      else r
  | .resumeLook => if r.status = .paused then { r with resumes := r.resumes + 1 } else r
  | .resumeAct =>
      if 0 < r.resumes then
        { r with
          resumes := r.resumes - 1, pauseFlag := false, token := true, tokenCancelled := false
          status := .active, loops := r.loops + 1 }
      else r

abbrev run (es : List RowEvent) : TransferRow := es.foldl step {}

/-- A run in which the row, once it is over, stays as it is, and one event says so. -/
def Final (es : List RowEvent) : Prop :=
  (∀ n, (run (es.take n)).status.terminal → (run es).status = (run (es.take n)).status) ∧
    (run es).ended.length ≤ 1

/-- A step that meets the row as whoever takes it believes it to be. The watcher
reaches no verdict once a cancel has been asked for, and no second cancel is asked
for while one withdraws the file. A call of `cancel` that saw a task finds its
token, unless the task has paused the row and nobody else is about to act on that.
Of the calls that see a row paused only one acts on it. -/
def Calm : RowEvent → Prop
  | .pickedUp | .expired => r.asked = false
  | .cancelLook =>
      (r.status = .deposited → r.asked = false) ∧
        (r.status = .paused → r.cancelsPaused = 0 ∧ r.resumes = 0)
  | .cancelLive => r.token ∨ r.status = .paused ∧ r.cancelsPaused = 0 ∧ r.resumes = 0
  | .resumeLook => r.cancelsPaused = 0 ∧ r.resumes = 0
  | _ => True

instance (e : RowEvent) : Decidable (r.Calm e) := by
  cases e <;> unfold Calm <;> infer_instance

/-! ### Calm runs

At every moment of a calm run one party holds the row, and nobody else will write it. -/

/-- No cancel, resume or withdrawal is on its way that would write the row. -/
def Quiet : Prop := r.cancelsPaused = 0 ∧ r.resumes = 0 ∧ r.withdrawals = 0

structure Starting : Prop where
  quiet : r.Quiet
  starting : r.starting = true
  status : r.status.live
  loops : r.loops = 0
  token : r.token = false
  watchers : r.watchers = 0
  ended : r.ended = []

structure Running : Prop where
  quiet : r.Quiet
  starting : r.starting = false
  status : r.status.live
  loops : r.loops = 1
  token : r.token = true
  watchers : r.watchers = 0
  ended : r.ended = []

/-- Nobody but the one call that saw it paused, if there is one. -/
structure Paused : Prop where
  starting : r.starting = false
  status : r.status = .paused
  loops : r.loops = 0
  token : r.token = false
  watchers : r.watchers = 0
  calls : r.cancelsPaused + r.resumes ≤ 1
  withdrawals : r.withdrawals = 0
  ended : r.ended = []

/-- The watcher, or the withdrawal that was asked for. -/
structure Deposited : Prop where
  starting : r.starting = false
  status : r.status = .deposited
  loops : r.loops = 0
  token : r.token = false
  watchers : r.watchers ≤ 1
  cancelsPaused : r.cancelsPaused = 0
  resumes : r.resumes = 0
  withdrawals : r.withdrawals = if r.asked then 1 else 0
  ended : r.ended = []

/-- Nobody; a watcher that still looks on has been asked to hold its peace. -/
structure Over : Prop where
  quiet : r.Quiet
  starting : r.starting = false
  status : r.status.terminal
  loops : r.loops = 0
  token : r.token = false
  watchers : 0 < r.watchers → r.asked = true
  ended : r.ended.length = 1

inductive Inv : Prop
  | starting (h : r.Starting)
  | running (h : r.Running)
  | paused (h : r.Paused)
  | deposited (h : r.Deposited)
  | settled (h : r.Over)

section Steps

variable {r : TransferRow} {e : RowEvent}

theorem Starting.step (h : r.Starting) (hcalm : r.Calm e) : (r.step e).Inv := by
  obtain ⟨hquiet, hstarting, hstatus, hloops, htoken, hwatchers, hended⟩ := h
  have hne : r.status ≠ .paused := by
    intro he
    simp [he, RowStatus.live] at hstatus
  cases e
  case start => exact .running (by constructor <;> grind [TransferRow.step, Quiet])
  case cancelLive =>
    -- There is no token to find yet.
    simp [Calm, htoken, hne] at hcalm
  all_goals
    exact .starting (by constructor <;> grind [TransferRow.step, RowStatus.live, Quiet])

theorem Running.step (h : r.Running) : (r.step e).Inv := by
  obtain ⟨hquiet, hstarting, hstatus, hloops, htoken, hwatchers, hended⟩ := h
  cases e
  case stop =>
    simp only [TransferRow.step]
    split_ifs
    · exact .paused (by constructor <;> grind [setStatus, Quiet])
    · exact .settled (by constructor <;> grind [setStatus, conclude, RowStatus.terminal, Quiet])
    · exact .running ⟨hquiet, hstarting, hstatus, hloops, htoken, hwatchers, hended⟩
  case giveUp =>
    exact .paused (by constructor <;> grind [TransferRow.step, setStatus, Quiet])
  case finish ok =>
    exact .settled (by
      constructor <;> grind [TransferRow.step, setStatus, conclude, RowStatus.terminal, Quiet])
  case deposit =>
    exact .deposited (by constructor <;> grind [TransferRow.step, setStatus, Quiet])
  all_goals
    exact .running (by constructor <;> grind [TransferRow.step, RowStatus.live, Quiet])

theorem Paused.step (h : r.Paused) (hcalm : r.Calm e) : (r.step e).Inv := by
  have hkeep := h
  obtain ⟨hstarting, hstatus, hloops, htoken, hwatchers, hcalls, hwithdrawals, hended⟩ := h
  cases e
  case cancelLive =>
    simp only [TransferRow.step, htoken, Bool.false_eq_true, if_false]
    split_ifs with hc
    · have hcalls : r.cancelsPaused = 0 ∧ r.resumes = 0 := by simpa [Calm, htoken, hstatus] using hcalm
      exact .settled (by constructor <;> grind [setStatus, conclude, RowStatus.terminal, Quiet])
    · exact .paused hkeep
  case cancelPaused =>
    simp only [TransferRow.step]
    split_ifs
    · exact .settled (by constructor <;> grind [setStatus, conclude, RowStatus.terminal, Quiet])
    · exact .paused hkeep
  case resumeAct =>
    simp only [TransferRow.step]
    split_ifs
    · exact .running (by constructor <;> grind [RowStatus.live, Quiet])
    · exact .paused hkeep
  all_goals
    exact .paused (by constructor <;> grind [TransferRow.step, RowStatus.live, Calm])

theorem Deposited.step (h : r.Deposited) (hcalm : r.Calm e) : (r.step e).Inv := by
  have hkeep := h
  obtain ⟨hstarting, hstatus, hloops, htoken, hwatchers, hpaused, hresumes, hwithdrawals, hended⟩ := h
  cases e
  case pickedUp =>
    simp only [TransferRow.step]
    split_ifs
    · exact .settled (by constructor <;> grind [setStatus, conclude, RowStatus.terminal, Quiet, Calm])
    · exact .deposited hkeep
  case expired =>
    simp only [TransferRow.step]
    split_ifs
    · exact .settled (by constructor <;> grind [setStatus, conclude, RowStatus.terminal, Quiet, Calm])
    · exact .deposited hkeep
  case withdrawn =>
    simp only [TransferRow.step]
    split_ifs
    · exact .settled (by constructor <;> grind [setStatus, conclude, RowStatus.terminal, Quiet])
    · exact .deposited hkeep
  case cancelLive =>
    simp [Calm, htoken, hstatus] at hcalm
  all_goals
    exact .deposited (by constructor <;> grind [TransferRow.step, RowStatus.live, Calm])

/-- Whoever might still write has gone, or keeps still. -/
theorem Over.step (h : r.Over) (hcalm : r.Calm e) :
    (r.step e).Over ∧ (r.step e).status = r.status := by
  obtain ⟨hquiet, hstarting, hstatus, hloops, htoken, hwatchers, hended⟩ := h
  have hnot : r.status.live = false ∧ r.status ≠ .paused ∧ r.status ≠ .deposited := by
    revert hstatus
    cases r.status <;> simp [RowStatus.terminal, RowStatus.live]
  cases e
  case cancelLive => simp [Calm, htoken, hnot] at hcalm
  case cancelLook =>
    have hsame : r.step .cancelLook = r := by
      revert hstatus
      unfold TransferRow.step
      cases r.status <;> simp [RowStatus.terminal]
    rw [hsame]
    exact ⟨⟨hquiet, hstarting, hstatus, hloops, htoken, hwatchers, hended⟩, rfl⟩
  all_goals
    refine ⟨?_, by grind [TransferRow.step, Quiet, Calm]⟩
    constructor <;> grind [TransferRow.step, Quiet, Calm]

theorem Inv.step (h : r.Inv) (hcalm : r.Calm e) : (r.step e).Inv := by
  cases h with
  | starting h => exact h.step hcalm
  | running h => exact h.step
  | paused h => exact h.step hcalm
  | deposited h => exact h.step hcalm
  | settled h => exact .settled (h.step hcalm).1

/-- A row that is over is held by nobody. -/
theorem Inv.over_of_terminal (h : r.Inv) (hstatus : r.status.terminal) : r.Over := by
  have hlive (hl : r.status.live) : False := by
    revert hl hstatus
    cases r.status <;> simp [RowStatus.terminal, RowStatus.live]
  cases h with
  | starting h => exact (hlive h.status).elim
  | running h => exact (hlive h.status).elim
  | paused h => simp [h.status, RowStatus.terminal] at hstatus
  | deposited h => simp [h.status, RowStatus.terminal] at hstatus
  | settled h => exact h

theorem Inv.length_ended (h : r.Inv) : r.ended.length ≤ 1 := by
  cases h with
  | starting h => simp [h.ended]
  | running h => simp [h.ended]
  | paused h => simp [h.ended]
  | deposited h => simp [h.ended]
  | settled h => exact h.ended.le

/-- From a row that is over on, nothing changes it. -/
theorem Over.foldl {es : List RowEvent} (h : r.Over) (hcalm : Along TransferRow.step Calm r es) :
    (es.foldl TransferRow.step r).status = r.status := by
  induction es generalizing r with
  | nil => rfl
  | cons e es ih =>
      obtain ⟨hover, hsame⟩ := h.step hcalm.1
      exact (ih hover hcalm.2).trans hsame

end Steps

theorem inv_start : Inv {} :=
  .starting ⟨⟨rfl, rfl, rfl⟩, rfl, rfl, rfl, rfl, rfl, rfl⟩

/-- A transfer whose steps are all calm has one end, and it is final. -/
theorem final_of_calm (es : List RowEvent) (hcalm : Along step Calm {} es) : Final es := by
  have hinv {es : List RowEvent} (hcalm : Along step Calm {} es) : (run es).Inv :=
    hcalm.foldl_inv Inv (fun _ _ hr hc => hr.step hc) inv_start
  refine ⟨fun n hstatus => ?_, (hinv hcalm).length_ended⟩
  have hover := (hinv (hcalm.take n)).over_of_terminal hstatus
  have hrest := hover.foldl (hcalm.drop n)
  rwa [← List.foldl_append, List.take_append_drop] at hrest

/-- Left on the relay, given up by its watcher, and then withdrawn. -/
def cancelledRun : List RowEvent := [.start, .deposit, .unknown, .cancelLook, .withdrawn]

theorem cancelledRun_final : (run cancelledRun).status = .cancelled ∧ Final cancelledRun :=
  ⟨by decide, final_of_calm cancelledRun (by decide)⟩

/-- The watcher finds the blob gone that a cancel has withdrawn, and takes it to have
been picked up. -/
theorem not_final : ¬ ∀ es : List RowEvent, Final es := by
  intro h
  have hsame := (h [.start, .deposit, .cancelLook, .withdrawn, .pickedUp]).1 4 (by decide)
  revert hsame
  decide

end TransferRow

end Arvolo.Manager
