import Arvolo.Lib.Table
import Arvolo.Manager.Row

/-!
The list of the transfers, and the handles by which they are stopped: `core/src/manager`.

The rows are in one map and the tokens in another, and what keeps them in step is that whoever
ends a task goes through `set_status`. What may be dropped from the list is spelled out in each
function anew. The functions are taken one after the other here.
-/

namespace Arvolo.Manager

open Lib

/-- A task that runs for a row, with the token it was given. A pickup from a mailbox does not
wait on it: it looks when it has the file. -/
structure RunningTask where
  id : ℕ
  token : ℕ
  waits : Bool
  deriving DecidableEq

structure Board where
  rows : Table ℕ RowStatus := ∅
  cancels : Table ℕ ℕ := ∅
  tasks : List RunningTask := []
  /-- The tokens that were cancelled. -/
  signalled : List ℕ := []
  /-- The rows whose pickup is watched, and those that are being withdrawn. -/
  watched : List ℕ := []
  withdrawn : List ℕ := []
  nextId : ℕ := 1
  nextToken : ℕ := 0

def maxFinishedRetained : ℕ := 512

/-- `prune_finished`. The rows are those of the list, with as much of them as is looked at. -/
def pruneFinished {α : Type} (terminal : α → Bool) (rows : Table ℕ α) (keep : ℕ) : Table ℕ α :=
  let finished := rows.keysWhere terminal
  if finished.length ≤ keep then rows
  else
    ((finished.mergeSort fun a b => decide (a ≤ b)).take (finished.length - keep)).foldl
      (fun rows id => rows.erase id) rows

/-- What `clear_finished` keeps. -/
def RowStatus.kept : RowStatus → Bool
  | .active | .deposited | .waiting | .paused => true
  | _ => false

inductive BoardEvent
  /-- A row, and the task that goes with it. -/
  | register (waits : Bool)
  /-- A row that is brought back as it was, with no task. -/
  | restore (st : RowStatus)
  | adopt (st : RowStatus)
  /-- The task says where it is. -/
  | report (id : ℕ) (st : RowStatus)
  | settle (id : ℕ) (st : RowStatus)
  /-- What the watcher of a pickup concludes. -/
  | conclude (id : ℕ) (st : RowStatus)
  | withdraw (id : ℕ)
  | pause (id : ℕ)
  | resume (id : ℕ) (waits : Bool)
  | cancel (id : ℕ)
  | clearFinished
  | remove (id : ℕ)
  deriving DecidableEq

namespace Board

variable (s : Board)

def setStatusLive (id : ℕ) (st : RowStatus) : Board :=
  { s with rows := if s.rows.lookup id = none then s.rows else s.rows.insert id st }

def setStatus (id : ℕ) (st : RowStatus) : Board :=
  { s.setStatusLive id st with cancels := s.cancels.erase id }

/-- `register`. Its caller is handed the token. -/
def register : Board :=
  { s with
    rows :=
      pruneFinished RowStatus.terminal (s.rows.insert s.nextId .active) maxFinishedRetained
    cancels := s.cancels.insert s.nextId s.nextToken
    nextId := s.nextId + 1
    nextToken := s.nextToken + 1 }

def spawn (t : RunningTask) : Board := { s with tasks := t :: s.tasks }

/-- A row comes back: its token goes, and it is paused, or watched, or over. -/
def restore (st : RowStatus) : Board :=
  let id := s.nextId
  let s := s.register.setStatus id st
  if st = .deposited then { s with watched := id :: s.watched } else s

def adoptFinished (st : RowStatus) : Board :=
  if st.terminal then
    { s with
      rows := pruneFinished RowStatus.terminal (s.rows.insert s.nextId st) maxFinishedRetained
      nextId := s.nextId + 1 }
  else s

/-- The task of the row ends, and says how. -/
def settle (id : ℕ) (st : RowStatus) : Board :=
  let s := { s.setStatus id st with tasks := s.tasks.filter fun t => !decide (t.id = id) }
  if st = .deposited then { s with watched := id :: s.watched } else s

def pause (id : ℕ) : Board :=
  match s.rows.lookup id, s.cancels.lookup id with
  | some st, some token => if st.live then { s with signalled := token :: s.signalled } else s
  | _, _ => s

def resume (id : ℕ) (waits : Bool) : Board :=
  if s.rows.lookup id = some .paused then
    { { s with cancels := s.cancels.insert id s.nextToken }.setStatusLive id .active with
      tasks := ⟨id, s.nextToken, waits⟩ :: s.tasks
      nextToken := s.nextToken + 1 }
  else s

def cancel (id : ℕ) : Board :=
  match s.rows.lookup id with
  | none => s
  | some st =>
      match st with
      | .completed | .cancelled | .failed => s
      | .paused => s.setStatus id .cancelled
      | .deposited => { s with withdrawn := id :: s.withdrawn }
      | .active | .preparing | .waiting =>
          match s.cancels.lookup id with
          | some token => { s with signalled := token :: s.signalled }
          | none => s.setStatus id .cancelled

def clearFinished : Board :=
  { s with
    rows := (s.rows.keysWhere fun st => !st.kept).foldl (fun rows id => rows.erase id) s.rows }

def remove (id : ℕ) : Board :=
  match s.rows.lookup id with
  | some st => if st.terminal then { s with rows := s.rows.erase id } else s
  | none => s

def step (s : Board) : BoardEvent → Board
  | .register waits => s.register.spawn ⟨s.nextId, s.nextToken, waits⟩
  | .restore st => if st.live then s else s.restore st
  | .adopt st => s.adoptFinished st
  | .report id st =>
      if st.live ∧ ∃ t ∈ s.tasks, t.id = id then s.setStatusLive id st else s
  | .settle id st =>
      if st.live = false ∧ ∃ t ∈ s.tasks, t.id = id then s.settle id st else s
  | .conclude id st =>
      if st.terminal ∧ id ∈ s.watched then
        { s.setStatus id st with watched := s.watched.erase id }
      else s
  | .withdraw id =>
      if id ∈ s.withdrawn then
        { s.setStatus id .cancelled with withdrawn := s.withdrawn.erase id }
      else s
  | .pause id => s.pause id
  | .resume id waits => s.resume id waits
  | .cancel id => s.cancel id
  | .clearFinished => s.clearFinished
  | .remove id => s.remove id

/-! ### What a step may do -/

/-- The row is over, or is being withdrawn, or the task that runs for it waits on a token that
was cancelled. -/
def Stops (s' : Board) (id : ℕ) : Prop :=
  s'.rows.lookup id = some .cancelled ∨ id ∈ s'.withdrawn ∨
    ∃ t ∈ s'.tasks, t.id = id ∧ t.waits = true ∧ t.token ∈ s'.signalled

/-- A row leaves the list only when it is over, and a cancel of one that is not stops it. -/
def Sound (s : Board) (e : BoardEvent) : Prop :=
  (∀ id st, s.rows.lookup id = some st → (s.step e).rows.lookup id = none → st.terminal = true) ∧
    ∀ id st, e = .cancel id → s.rows.lookup id = some st → st.terminal = false →
      (s.step e).Stops id

/-- The list is cleared while no row prepares, and what is cancelled is no mailbox pickup. -/
def Calm (s : Board) : BoardEvent → Prop
  | .clearFinished => ∀ id, s.rows.lookup id ≠ some .preparing
  | .cancel id => s.rows.lookup id ≠ none → ∀ t ∈ s.tasks, t.id = id → t.waits = true
  | _ => True

/-! ### The rows -/

variable {s}

theorem lookup_setStatusLive (id : ℕ) (st : RowStatus) (k : ℕ) :
    (s.setStatusLive id st).rows.lookup k =
      if k = id ∧ s.rows.lookup id ≠ none then some st else s.rows.lookup k := by
  unfold setStatusLive
  by_cases hnone : s.rows.lookup id = none
  · simp [hnone]
  · simp only [if_neg hnone, Table.lookup_insert_eq]
    by_cases hk : k = id
    · simp [hk, hnone]
    · simp [hk]

/-- A prune takes nothing but what is over. -/
theorem lookup_pruneFinished {α : Type} (terminal : α → Bool) (rows : Table ℕ α) (keep k : ℕ) :
    (pruneFinished terminal rows keep).lookup k = rows.lookup k ∨
      (pruneFinished terminal rows keep).lookup k = none ∧
        ∃ a, rows.lookup k = some a ∧ terminal a = true := by
  simp only [pruneFinished]
  split_ifs
  · exact .inl rfl
  · rw [Table.lookup_foldl_erase]
    split_ifs with hdrop
    · have hfinished := List.mem_of_mem_take hdrop
      rw [List.mem_mergeSort, Table.mem_keysWhere] at hfinished
      exact .inr ⟨rfl, hfinished⟩
    · exact .inl rfl

theorem of_lookup_pruneFinished {α : Type} {terminal : α → Bool} {rows : Table ℕ α} {keep k : ℕ}
    {a : α} (h : (pruneFinished terminal rows keep).lookup k = some a) :
    rows.lookup k = some a := by
  rcases lookup_pruneFinished terminal rows keep k with hsame | ⟨hnone, -⟩
  · exact hsame.symm.trans h
  · exact absurd (hnone.symm.trans h) (by simp)

theorem lookup_clearFinished (k : ℕ) :
    s.clearFinished.rows.lookup k = (s.rows.lookup k).filter RowStatus.kept := by
  rw [clearFinished, Table.lookup_foldl_erase]
  cases hrow : s.rows.lookup k with
  | none => simp
  | some st =>
      by_cases hkept : st.kept = true
      · rw [if_neg, Option.filter_some, if_pos hkept]
        intro hmem
        obtain ⟨st', hst', hdrop⟩ := Table.mem_keysWhere.1 hmem
        obtain rfl := Option.some.inj (hrow.symm.trans hst')
        simp [hkept] at hdrop
      · rw [if_pos (Table.mem_keysWhere.2 ⟨st, hrow, by simpa using hkept⟩), Option.filter_some,
          if_neg hkept]

theorem lookup_remove {k : ℕ} {st : RowStatus} (h : s.rows.lookup k = some st) (id : ℕ) :
    (s.remove id).rows.lookup k = some st ∨
      (s.remove id).rows.lookup k = none ∧ st.terminal = true := by
  unfold remove
  split
  next st' hid =>
    split_ifs with hover
    · rw [Table.lookup_erase_eq]
      split_ifs with hk
      · subst hk
        obtain rfl := Option.some.inj (h.symm.trans hid)
        exact .inr ⟨rfl, hover⟩
      · exact .inl h
    · exact .inl h
  next => exact .inl h

/-! ### What is true throughout -/

/-- A token is that of the task that runs; the row of a task is live, and one that is watched or
withdrawn is neither live nor held. -/
structure Inv (s : Board) : Prop where
  token : ∀ id n, s.cancels.lookup id = some n → ∃ t ∈ s.tasks, t.id = id ∧ t.token = n
  task : ∀ t ∈ s.tasks, s.cancels.lookup t.id = some t.token ∧
    ∀ st, s.rows.lookup t.id = some st → st.live = true
  unique : ∀ t ∈ s.tasks, ∀ t' ∈ s.tasks, t.id = t'.id → t = t'
  idle : ∀ id, id ∈ s.watched ∨ id ∈ s.withdrawn → (∀ t ∈ s.tasks, t.id ≠ id) ∧
    ∀ st, s.rows.lookup id = some st → st.live = false ∧ st ≠ .paused
  fresh : ∀ id, s.nextId ≤ id → s.rows.lookup id = none ∧ (∀ t ∈ s.tasks, t.id ≠ id) ∧
    id ∉ s.watched ∧ id ∉ s.withdrawn

theorem inv_start : ({} : Board).Inv where
  token id _ h := absurd ((AList.lookup_empty id).symm.trans h) (by simp)
  task _ h := absurd h List.not_mem_nil
  unique _ h := absurd h List.not_mem_nil
  idle _ h := absurd h (not_or.2 ⟨List.not_mem_nil, List.not_mem_nil⟩)
  fresh _ _ := ⟨rfl, fun _ h => absurd h List.not_mem_nil, List.not_mem_nil, List.not_mem_nil⟩

/-- Rows leave the list, and parties their posts. -/
theorem Inv.fewer (h : s.Inv) {rows : Table ℕ RowStatus} {watched withdrawn signalled : List ℕ}
    (hrows : ∀ k st, rows.lookup k = some st → s.rows.lookup k = some st)
    (hwatched : ∀ id ∈ watched, id ∈ s.watched) (hwithdrawn : ∀ id ∈ withdrawn, id ∈ s.withdrawn) :
    ({ s with rows, watched, withdrawn, signalled } : Board).Inv where
  token := h.token
  task t ht := ⟨(h.task t ht).1, fun st hst => (h.task t ht).2 st (hrows _ _ hst)⟩
  unique := h.unique
  idle id hid := by
    obtain ⟨htasks, hstatus⟩ := h.idle id (hid.imp (hwatched id) (hwithdrawn id))
    exact ⟨htasks, fun st hst => hstatus st (hrows _ _ hst)⟩
  fresh id hid := by
    obtain ⟨hrow, htasks, hnot, hnot'⟩ := h.fresh id hid
    refine ⟨?_, htasks, fun hmem => hnot (hwatched id hmem), fun hmem => hnot' (hwithdrawn id hmem)⟩
    by_contra hsome
    obtain ⟨st, hst⟩ := Option.ne_none_iff_exists'.1 hsome
    exact absurd (hrow.symm.trans (hrows id st hst)) (by simp)

/-- A party takes up its post for a row that no task runs for. -/
theorem Inv.post (h : s.Inv) {i : ℕ} {watched withdrawn : List ℕ}
    (htasks : ∀ t ∈ s.tasks, t.id ≠ i) (hid : i < s.nextId)
    (hst : ∀ st, s.rows.lookup i = some st → st.live = false ∧ st ≠ .paused)
    (hwatched : ∀ k ∈ watched, k ∈ s.watched ∨ k = i)
    (hwithdrawn : ∀ k ∈ withdrawn, k ∈ s.withdrawn ∨ k = i) :
    ({ s with watched, withdrawn } : Board).Inv where
  token := h.token
  task := h.task
  unique := h.unique
  idle k hk := by
    by_cases heq : k = i
    · exact heq ▸ ⟨htasks, hst⟩
    · exact h.idle k (hk.imp (fun hmem => (hwatched k hmem).resolve_right heq)
        fun hmem => (hwithdrawn k hmem).resolve_right heq)
  fresh k hk := by
    have hne : k ≠ i := (hid.trans_le hk).ne'
    obtain ⟨hrow, hnone, hnot, hnot'⟩ := h.fresh k hk
    exact ⟨hrow, hnone, fun hmem => (hwatched k hmem).elim hnot hne,
      fun hmem => (hwithdrawn k hmem).elim hnot' hne⟩

/-- The row is written to, and its task is gone. -/
theorem Inv.ended (h : s.Inv) {id : ℕ} {st : RowStatus}
    (hst : id ∈ s.watched ∨ id ∈ s.withdrawn → st.live = false ∧ st ≠ .paused) :
    ({ s.setStatus id st with
        tasks := s.tasks.filter fun t => !decide (t.id = id) } : Board).Inv where
  token k n hk := by
    rw [Board.setStatus, Table.lookup_erase_eq] at hk
    split_ifs at hk with hne
    obtain ⟨t, ht, rfl, htoken⟩ := h.token k n hk
    exact ⟨t, List.mem_filter.2 ⟨ht, by simpa using hne⟩, rfl, htoken⟩
  task t ht := by
    obtain ⟨hmem, hkeep⟩ := List.mem_filter.1 ht
    have hne : t.id ≠ id := by simpa using hkeep
    obtain ⟨htoken, hlive⟩ := h.task t hmem
    refine ⟨?_, fun st' hst' => hlive st' ?_⟩
    · rw [Board.setStatus, Table.lookup_erase_eq, if_neg hne]
      exact htoken
    · rwa [Board.setStatus, lookup_setStatusLive, if_neg fun hid => hne hid.1] at hst'
  unique t ht t' ht' := h.unique t (List.mem_of_mem_filter ht) t' (List.mem_of_mem_filter ht')
  idle k hk := by
    obtain ⟨hnone, hstatus⟩ := h.idle k hk
    refine ⟨fun t ht => hnone t (List.mem_of_mem_filter ht), fun st' hst' => ?_⟩
    rw [Board.setStatus, lookup_setStatusLive] at hst'
    split_ifs at hst' with hid
    · obtain rfl := Option.some.inj hst'
      exact hst (hid.1 ▸ hk)
    · exact hstatus st' hst'
  fresh k hk := by
    obtain ⟨hrow, hnone, hrest⟩ := h.fresh k hk
    refine ⟨?_, fun t ht => hnone t (List.mem_of_mem_filter ht), hrest⟩
    rw [Board.setStatus, lookup_setStatusLive, if_neg]
    · exact hrow
    · rintro ⟨rfl, hsome⟩
      exact hsome hrow

/-- The row of no task is written to. -/
theorem Inv.setStatus (h : s.Inv) {id : ℕ} {st : RowStatus} (htasks : ∀ t ∈ s.tasks, t.id ≠ id)
    (hst : id ∈ s.watched ∨ id ∈ s.withdrawn → st.live = false ∧ st ≠ .paused) :
    (s.setStatus id st).Inv := by
  have hsame : (s.tasks.filter fun t => !decide (t.id = id)) = s.tasks :=
    List.filter_eq_self.2 fun t ht => by simpa using htasks t ht
  have hended := h.ended hst
  rw [hsame] at hended
  exact hended

theorem Inv.report (h : s.Inv) {id : ℕ} {st : RowStatus} (hlive : st.live = true)
    (htask : ∃ t ∈ s.tasks, t.id = id) : (s.setStatusLive id st).Inv where
  token := h.token
  task t ht := by
    obtain ⟨htoken, hrow⟩ := h.task t ht
    refine ⟨htoken, fun st' hst' => ?_⟩
    rw [lookup_setStatusLive] at hst'
    split_ifs at hst' with hid
    · exact Option.some.inj hst' ▸ hlive
    · exact hrow st' hst'
  unique := h.unique
  idle k hk := by
    obtain ⟨hnone, hstatus⟩ := h.idle k hk
    refine ⟨hnone, fun st' hst' => hstatus st' ?_⟩
    obtain ⟨t, ht, htid⟩ := htask
    rwa [lookup_setStatusLive, if_neg fun hid => hnone t ht (htid.trans hid.1.symm)] at hst'
  fresh k hk := by
    obtain ⟨hrow, hrest⟩ := h.fresh k hk
    refine ⟨?_, hrest⟩
    rw [lookup_setStatusLive, if_neg]
    · exact hrow
    · rintro ⟨rfl, hsome⟩
      exact hsome hrow

/-- A new row, at the next id, that no task runs for. -/
theorem Inv.append (h : s.Inv) {rows : Table ℕ RowStatus} {cancels : Table ℕ ℕ}
    {watched : List ℕ} {n : ℕ}
    (hrows : ∀ k st, rows.lookup k = some st → k ≠ s.nextId → s.rows.lookup k = some st)
    (hnew : ∀ st, rows.lookup s.nextId = some st → s.nextId ∈ watched →
      st.live = false ∧ st ≠ .paused)
    (hcancels : ∀ k, cancels.lookup k = s.cancels.lookup k)
    (hwatched : ∀ id ∈ watched, id ∈ s.watched ∨ id = s.nextId) :
    ({ s with rows, cancels, watched, nextId := s.nextId + 1, nextToken := n } : Board).Inv := by
  have hfresh := h.fresh s.nextId le_rfl
  refine ⟨fun k m hk => h.token k m ((hcancels k).symm.trans hk), fun t ht => ?_, h.unique,
    fun k hk => ?_, fun k hk => ?_⟩
  · obtain ⟨htoken, hlive⟩ := h.task t ht
    exact ⟨(hcancels t.id).trans htoken,
      fun st hst => hlive st (hrows _ _ hst (hfresh.2.1 t ht))⟩
  · by_cases hid : k = s.nextId
    · subst hid
      refine ⟨hfresh.2.1, fun st hst => hnew st hst (hk.resolve_right hfresh.2.2.2)⟩
    · have hold : k ∈ s.watched ∨ k ∈ s.withdrawn :=
        hk.imp_left fun hmem => (hwatched k hmem).resolve_right hid
      exact ⟨(h.idle k hold).1, fun st hst => (h.idle k hold).2 st (hrows _ _ hst hid)⟩
  · have hlt : s.nextId < k := hk
    obtain ⟨hrow, htasks, hnot, hnot'⟩ := h.fresh k hlt.le
    refine ⟨?_, htasks, fun hmem => ?_, hnot'⟩
    · by_contra hsome
      obtain ⟨st, hst⟩ := Option.ne_none_iff_exists'.1 hsome
      exact absurd (hrow.symm.trans (hrows k st hst hlt.ne')) (by simp)
    · exact (hwatched k hmem).elim hnot hlt.ne'

/-- A row that no task runs for gets one, with a token of its own. -/
theorem Inv.run (h : s.Inv) {t : RunningTask} {rows : Table ℕ RowStatus} {n : ℕ} {nextId : ℕ}
    (hrows : ∀ k st, rows.lookup k = some st → k ≠ t.id → s.rows.lookup k = some st)
    (hlive : ∀ st, rows.lookup t.id = some st → st.live = true)
    (htasks : ∀ t' ∈ s.tasks, t'.id ≠ t.id) (hidle : t.id ∉ s.watched ∧ t.id ∉ s.withdrawn)
    (hid : t.id < nextId) (hle : s.nextId ≤ nextId) :
    ({ s with
        rows, nextId, nextToken := n
        cancels := s.cancels.insert t.id t.token
        tasks := t :: s.tasks } : Board).Inv := by
  refine ⟨fun k m hk => ?_, fun t' ht' => ?_, fun t₁ h₁ t₂ h₂ heq => ?_, fun k hk => ?_,
    fun k hk => ?_⟩
  · rw [Table.lookup_insert_eq] at hk
    split_ifs at hk with heq
    · exact ⟨t, List.mem_cons_self, heq.symm, Option.some.inj hk⟩
    · obtain ⟨t', ht', hids⟩ := h.token k m hk
      exact ⟨t', List.mem_cons_of_mem _ ht', hids⟩
  · rw [Table.lookup_insert_eq]
    rcases List.mem_cons.1 ht' with rfl | hmem
    · exact ⟨if_pos rfl, hlive⟩
    · have hne := htasks t' hmem
      rw [if_neg hne]
      exact ⟨(h.task t' hmem).1, fun st hst => (h.task t' hmem).2 st (hrows _ _ hst hne)⟩
  · rcases List.mem_cons.1 h₁ with rfl | hold <;> rcases List.mem_cons.1 h₂ with rfl | hold'
    · rfl
    · exact absurd heq.symm (htasks t₂ hold')
    · exact absurd heq (htasks t₁ hold)
    · exact h.unique t₁ hold t₂ hold' heq
  · have hne : k ≠ t.id := by
      rintro rfl
      exact hk.elim hidle.1 hidle.2
    obtain ⟨hnone, hstatus⟩ := h.idle k hk
    refine ⟨fun t' ht' => ?_, fun st hst => hstatus st (hrows _ _ hst hne)⟩
    rcases List.mem_cons.1 ht' with rfl | hmem
    · exact hne.symm
    · exact hnone t' hmem
  · have hlt : nextId ≤ k := hk
    have hne : k ≠ t.id := by omega
    obtain ⟨hrow, hnone, hrest⟩ := h.fresh k (hle.trans hlt)
    refine ⟨?_, fun t' ht' => ?_, hrest⟩
    · by_contra hsome
      obtain ⟨st, hst⟩ := Option.ne_none_iff_exists'.1 hsome
      exact absurd (hrow.symm.trans (hrows k st hst hne)) (by simp)
    · rcases List.mem_cons.1 ht' with rfl | hmem
      · exact hne.symm
      · exact hnone t' hmem

theorem Inv.register (h : s.Inv) (waits : Bool) : (s.step (.register waits)).Inv := by
  have hfresh := h.fresh s.nextId le_rfl
  refine Inv.run h (t := ⟨s.nextId, s.nextToken, waits⟩) (fun k st hst hne => ?_) (fun st hst => ?_)
    hfresh.2.1 hfresh.2.2 (Nat.lt_succ_self _) (Nat.le_succ _)
  · have hins := of_lookup_pruneFinished hst
    rwa [Table.lookup_insert_eq, if_neg hne] at hins
  · have hins := of_lookup_pruneFinished hst
    rw [Table.lookup_insert_eq, if_pos rfl] at hins
    exact Option.some.inj hins ▸ rfl

theorem lookup_restored {st st' : RowStatus} {k : ℕ}
    (h : (s.register.setStatus s.nextId st).rows.lookup k = some st') :
    k = s.nextId ∧ st' = st ∨ k ≠ s.nextId ∧ s.rows.lookup k = some st' := by
  rw [Board.setStatus, lookup_setStatusLive] at h
  by_cases hk : k = s.nextId
  · refine .inl ⟨hk, ?_⟩
    split_ifs at h with hthere
    · exact (Option.some.inj h).symm
    · subst hk
      exact absurd ⟨rfl, by simp [h]⟩ hthere
  · rw [if_neg fun hid => hk hid.1] at h
    have hins := of_lookup_pruneFinished h
    rw [Table.lookup_insert_eq, if_neg hk] at hins
    exact .inr ⟨hk, hins⟩

theorem Inv.restore (h : s.Inv) {st : RowStatus} (hst : st.live = false) :
    (s.step (.restore st)).Inv := by
  have hfresh := h.fresh s.nextId le_rfl
  have hcancels : ∀ k,
      (s.register.setStatus s.nextId st).cancels.lookup k = s.cancels.lookup k := by
    intro k
    rw [Board.setStatus, Table.lookup_erase_eq]
    by_cases hk : k = s.nextId
    · subst hk
      rw [if_pos rfl]
      by_contra hsome
      obtain ⟨n, hn⟩ := Option.ne_none_iff_exists'.1 (Ne.symm hsome)
      obtain ⟨t, ht, htid, -⟩ := h.token _ n hn
      exact hfresh.2.1 t ht htid
    · exact (if_neg hk).trans ((Table.lookup_insert_eq _ _ _ _).trans (if_neg hk))
  have hrows : ∀ k st', (s.register.setStatus s.nextId st).rows.lookup k = some st' →
      k ≠ s.nextId → s.rows.lookup k = some st' := fun k st' hk hne =>
    (lookup_restored hk).elim (fun hnew => absurd hnew.1 hne) And.right
  have hstep : s.step (.restore st) = s.restore st := if_neg (by simp [hst])
  rw [hstep]
  unfold Board.restore
  split_ifs with hdep
  · refine Inv.append h hrows (fun st' hst' _ => ?_) hcancels fun id hid => ?_
    · obtain rfl := ((lookup_restored hst').resolve_right fun hold => hold.1 rfl).2
      exact ⟨hst, by simp [hdep]⟩
    · exact (List.mem_cons.1 hid).symm
  · exact Inv.append h hrows (fun _ _ hmem => absurd hmem hfresh.2.2.1) hcancels
      fun id hid => .inl hid

theorem Inv.adopt (h : s.Inv) (st : RowStatus) : (s.step (.adopt st)).Inv := by
  have hfresh := h.fresh s.nextId le_rfl
  change (s.adoptFinished st).Inv
  unfold adoptFinished
  split_ifs
  · refine Inv.append h (fun k st' hst hne => ?_) (fun _ _ hmem => absurd hmem hfresh.2.2.1)
      (fun _ => rfl) fun id hid => .inl hid
    have hins := of_lookup_pruneFinished hst
    rwa [Table.lookup_insert_eq, if_neg hne] at hins
  · exact h

theorem Inv.settle (h : s.Inv) {id : ℕ} {st : RowStatus} (hst : st.live = false)
    (htask : ∃ t ∈ s.tasks, t.id = id) : (s.settle id st).Inv := by
  obtain ⟨t, ht, rfl⟩ := htask
  have hidle : ¬ (t.id ∈ s.watched ∨ t.id ∈ s.withdrawn) := fun hid => (h.idle _ hid).1 t ht rfl
  have hended : ({ s.setStatus t.id st with
      tasks := s.tasks.filter fun t' => !decide (t'.id = t.id) } : Board).Inv :=
    h.ended fun hid => absurd hid hidle
  unfold Board.settle
  split_ifs with hdep
  · refine hended.post (i := t.id) (fun t' ht' => ?_) ?_ (fun st' hst' => ?_)
      (fun k hk => (List.mem_cons.1 hk).symm) fun k hk => .inl hk
    · simpa using (List.mem_filter.1 ht').2
    · by_contra hge
      exact (h.fresh t.id (not_lt.1 hge)).2.1 t ht rfl
    · rw [Board.setStatus, lookup_setStatusLive] at hst'
      split_ifs at hst' with hid
      · exact Option.some.inj hst' ▸ ⟨hst, by simp [hdep]⟩
      · have hnone : s.rows.lookup t.id = none := by
          by_contra hsome
          exact hid ⟨rfl, hsome⟩
        exact absurd (hnone.symm.trans hst') (by simp)
  · exact hended

theorem Inv.resume (h : s.Inv) (id : ℕ) (waits : Bool) : (s.resume id waits).Inv := by
  unfold Board.resume
  split_ifs with hpaused
  · have hnone : ∀ t ∈ s.tasks, t.id ≠ id := by
      rintro t ht rfl
      exact absurd ((h.task t ht).2 _ hpaused) (by decide)
    have hidle : id ∉ s.watched ∧ id ∉ s.withdrawn :=
      not_or.1 fun hid => ((h.idle id hid).2 _ hpaused).2 rfl
    have hlt : id < s.nextId := by
      by_contra hge
      exact absurd ((h.fresh id (not_lt.1 hge)).1.symm.trans hpaused) (by simp)
    refine Inv.run h (t := ⟨id, s.nextToken, waits⟩) (fun k st hst hne => ?_) (fun st hst => ?_)
      hnone hidle hlt le_rfl
    · have hset : (s.setStatusLive id .active).rows.lookup k = some st := hst
      rwa [lookup_setStatusLive, if_neg fun hid => hne hid.1] at hset
    · have hset : (s.setStatusLive id .active).rows.lookup id = some st := hst
      rw [lookup_setStatusLive, if_pos ⟨rfl, by simp [hpaused]⟩] at hset
      exact Option.some.inj hset ▸ rfl
  · exact h

theorem Inv.cancel (h : s.Inv) (id : ℕ) : (s.cancel id).Inv := by
  unfold Board.cancel
  split
  next => exact h
  next st hrow =>
    have hidle : st.live = false → ∀ t ∈ s.tasks, t.id ≠ id := by
      rintro hdead t ht rfl
      exact absurd ((h.task t ht).2 st hrow) (by simp [hdead])
    have hcancelled : id ∈ s.watched ∨ id ∈ s.withdrawn →
        RowStatus.cancelled.live = false ∧ RowStatus.cancelled ≠ .paused := fun _ => by decide
    cases st with
    | completed | cancelled | failed => exact h
    | paused => exact h.setStatus (hidle rfl) hcancelled
    | deposited =>
        refine h.post (hidle rfl) ?_ (fun st hst => ?_) (fun k hk => .inl hk)
          fun k hk => (List.mem_cons.1 hk).symm
        · by_contra hge
          exact absurd ((h.fresh id (not_lt.1 hge)).1.symm.trans hrow) (by simp)
        · obtain rfl := Option.some.inj (hrow.symm.trans hst)
          decide
    | active | preparing | waiting =>
        dsimp only
        split
        · exact h.fewer (fun _ _ hk => hk) (fun _ hk => hk) fun _ hk => hk
        · next hnone =>
            refine h.setStatus ?_ hcancelled
            rintro t ht rfl
            exact absurd (hnone.symm.trans (h.task t ht).1) (by simp)

theorem Inv.step (h : s.Inv) (e : BoardEvent) : (s.step e).Inv := by
  cases e with
  | register waits => exact h.register waits
  | restore st =>
      by_cases hlive : st.live = true
      · have hstay : s.step (.restore st) = s := if_pos hlive
        rw [hstay]
        exact h
      · exact h.restore (Bool.eq_false_iff.2 hlive)
  | adopt st => exact h.adopt st
  | report id st =>
      simp only [Board.step]
      split_ifs with hgo
      · exact h.report hgo.1 hgo.2
      · exact h
  | settle id st =>
      simp only [Board.step]
      split_ifs with hgo
      · exact h.settle hgo.1 hgo.2
      · exact h
  | conclude id st =>
      simp only [Board.step]
      split_ifs with hgo
      · have hover : st.live = false ∧ st ≠ .paused := by
          cases st <;> simp_all [RowStatus.terminal, RowStatus.live]
        have hset := h.setStatus (h.idle id (.inl hgo.2)).1 fun _ => hover
        exact hset.fewer (fun _ _ hk => hk) (fun _ hk => List.mem_of_mem_erase hk) fun _ hk => hk
      · exact h
  | withdraw id =>
      simp only [Board.step]
      split_ifs with hgo
      · have hset : (s.setStatus id .cancelled).Inv :=
          h.setStatus (h.idle id (.inr hgo)).1 fun _ => by decide
        exact hset.fewer (fun _ _ hk => hk) (fun _ hk => hk) fun _ hk => List.mem_of_mem_erase hk
      · exact h
  | pause id =>
      simp only [Board.step, Board.pause]
      split
      · split_ifs
        · exact h.fewer (fun _ _ hk => hk) (fun _ hk => hk) fun _ hk => hk
        · exact h
      · exact h
  | resume id waits => exact h.resume id waits
  | cancel id => exact h.cancel id
  | clearFinished =>
      refine h.fewer (fun k st hk => ?_) (fun _ hk => hk) fun _ hk => hk
      have hkept := lookup_clearFinished (s := s) k
      rw [show s.clearFinished.rows.lookup k = some st from hk] at hkept
      exact (Option.filter_eq_some_iff.1 hkept.symm).1
  | remove id =>
      simp only [Board.step, Board.remove]
      split
      · split_ifs
        · refine h.fewer (fun k st hk => ?_) (fun _ hk => hk) fun _ hk => hk
          rw [Table.lookup_erase_eq] at hk
          split_ifs at hk
          exact hk
        · exact h
      · exact h

/-! ### What each step drops -/

theorem setStatusLive_ne_none {id k : ℕ} {st : RowStatus} (h : s.rows.lookup k ≠ none) :
    (s.setStatusLive id st).rows.lookup k ≠ none := by
  rw [lookup_setStatusLive]
  split_ifs
  · simp
  · exact h

/-- A new row may push out rows that are over. -/
theorem Inv.terminal_of_pruned (h : s.Inv) {k : ℕ} {st new : RowStatus}
    (hrow : s.rows.lookup k = some st)
    (hnone : (pruneFinished RowStatus.terminal (s.rows.insert s.nextId new)
      maxFinishedRetained).lookup k = none) : st.terminal = true := by
  have hne : k ≠ s.nextId := by
    rintro rfl
    exact absurd ((h.fresh _ le_rfl).1.symm.trans hrow) (by simp)
  have hins : (s.rows.insert s.nextId new).lookup k = some st := by
    rw [Table.lookup_insert_eq, if_neg hne]
    exact hrow
  rcases lookup_pruneFinished RowStatus.terminal (s.rows.insert s.nextId new)
    maxFinishedRetained k with hsame | ⟨-, st', hst', hover⟩
  · exact absurd (hnone.symm.trans (hsame.trans hins)) (by simp)
  · exact Option.some.inj (hst'.symm.trans hins) ▸ hover

/-- But for a row that prepares when the list is cleared, only what is over leaves the list. -/
theorem Inv.terminal_of_dropped (h : s.Inv) {e : BoardEvent} {id : ℕ} {st : RowStatus}
    (hrow : s.rows.lookup id = some st) (hnone : (s.step e).rows.lookup id = none)
    (hcalm : e = .clearFinished → st ≠ .preparing) : st.terminal = true := by
  have hsome : s.rows.lookup id ≠ none := by simp [hrow]
  by_contra hgoes
  refine absurd hnone ?_
  cases e with
  | register waits => exact fun hdrop => hgoes (h.terminal_of_pruned hrow hdrop)
  | restore new =>
      have hregister : s.register.rows.lookup id ≠ none :=
        fun hdrop => hgoes (h.terminal_of_pruned hrow hdrop)
      simp only [Board.step, Board.restore]
      split_ifs
      · exact hsome
      · exact setStatusLive_ne_none hregister
      · exact setStatusLive_ne_none hregister
  | adopt new =>
      simp only [Board.step, adoptFinished]
      split_ifs
      · exact fun hdrop => hgoes (h.terminal_of_pruned hrow hdrop)
      · exact hsome
  | report id' new =>
      simp only [Board.step]
      split_ifs
      · exact setStatusLive_ne_none hsome
      · exact hsome
  | settle id' new =>
      simp only [Board.step, Board.settle]
      split_ifs
      · exact setStatusLive_ne_none hsome
      · exact setStatusLive_ne_none hsome
      · exact hsome
  | conclude id' new =>
      simp only [Board.step]
      split_ifs
      · exact setStatusLive_ne_none hsome
      · exact hsome
  | withdraw id' =>
      simp only [Board.step]
      split_ifs
      · exact setStatusLive_ne_none hsome
      · exact hsome
  | pause id' =>
      simp only [Board.step, Board.pause]
      split
      · split_ifs <;> exact hsome
      · exact hsome
  | resume id' waits =>
      simp only [Board.step, Board.resume]
      split_ifs
      · exact setStatusLive_ne_none (s := { s with cancels := _ }) hsome
      · exact hsome
  | cancel id' =>
      simp only [Board.step, Board.cancel]
      split
      · exact hsome
      next st' _ =>
        cases st' with
        | completed | cancelled | failed | deposited => exact hsome
        | paused => exact setStatusLive_ne_none hsome
        | active | preparing | waiting =>
            dsimp only
            split
            · exact hsome
            · exact setStatusLive_ne_none hsome
  | clearFinished =>
      have hkept : st.kept = true := by
        have hlive := hcalm rfl
        cases st <;> simp_all [RowStatus.terminal, RowStatus.kept]
      have hfilter := lookup_clearFinished (s := s) id
      rw [hrow, Option.filter_some, if_pos hkept] at hfilter
      exact hfilter.trans_ne (by simp)
  | remove id' =>
      rcases lookup_remove hrow id' with hsame | ⟨-, hover⟩
      · exact hsame.trans_ne (by simp)
      · exact absurd hover hgoes

/-! ### A cancel -/

theorem Inv.stops_iff (h : s.Inv) {id : ℕ} {st : RowStatus} (hrow : s.rows.lookup id = some st)
    (hgoes : st.terminal = false) :
    (s.cancel id).Stops id ↔ ∀ t ∈ s.tasks, t.id = id → t.waits = true := by
  have hidle : st.live = false → ∀ t ∈ s.tasks, t.id = id → t.waits = true := by
    rintro hdead t ht rfl
    exact absurd ((h.task t ht).2 st hrow) (by simp [hdead])
  unfold Board.cancel
  rw [hrow]
  cases st with
  | completed | cancelled | failed => exact absurd hgoes (by decide)
  | paused =>
      refine iff_of_true (.inl ?_) (hidle rfl)
      exact (lookup_setStatusLive id .cancelled id).trans (if_pos ⟨rfl, by simp [hrow]⟩)
  | deposited => exact iff_of_true (.inr (.inl List.mem_cons_self)) (hidle rfl)
  | active | preparing | waiting =>
      dsimp only
      split
      · next token htoken =>
          constructor
          · rintro (hover | hpost | ⟨t, ht, hid, hwaits, -⟩) t' ht' hid'
            · exact absurd (hrow.symm.trans hover) (by simp)
            · exact absurd hid' ((h.idle id (.inr hpost)).1 t' ht')
            · exact h.unique t ht t' ht' (hid.trans hid'.symm) ▸ hwaits
          · intro hwaits
            obtain ⟨t, ht, hid, heq⟩ := h.token id token htoken
            exact .inr (.inr ⟨t, ht, hid, hwaits t ht hid, heq ▸ List.mem_cons_self⟩)
      · next hnone =>
          refine iff_of_true (.inl ?_) ?_
          · exact (lookup_setStatusLive id .cancelled id).trans (if_pos ⟨rfl, by simp [hrow]⟩)
          · rintro t ht rfl
            exact absurd (hnone.symm.trans (h.task t ht).1) (by simp)

theorem Inv.sound_iff (h : s.Inv) (e : BoardEvent) : s.Sound e ↔ s.Calm e := by
  constructor
  · rintro ⟨hdrops, hstops⟩
    cases e with
    | clearFinished =>
        intro id hrow
        have hdropped : s.clearFinished.rows.lookup id = none := by
          rw [lookup_clearFinished, hrow]
          rfl
        exact absurd (hdrops id _ hrow hdropped) (by decide)
    | cancel id =>
        intro hsome t ht hid
        obtain ⟨st, hrow⟩ := Option.ne_none_iff_exists'.1 hsome
        have hgoes : st.terminal = false := by
          have hlive := (h.task t ht).2 st (hid ▸ hrow)
          cases st <;> simp_all [RowStatus.live, RowStatus.terminal]
        exact (h.stops_iff hrow hgoes).1 (hstops id st rfl hrow hgoes) t ht hid
    | _ => trivial
  · intro hcalm
    refine ⟨fun id st hrow hnone => h.terminal_of_dropped hrow hnone ?_, ?_⟩
    · rintro rfl rfl
      exact hcalm id hrow
    · rintro id st rfl hrow hgoes
      exact (h.stops_iff hrow hgoes).2 (hcalm (by simp [hrow]))

/-- Over every run, from the empty list: live rows stay and can be stopped exactly if the list is
never cleared while a row prepares, and no pickup from a mailbox is cancelled. -/
theorem sound_along_iff (es : List BoardEvent) :
    Along Board.step Board.Sound {} es ↔ Along Board.step Board.Calm {} es := by
  constructor <;> intro h
  · exact h.imp Inv (fun s e _ hinv _ => hinv.step e) (fun s e _ hinv => (hinv.sound_iff e).1)
      inv_start
  · exact h.imp Inv (fun s e _ hinv _ => hinv.step e) (fun s e _ hinv => (hinv.sound_iff e).2)
      inv_start

/-- A share that is being prepared leaves the list while its task runs. -/
theorem not_sound_preparing :
    ¬ ∀ es, Along Board.step Board.Sound {} es := by
  intro h
  have hclear := (h [.register true, .report 1 .preparing, .clearFinished]).2.2.1.1 1 .preparing
  exact absurd (hclear rfl rfl) (by decide)

end Board

end Arvolo.Manager
