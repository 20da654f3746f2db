import Arvolo.Manager.Board
import Arvolo.Relay.Inbox

/-!
The log of the transfers that ended, and the list that is rebuilt from it: `engine/src/history.rs`
and the two requests of `daemon.rs` that take rows off the list.

Where the engine ends with its window, the list is rebuilt from the log at every start. A row and
a record have no id in common, so that a row taken off the list is looked up in the log by what it
looks like, and the record that is found is marked.
-/

namespace Arvolo.Engine

open Lib Manager

inductive Direction
  | send
  | recv
  deriving DecidableEq

def Direction.word : Direction → String
  | .send => "send"
  | .recv => "recv"

structure HistoryRecord where
  id : String
  direction : String
  peerId : Option String
  name : String
  totalSize : ℕ
  transferred : ℕ
  status : String
  /-- When the record was written. -/
  created : ℕ
  path : Option String
  savedUri : Option String
  hidden : Bool
  failCode : String
  deriving DecidableEq

/-- A row of the list. The peer is spelled as its id is in a record. -/
structure HistoryRow where
  direction : Direction
  peer : Option String
  name : String
  totalSize : ℕ
  transferred : ℕ
  status : RowStatus
  /-- Why it failed, where it did. -/
  reason : String
  /-- When the row came up, or its record was written. -/
  created : ℕ
  path : Option String
  savedUri : Option String
  failCode : String
  /-- The ids of the records that were written for it, or that it was rebuilt from. -/
  own : List String
  deriving DecidableEq

namespace HistoryRow

variable (t : HistoryRow)

def record (id status : String) (now : ℕ) : HistoryRecord where
  id := id
  direction := t.direction.word
  peerId := t.peer
  name := t.name
  totalSize := t.totalSize
  transferred := t.transferred
  status := status
  created := now
  path := t.path
  savedUri := t.savedUri
  hidden := false
  failCode := t.failCode

/-- What `hide` looks for. -/
def looksLike (r : HistoryRecord) : Bool :=
  !r.hidden && r.direction == t.direction.word && r.name == t.name && r.totalSize == t.totalSize &&
    decide ((r.created - t.created) + (t.created - r.created) ≤ 60)

end HistoryRow

namespace HistoryRecord

variable (r : HistoryRecord)

/-- The status of the row that is rebuilt, and the reason that goes with it. -/
def rowStatus : RowStatus × String :=
  if r.status = "completed" then (.completed, "")
  else if r.status = "cancelled" then (.cancelled, "")
  else (.failed, (Relay.stripPrefix "failed: " r.status).getD r.status)

def restored : HistoryRow where
  direction := if r.direction = "send" then .send else .recv
  peer := r.peerId
  name := r.name
  totalSize := r.totalSize
  transferred := r.transferred
  status := r.rowStatus.1
  reason := r.rowStatus.2
  created := r.created
  path := r.path
  savedUri := r.savedUri
  failCode := ""
  own := [r.id]

end HistoryRecord

/-- `list`: the records of the directory, newest first. -/
def newestFirst (dir : List HistoryRecord) : List HistoryRecord :=
  dir.mergeSort fun r r' => decide (r'.created ≤ r.created)

/-- The file of that id is written over. -/
def writeRecord (r : HistoryRecord) (log : List HistoryRecord) : List HistoryRecord :=
  if ∃ r' ∈ log, r'.id = r.id then log.map fun r' => if r'.id = r.id then r else r' else r :: log

/-- `hide`, with the directory as it is read. -/
def hide (t : HistoryRow) (dir log : List HistoryRecord) : List HistoryRecord :=
  match (newestFirst dir).find? t.looksLike with
  | some r => writeRecord { r with hidden := true } log
  | none => log

structure History where
  log : List HistoryRecord := []
  board : Table ℕ HistoryRow := ∅
  nextId : ℕ := 1
  /-- The rows that were taken off the list, and are yet to be looked up in the log. -/
  going : List HistoryRow := []
  /-- The records of all rows that were taken off the list by hand. -/
  gone : List String := []

inductive HistoryEvent
  | begins (t : HistoryRow)
  /-- The row is written to. -/
  | becomes (id : ℕ) (t : HistoryRow)
  /-- Something ended, and is logged. -/
  | logged (id : ℕ) (status recordId : String) (now : ℕ)
  | remove (id : ℕ)
  | clearFinished
  /-- The next of the rows that were taken off the list is looked up. -/
  | file (dir : List HistoryRecord)
  | restart (limit : ℕ) (dir : List HistoryRecord)
  deriving DecidableEq

namespace History

variable (s : History)

def finished (t : HistoryRow) : Bool := t.status.terminal

def insertRow (t : HistoryRow) : History :=
  { s with
    board := pruneFinished finished (s.board.insert s.nextId t) maxFinishedRetained
    nextId := s.nextId + 1 }

def adoptFinished (t : HistoryRow) : History := if finished t then s.insertRow t else s

def restoreBoard (limit : ℕ) (dir : List HistoryRecord) : History :=
  (((newestFirst dir).filter fun r => !r.hidden).take limit).reverse.foldl
    (fun s r => s.adoptFinished r.restored) s

def recordTransfer (id : ℕ) (status recordId : String) (now : ℕ) : History :=
  match s.board.lookup id with
  | some t =>
      { s with
        log := writeRecord (t.record recordId status now) s.log
        board := s.board.insert id { t with own := recordId :: t.own } }
  | none => s

/-- The rows that are over, newest first, as they were when the sweep began. -/
def sweep : List HistoryRow :=
  ((s.board.keysWhere finished).mergeSort fun a b => decide (b ≤ a)).filterMap s.board.lookup

def take (ts : List HistoryRow) (board : Table ℕ HistoryRow) : History :=
  { s with
    board := board
    going := s.going ++ ts
    gone := ts.flatMap HistoryRow.own ++ s.gone }

def step (s : History) : HistoryEvent → History
  | .begins t => s.insertRow { t with status := .active, own := [] }
  | .becomes id t =>
      match s.board.lookup id with
      | some old => { s with board := s.board.insert id { t with own := old.own } }
      | none => s
  | .logged id status recordId now =>
      if recordId ∈ s.log.map HistoryRecord.id then s
      else s.recordTransfer id status recordId now
  | .remove id =>
      match s.board.lookup id with
      | some t => if finished t then s.take [t] (s.board.erase id) else s
      | none => s
  | .clearFinished =>
      s.take s.sweep ((s.board.keysWhere fun t => !t.status.kept).foldl
        (fun rows id => rows.erase id) s.board)
  | .file dir =>
      match s.going with
      | t :: going =>
          if dir.Perm s.log then { s with log := hide t dir s.log, going := going } else s
      | [] => s
  | .restart limit dir =>
      if dir.Perm s.log then
        restoreBoard { s with board := ∅, nextId := 1, going := [] } limit dir
      else s

/-- No row that was taken off the list is on it, and no other is hidden. -/
def Faithful (s : History) : Prop :=
  (∀ id t, s.board.lookup id = some t → ∀ x ∈ t.own, x ∉ s.gone) ∧
    ∀ r ∈ s.log, r.hidden = true → r.id ∈ s.gone

/-- Of the records that are shown, those of the row are the newest of those that look like it: it
alone, or none if none does. -/
def Told (dir : List HistoryRecord) (t : HistoryRow) : Prop :=
  ((newestFirst dir).filter fun r => !r.hidden && decide (r.id ∈ t.own)) =
    ((newestFirst dir).filter t.looksLike).take 1

/-- Every row taken off the list is told by its looks, and is looked up before the engine ends. -/
def Clear (s : History) : HistoryEvent → Prop
  | .file dir => ∀ t ∈ s.going.head?, dir.Perm s.log → Told dir t
  | .restart _ dir => dir.Perm s.log → s.going = []
  | _ => True

/-! ### What is true throughout -/

structure Inv (s : History) : Prop where
  hid : ∀ r ∈ s.log, r.hidden = true → r.id ∈ s.gone
  owed : ∀ r ∈ s.log, r.hidden = false → r.id ∈ s.gone → ∃ t ∈ s.going, r.id ∈ t.own
  kept : ∀ k t, s.board.lookup k = some t → ∀ x ∈ t.own, x ∉ s.gone
  apart : ∀ k k' t t', s.board.lookup k = some t → s.board.lookup k' = some t' →
    ∀ x ∈ t.own, x ∈ t'.own → k = k'
  logged : ∀ k t, s.board.lookup k = some t → ∀ x ∈ t.own, x ∈ s.log.map HistoryRecord.id
  known : ∀ x ∈ s.gone, x ∈ s.log.map HistoryRecord.id
  queued : ∀ t ∈ s.going, ∀ x ∈ t.own, x ∈ s.gone
  nodup : (s.log.map HistoryRecord.id).Nodup

variable {s}

theorem inv_start : ({} : History).Inv where
  hid _ h := absurd h List.not_mem_nil
  owed _ h := absurd h List.not_mem_nil
  kept k _ h := absurd ((AList.lookup_empty k).symm.trans h) (by simp)
  apart k _ _ _ h := absurd ((AList.lookup_empty k).symm.trans h) (by simp)
  logged k _ h := absurd ((AList.lookup_empty k).symm.trans h) (by simp)
  known _ h := absurd h List.not_mem_nil
  queued _ h := absurd h List.not_mem_nil
  nodup := List.nodup_nil

theorem Inv.faithful (h : s.Inv) : s.Faithful := ⟨h.kept, h.hid⟩

/-- Rows leave the list, or are written to. -/
theorem Inv.rows (h : s.Inv) {board : Table ℕ HistoryRow} {n : ℕ}
    (hboard : ∀ k t, board.lookup k = some t → ∃ t₀, s.board.lookup k = some t₀ ∧ t.own = t₀.own) :
    ({ s with board, nextId := n } : History).Inv where
  hid := h.hid
  owed := h.owed
  kept k t hk := by
    obtain ⟨t₀, hrow, hown⟩ := hboard k t hk
    exact hown ▸ h.kept k t₀ hrow
  apart k k' t t' hk hk' := by
    obtain ⟨t₀, hrow, hown⟩ := hboard k t hk
    obtain ⟨t₀', hrow', hown'⟩ := hboard k' t' hk'
    rw [hown, hown']
    exact h.apart k k' t₀ t₀' hrow hrow'
  logged k t hk := by
    obtain ⟨t₀, hrow, hown⟩ := hboard k t hk
    exact hown ▸ h.logged k t₀ hrow
  known := h.known
  queued := h.queued
  nodup := h.nodup

/-- A row comes up with records of its own, that are on no other row. -/
theorem Inv.insert (h : s.Inv) {id : ℕ} {t : HistoryRow}
    (hnew : ∀ x ∈ t.own, x ∉ s.gone ∧ x ∈ s.log.map HistoryRecord.id ∧
      ∀ k t', s.board.lookup k = some t' → k ≠ id → x ∉ t'.own) :
    ({ s with board := s.board.insert id t } : History).Inv where
  hid := h.hid
  owed := h.owed
  kept k t' hk := by
    rw [Table.lookup_insert_eq] at hk
    split_ifs at hk
    · exact Option.some.inj hk ▸ fun x hx => (hnew x hx).1
    · exact h.kept k t' hk
  apart k k' t₁ t₂ hk hk' x hx hx' := by
    rw [Table.lookup_insert_eq] at hk hk'
    split_ifs at hk hk' with heq heq' heq'
    · exact heq.trans heq'.symm
    · obtain rfl := Option.some.inj hk
      exact absurd hx' ((hnew x hx).2.2 k' t₂ hk' heq')
    · obtain rfl := Option.some.inj hk'
      exact absurd hx ((hnew x hx').2.2 k t₁ hk heq)
    · exact h.apart k k' t₁ t₂ hk hk' x hx hx'
  logged k t' hk := by
    rw [Table.lookup_insert_eq] at hk
    split_ifs at hk
    · exact Option.some.inj hk ▸ fun x hx => (hnew x hx).2.1
    · exact h.logged k t' hk
  known := h.known
  queued := h.queued
  nodup := h.nodup

theorem Inv.insertRow (h : s.Inv) {t : HistoryRow}
    (hnew : ∀ x ∈ t.own, x ∉ s.gone ∧ x ∈ s.log.map HistoryRecord.id ∧
      ∀ k t', s.board.lookup k = some t' → x ∉ t'.own) : (s.insertRow t).Inv := by
  have hinserted : ({ s with board := s.board.insert s.nextId t } : History).Inv :=
    h.insert fun x hx => ⟨(hnew x hx).1, (hnew x hx).2.1, fun k t' hk _ => (hnew x hx).2.2 k t' hk⟩
  exact hinserted.rows fun k t' hk => ⟨t', Board.of_lookup_pruneFinished hk, rfl⟩

/-- Rows are taken off the list. -/
theorem Inv.take (h : s.Inv) {ts : List HistoryRow} {board : Table ℕ HistoryRow}
    (hts : ∀ t ∈ ts, ∃ k, s.board.lookup k = some t ∧ board.lookup k = none)
    (hboard : ∀ k t, board.lookup k = some t → s.board.lookup k = some t) :
    (s.take ts board).Inv := by
  have hgone : ∀ x, x ∈ (s.take ts board).gone ↔ (∃ t ∈ ts, x ∈ t.own) ∨ x ∈ s.gone := by
    simp [History.take]
  refine ⟨fun r hr hhid => (hgone _).2 (.inr (h.hid r hr hhid)), fun r hr hshown hmem => ?_,
    fun k t hk x hx hmem => ?_, fun k k' t t' hk hk' => h.apart k k' t t' (hboard k t hk)
      (hboard k' t' hk'), fun k t hk => h.logged k t (hboard k t hk), fun x hx => ?_,
    fun t ht x hx => ?_, h.nodup⟩
  · rcases (hgone _).1 hmem with ⟨t, ht, hx⟩ | hold
    · exact ⟨t, List.mem_append_right _ ht, hx⟩
    · obtain ⟨t, ht, hx⟩ := h.owed r hr hshown hold
      exact ⟨t, List.mem_append_left _ ht, hx⟩
  · rcases (hgone x).1 hmem with ⟨t', ht', hx'⟩ | hold
    · obtain ⟨k', hrow, hnone⟩ := hts t' ht'
      obtain rfl := h.apart k k' t t' (hboard k t hk) hrow x hx hx'
      exact absurd (hnone.symm.trans hk) (by simp)
    · exact h.kept k t (hboard k t hk) x hx hold
  · rcases (hgone x).1 hx with ⟨t, ht, hown⟩ | hold
    · obtain ⟨k, hrow, -⟩ := hts t ht
      exact h.logged k t hrow x hown
    · exact h.known x hold
  · rcases List.mem_append.1 ht with hold | hnew
    · exact (hgone x).2 (.inr (h.queued t hold x hx))
    · exact (hgone x).2 (.inl ⟨t, hnew, hx⟩)

theorem Inv.recordTransfer (h : s.Inv) {id : ℕ} {status recordId : String} {now : ℕ}
    (hfresh : recordId ∉ s.log.map HistoryRecord.id) :
    (s.recordTransfer id status recordId now).Inv := by
  unfold History.recordTransfer
  split
  next t hrow =>
    have hgone : recordId ∉ s.gone := fun hmem => hfresh (h.known recordId hmem)
    have hwrite : writeRecord (t.record recordId status now) s.log =
        t.record recordId status now :: s.log := by
      refine if_neg ?_
      rintro ⟨r, hr, hid⟩
      exact hfresh (List.mem_map.2 ⟨r, hr, hid⟩)
    have hlogged : ({ s with log := t.record recordId status now :: s.log } : History).Inv := by
      refine ⟨fun r hr hhid => ?_, fun r hr hshown hmem => ?_, h.kept, h.apart,
        fun k t' hk x hx => List.mem_cons_of_mem _ (h.logged k t' hk x hx),
        fun x hx => List.mem_cons_of_mem _ (h.known x hx), h.queued,
        List.nodup_cons.2 ⟨hfresh, h.nodup⟩⟩
      · rcases List.mem_cons.1 hr with rfl | hold
        · exact absurd hhid Bool.false_ne_true
        · exact h.hid r hold hhid
      · rcases List.mem_cons.1 hr with rfl | hold
        · exact absurd hmem hgone
        · exact h.owed r hold hshown hmem
    rw [hwrite]
    refine hlogged.insert fun x hx => ?_
    rcases List.mem_cons.1 hx with rfl | hold
    · exact ⟨hgone, List.mem_cons_self, fun k t' hk _ hx' => hfresh (h.logged k t' hk _ hx')⟩
    · exact ⟨h.kept id t hrow x hold, List.mem_cons_of_mem _ (h.logged id t hrow x hold),
        fun k t' hk hne hx' => hne (h.apart k id t' t hk hrow x hx' hold)⟩
  next => exact h

theorem Inv.remove (h : s.Inv) (id : ℕ) : (s.step (.remove id)).Inv := by
  simp only [History.step]
  split
  next t hrow =>
    split_ifs
    · refine h.take (fun t' ht' => ⟨id, ?_, ?_⟩) fun k t' hk => ?_
      · exact List.mem_singleton.1 ht' ▸ hrow
      · rw [Table.lookup_erase_eq, if_pos rfl]
      · rw [Table.lookup_erase_eq] at hk
        split_ifs at hk
        exact hk
    · exact h
  next => exact h

theorem Inv.clearFinished (h : s.Inv) : (s.step .clearFinished).Inv := by
  refine h.take (fun t ht => ?_) fun k t hk => ?_
  · obtain ⟨id, hid, hrow⟩ := List.mem_filterMap.1 ht
    rw [List.mem_mergeSort] at hid
    obtain ⟨t', hrow', hover⟩ := Table.mem_keysWhere.1 hid
    refine ⟨id, hrow, ?_⟩
    rw [Table.lookup_foldl_erase, if_pos]
    refine Table.mem_keysWhere.2 ⟨t', hrow', ?_⟩
    unfold finished at hover
    cases hst : t'.status <;> simp_all [RowStatus.terminal, RowStatus.kept]
  · rw [Table.lookup_foldl_erase] at hk
    split_ifs at hk
    exact hk

theorem mem_newestFirst {dir : List HistoryRecord} (hdir : dir.Perm s.log) {r : HistoryRecord} :
    r ∈ newestFirst dir ↔ r ∈ s.log := by
  rw [newestFirst, List.mem_mergeSort, hdir.mem_iff]

theorem Inv.nodup_newestFirst (h : s.Inv) {dir : List HistoryRecord} (hdir : dir.Perm s.log) :
    ((newestFirst dir).map HistoryRecord.id).Nodup :=
  (((List.mergeSort_perm _ _).trans hdir).map _).nodup_iff.2 h.nodup

theorem take_one_filter {p : HistoryRecord → Bool} {rs : List HistoryRecord} {r : HistoryRecord}
    (h : rs.find? p = some r) : (rs.filter p).take 1 = [r] := by
  rw [← List.head?_filter] at h
  cases hlist : rs.filter p with
  | nil => simp [hlist] at h
  | cons r' rs' => simpa [hlist] using h

/-- The record that is found is marked, and no other is touched. -/
theorem hide_of_find {dir log : List HistoryRecord} {t : HistoryRow} {r : HistoryRecord}
    (hfind : (newestFirst dir).find? t.looksLike = some r) (hmem : r ∈ log) :
    hide t dir log = log.map fun r' => if r'.id = r.id then { r with hidden := true } else r' := by
  unfold hide
  rw [hfind]
  exact if_pos ⟨r, hmem, rfl⟩

theorem mem_hide_of_find {dir log : List HistoryRecord} {t : HistoryRow} {r r' : HistoryRecord}
    (hfind : (newestFirst dir).find? t.looksLike = some r) (hmem : r ∈ log) :
    r' ∈ hide t dir log ↔ r' = { r with hidden := true } ∨ r' ∈ log ∧ r'.id ≠ r.id := by
  rw [hide_of_find hfind hmem, List.mem_map]
  constructor
  · rintro ⟨r₀, hr₀, rfl⟩
    split_ifs with hid
    · exact .inl rfl
    · exact .inr ⟨hr₀, hid⟩
  · rintro (rfl | ⟨hr', hid⟩)
    · exact ⟨r, hmem, if_pos rfl⟩
    · exact ⟨r', hr', if_neg hid⟩

theorem map_id_hide {dir log : List HistoryRecord} {t : HistoryRow} {r : HistoryRecord}
    (hfind : (newestFirst dir).find? t.looksLike = some r) (hmem : r ∈ log) :
    (hide t dir log).map HistoryRecord.id = log.map HistoryRecord.id := by
  rw [hide_of_find hfind hmem, List.map_map]
  refine List.map_congr_left fun r' _ => ?_
  by_cases hid : r'.id = r.id
  · simp [hid]
  · simp [hid]

/-- A row that is told by its looks is looked up. -/
theorem Inv.file (h : s.Inv) {dir : List HistoryRecord} {t : HistoryRow} {going : List HistoryRow}
    (hgoing : s.going = t :: going) (hdir : dir.Perm s.log) (htold : Told dir t) :
    ({ s with log := hide t dir s.log, going := going } : History).Inv := by
  have hqueued : ∀ t' ∈ going, t' ∈ s.going := fun t' ht' => hgoing ▸ List.mem_cons_of_mem _ ht'
  have hrest : ∀ r ∈ s.log, r.hidden = false → r.id ∈ s.gone → r.id ∉ t.own →
      ∃ t' ∈ going, r.id ∈ t'.own := by
    intro r hr hshown hmem hnot
    obtain ⟨t', ht', hx⟩ := h.owed r hr hshown hmem
    rcases List.mem_cons.1 (hgoing ▸ ht') with rfl | hold
    · exact absurd hx hnot
    · exact ⟨t', hold, hx⟩
  have hown : ∀ r ∈ s.log, r.hidden = false → r.id ∈ t.own →
      (newestFirst dir).find? t.looksLike = some r := by
    intro r hr hshown hx
    have hfilter : r ∈ (newestFirst dir).filter fun r => !r.hidden && decide (r.id ∈ t.own) :=
      List.mem_filter.2 ⟨(mem_newestFirst hdir).2 hr, by simp [hshown, hx]⟩
    rw [htold, ← List.head?_filter] at *
    cases hlist : (newestFirst dir).filter t.looksLike with
    | nil => simp [hlist] at hfilter
    | cons r' rs => simpa [hlist, eq_comm] using hfilter
  cases hfind : (newestFirst dir).find? t.looksLike with
  | none =>
      have hsame : hide t dir s.log = s.log := by
        unfold hide
        rw [hfind]
      rw [hsame]
      refine ⟨h.hid, fun r hr hshown hmem => hrest r hr hshown hmem fun hx => ?_, h.kept, h.apart,
        h.logged, h.known, fun t' ht' => h.queued t' (hqueued t' ht'), h.nodup⟩
      exact absurd (hfind.symm.trans (hown r hr hshown hx)) (by simp)
  | some r =>
      have hmem : r ∈ s.log := (mem_newestFirst hdir).1 (List.mem_of_find?_eq_some hfind)
      have hids := map_id_hide hfind hmem
      have hr : r.id ∈ t.own := by
        have hr : r ∈ (newestFirst dir).filter fun r => !r.hidden && decide (r.id ∈ t.own) := by
          rw [htold, take_one_filter hfind]
          exact List.mem_singleton_self r
        simpa using (Bool.and_eq_true_iff.1 (List.mem_filter.1 hr).2).2
      refine ⟨fun r' hr' hhid => ?_, fun r' hr' hshown hx => ?_, h.kept, h.apart,
        fun k t' hk x hx => hids ▸ h.logged k t' hk x hx, fun x hx => hids ▸ h.known x hx,
        fun t' ht' => h.queued t' (hqueued t' ht'), hids ▸ h.nodup⟩
      · rcases (mem_hide_of_find hfind hmem).1 hr' with rfl | ⟨hold, -⟩
        · exact h.queued t (hgoing ▸ List.mem_cons_self) _ hr
        · exact h.hid r' hold hhid
      · rcases (mem_hide_of_find hfind hmem).1 hr' with rfl | ⟨hold, hne⟩
        · exact absurd hshown (by simp)
        · refine hrest r' hold hshown hx fun hx' => hne ?_
          rw [Option.some.inj ((hown r' hold hshown hx').symm.trans hfind)]

/-- The last row that waits to be looked up is told by its looks exactly if, after that, what is
hidden is what was taken off the list. -/
theorem Inv.told_iff (h : s.Inv) {dir : List HistoryRecord} {t : HistoryRow}
    (hgoing : s.going = [t]) (hdir : dir.Perm s.log) :
    Told dir t ↔ ∀ r ∈ hide t dir s.log, r.hidden = true ↔ r.id ∈ s.gone := by
  constructor
  · intro htold r hr
    have hfiled := h.file hgoing hdir htold
    refine ⟨hfiled.hid r hr, fun hmem => ?_⟩
    by_contra hshown
    obtain ⟨_, hnone, -⟩ := hfiled.owed r hr (by simpa using hshown) hmem
    exact List.not_mem_nil hnone
  · intro hsettled
    have howns : ∀ r ∈ s.log, r.hidden = false → r.id ∈ s.gone → r.id ∈ t.own := by
      intro r hr hshown hmem
      obtain ⟨t', ht', hx⟩ := h.owed r hr hshown hmem
      obtain rfl := List.mem_singleton.1 (hgoing ▸ ht')
      exact hx
    have hqueued : ∀ x ∈ t.own, x ∈ s.gone :=
      h.queued t (hgoing ▸ List.mem_singleton_self t)
    unfold Told
    cases hfind : (newestFirst dir).find? t.looksLike with
    | none =>
        have hlooks : (newestFirst dir).filter t.looksLike = [] :=
          List.filter_eq_nil_iff.2 fun r hr hlook => List.find?_eq_none.1 hfind r hr hlook
        rw [hlooks, List.take_nil, List.filter_eq_nil_iff]
        intro r hr hown
        obtain ⟨hshown, hx⟩ := Bool.and_eq_true_iff.1 hown
        have hlog : r ∈ hide t dir s.log := by
          unfold hide
          rw [hfind]
          exact (mem_newestFirst hdir).1 hr
        have hhid := (hsettled r hlog).2 (hqueued _ (of_decide_eq_true hx))
        simp [hhid] at hshown
    | some r =>
        have hin := List.mem_of_find?_eq_some hfind
        have hmem : r ∈ s.log := (mem_newestFirst hdir).1 hin
        have hlook := List.find?_some hfind
        have hshown : r.hidden = false := by
          simp only [HistoryRow.looksLike, Bool.and_eq_true] at hlook
          simpa using hlook.1.1.1.1
        have hx : r.id ∈ t.own :=
          howns r hmem hshown ((hsettled _ ((mem_hide_of_find hfind hmem).2 (.inl rfl))).1 rfl)
        -- Another record of the row would still be shown.
        have honly : ∀ r' ∈ (newestFirst dir).filter fun r => !r.hidden && decide (r.id ∈ t.own),
            r' = r := by
          intro r' hr'
          obtain ⟨hin', hown⟩ := List.mem_filter.1 hr'
          obtain ⟨hshown', hx'⟩ := Bool.and_eq_true_iff.1 hown
          have hmem' := (mem_newestFirst hdir).1 hin'
          have hid : r'.id = r.id := by
            by_contra hne
            have hhid := (hsettled r' ((mem_hide_of_find hfind hmem).2 (.inr ⟨hmem', hne⟩))).2
              (hqueued _ (of_decide_eq_true hx'))
            simp [hhid] at hshown'
          exact List.inj_on_of_nodup_map h.nodup hmem' hmem hid
        have hids := h.nodup_newestFirst hdir
        rw [take_one_filter hfind]
        refine List.perm_singleton.1 ((List.perm_ext_iff_of_nodup
          ((hids.of_map _).filter _) (List.nodup_singleton r)).2 fun r' => ?_)
        refine ⟨fun hr' => List.mem_singleton.2 (honly r' hr'), fun hr' => ?_⟩
        obtain rfl := List.mem_singleton.1 hr'
        exact List.mem_filter.2 ⟨hin, by simp [hshown, hx]⟩

@[simp] theorem finished_restored (r : HistoryRecord) : finished r.restored = true := by
  simp only [finished, HistoryRecord.restored, HistoryRecord.rowStatus]
  split_ifs <;> rfl

/-- Records that are shown, each once, are put on the list. -/
theorem Inv.adopt (rs : List HistoryRecord) (h : s.Inv) (hgoing : s.going = [])
    (hrs : ∀ r ∈ rs, r ∈ s.log ∧ r.hidden = false) (hnodup : (rs.map HistoryRecord.id).Nodup)
    (hboard : ∀ k t, s.board.lookup k = some t → ∀ r ∈ rs, r.id ∉ t.own) :
    (rs.foldl (fun s r => s.adoptFinished r.restored) s).Inv := by
  induction rs generalizing s with
  | nil => exact h
  | cons r rs ih =>
      obtain ⟨hmem, hshown⟩ := hrs r List.mem_cons_self
      rw [List.map_cons, List.nodup_cons] at hnodup
      have hrow : s.adoptFinished r.restored = s.insertRow r.restored :=
        if_pos (finished_restored r)
      have hgone : r.id ∉ s.gone := by
        intro hmem'
        obtain ⟨t, ht, -⟩ := h.owed r hmem hshown hmem'
        exact List.not_mem_nil (hgoing ▸ ht)
      rw [List.foldl_cons, hrow]
      refine ih (h.insertRow fun x hx => ?_) hgoing
        (fun r' hr' => hrs r' (List.mem_cons_of_mem _ hr')) hnodup.2 fun k t hk r' hr' => ?_
      · obtain rfl := List.mem_singleton.1 hx
        exact ⟨hgone, List.mem_map_of_mem hmem, fun k t' hk => hboard k t' hk r List.mem_cons_self⟩
      · have hins := Board.of_lookup_pruneFinished hk
        rw [Table.lookup_insert_eq] at hins
        split_ifs at hins
        · obtain rfl := Option.some.inj hins
          intro hx
          exact hnodup.1 (List.mem_singleton.1 hx ▸ List.mem_map_of_mem hr')
        · exact hboard k t hins r' (List.mem_cons_of_mem _ hr')

/-- The engine starts anew, with nothing left to be looked up. -/
theorem Inv.restart (h : s.Inv) (limit : ℕ) {dir : List HistoryRecord} (hdir : dir.Perm s.log)
    (hgoing : s.going = []) :
    (restoreBoard { s with board := ∅, nextId := 1, going := [] } limit dir).Inv := by
  have hempty : ({ s with board := ∅, nextId := 1, going := [] } : History).Inv := by
    have hrows : ({ s with board := ∅, nextId := 1 } : History).Inv := h.rows fun k t hk =>
      absurd ((AList.lookup_empty k).symm.trans hk) (by simp)
    rwa [hgoing] at hrows
  refine Inv.adopt _ hempty rfl (fun r hr => ?_) ?_ fun k t hk => ?_
  · have hshown := List.mem_filter.1 (List.mem_of_mem_take (List.mem_reverse.1 hr))
    exact ⟨(mem_newestFirst hdir).1 hshown.1, by simpa using hshown.2⟩
  · have hsorted := h.nodup_newestFirst hdir
    rw [List.map_reverse, List.nodup_reverse]
    exact (((List.take_sublist limit _).trans List.filter_sublist).map _).nodup hsorted
  · exact absurd ((AList.lookup_empty k).symm.trans hk) (by simp)

theorem Inv.step (h : s.Inv) {e : HistoryEvent} (hclear : s.Clear e) : (s.step e).Inv := by
  cases e with
  | begins t => exact h.insertRow fun _ hx => absurd hx List.not_mem_nil
  | becomes id t =>
      simp only [History.step]
      split
      next old hrow =>
        refine h.rows (n := s.nextId) fun k t' hk => ?_
        rw [Table.lookup_insert_eq] at hk
        split_ifs at hk with heq
        · obtain rfl := Option.some.inj hk
          exact ⟨old, heq ▸ hrow, rfl⟩
        · exact ⟨t', hk, rfl⟩
      next => exact h
  | logged id status recordId now =>
      simp only [History.step]
      split_ifs with hknown
      · exact h
      · exact h.recordTransfer hknown
  | remove id => exact h.remove id
  | clearFinished => exact h.clearFinished
  | file dir =>
      simp only [History.step]
      split
      next t going hgoing =>
        split_ifs with hdir
        · exact h.file hgoing hdir (hclear t (by simp [hgoing]) hdir)
        · exact h
      next => exact h
  | restart limit dir =>
      simp only [History.step]
      split_ifs with hdir
      · exact h.restart limit hdir (hclear hdir)
      · exact h

/-- Where every row that is taken off the list is told by its looks, none of them comes back and
nothing else is hidden. -/
theorem faithful_of_clear (es : List HistoryEvent) (h : Along History.step Clear {} es) (n : ℕ) :
    ((es.take n).foldl History.step {}).Faithful :=
  ((h.take n).foldl_inv Inv (fun _ _ hinv hclear => hinv.step hclear) inv_start).faithful

/-- A file that was received. -/
def photo (created : ℕ) (st : RowStatus) : HistoryRow where
  direction := .recv
  peer := none
  name := "photo"
  totalSize := 10
  transferred := 10
  status := st
  reason := ""
  created := created
  path := none
  savedUri := none
  failCode := ""
  own := []

/-- The file that was received is looked up at once, and the engine starts anew. -/
def photoRun (finished : ℕ) : List HistoryEvent :=
  let record := (photo 0 .completed).record "r" "completed" finished
  [.begins (photo 0 .active), .becomes 1 (photo 0 .completed),
    .logged 1 "completed" "r" finished, .remove 1, .file [record]]

theorem told_photo : Told [(photo 0 .completed).record "r" "completed" 60]
    { photo 0 .completed with own := ["r"] } := by
  simp [Told, newestFirst, photo, HistoryRow.record, HistoryRow.looksLike]

theorem faithful_of_clear_photo :
    ((photoRun 60).foldl History.step {}).Faithful := by
  refine faithful_of_clear (photoRun 60) ?_ 5
  refine ⟨trivial, trivial, trivial, trivial, fun t ht _ => ?_, trivial⟩
  obtain rfl := Option.some.inj ht
  exact told_photo

/-- The record of a transfer of more than a minute is not found. -/
theorem not_faithful_photo : ¬ ∀ (es : List HistoryEvent) (n : ℕ),
    ((es.take n).foldl History.step {}).Faithful := by
  intro h
  have hrow := (h (photoRun 61 ++
    [.restart 300 [(photo 0 .completed).record "r" "completed" 61]]) 6).1 1
  have hboard := hrow { photo 61 .completed with own := ["r"] } (by decide +kernel) "r"
  exact hboard (by decide +kernel) (by decide +kernel)

end History

end Arvolo.Engine
