import Arvolo.Lib.Machine
import Arvolo.Lib.Pool
import Arvolo.Lib.Table
import Arvolo.Lib.Word
import Arvolo.Relay.Deposits

/-!
The disk budget of a relay (`relay/src/mailbox.rs`, `relay/src/http.rs`,
`relay/src/http/upload.rs`).

Four kinds of request add to the disk: a streaming deposit, an upload session, its
commit, and a seed. The first two and the last ask the budget first. The question is
three queries, each under the mailbox lock for itself, and the answer is acted on
later: a deposit is bounded by what was left when it asked and writes as the body
arrives, an upload inserts its reservation after the question, a seed records its rows
when the chunks are here. A commit inserts the entry before it closes the session, and
does not ask. A step of this model holds the lock once; which rows are due to be
dropped, and which requests fail on the way, is left to the environment.
-/

namespace Arvolo.Relay

open Lib

def chunkSize : ℕ := 16 * 1024 * 1024

def maxSeedChunksPerReq : ℕ := 4096

def i64Max : ℕ := 2 ^ 63 - 1

/-- The relay's limits; `0` lifts the first two. -/
structure DiskLimits where
  maxTotalBlobBytes : ℕ
  maxBlobBytes : ℕ
  maxEntries : ℕ
  maxOpenUploads : ℕ
  maxSeededRows : ℕ

structure UploadRow where
  length : ℕ
  received : ℕ
  claim : Option Name
  deriving DecidableEq

/-- The length counts while `claim IS NULL`. -/
def UploadRow.reserved (u : UploadRow) : ℕ := if u.claim = none then u.length else 0

/-- A deposit whose body is arriving: the partial file never passes the bound. -/
structure Stream where
  claim : Name
  bound : ℕ
  written : ℕ
  fits : written ≤ bound
  deriving DecidableEq

/-- What a request asks room for. -/
inductive Ask
  | deposit (claim : Name)
  | upload (id : Name) (length : ℕ)
  | seed (token : Name) (chunks : List Name)
  deriving DecidableEq

/-- A request under way. -/
inductive DiskJob
  /-- It asks the budget: `disk_bytes` has the stored bytes next, the seeded ones, and
  the reserved ones, on which it decides. -/
  | askStored (ask : Ask)
  | askSeeded (ask : Ask) (stored : ℕ)
  | askReserved (ask : Ask) (stored seeded : ℕ)
  | streaming (st : Stream)
  /-- The session may be opened. -/
  | opening (id : Name) (length : ℕ)
  /-- The chunks may be fetched, and their rows recorded. -/
  | recording (token : Name) (todo : List Name)
  /-- The entry is inserted; the session is still open. -/
  | committing (id claim : Name)
  deriving DecidableEq

structure Disk where
  /-- The sizes of `entries`. -/
  entries : Table Name ℕ
  uploads : Table Name UploadRow
  seeded : Finset (Name × Name)
  jobs : List DiskJob
  deriving DecidableEq

namespace DiskJob

/-- Bytes of a deposit being streamed. -/
def written : DiskJob → ℕ
  | streaming st => st.written
  | _ => 0

/-- What an admitted request may still add. -/
def mayAdd : DiskJob → ℕ
  | streaming st => st.bound - st.written
  | opening _ length => length
  | recording _ todo => chunkSize * todo.length
  | _ => 0

/-- The upload a commit holds the busy guard of. -/
def holds : DiskJob → Option Name
  | committing id _ => some id
  | _ => none

end DiskJob

namespace Disk

def empty : Disk := ⟨∅, ∅, ∅, []⟩

/-- A `SUM` past `i64::MAX` is an error, and an error counts as nothing. -/
def sumI64 (n : ℕ) : ℕ := if n ≤ i64Max then n else 0

def storedBytes (s : Disk) : ℕ := sumI64 (Table.total id s.entries)

def seededBytes (s : Disk) : ℕ := min (chunkSize * s.seeded.card) (2 ^ 64 - 1)

def reservedUploadBytes (s : Disk) : ℕ := sumI64 (Table.total UploadRow.reserved s.uploads)

def openUploads (s : Disk) : ℕ := (s.uploads.entries.filter (·.2.claim = none)).length

def atCapacity (l : DiskLimits) (s : Disk) : Bool :=
  l.maxEntries ≤ s.entries.entries.length + s.openUploads

def busy (s : Disk) (id : Name) : Bool := s.jobs.any (·.holds = some id)

def setJob (s : Disk) (i : ℕ) : Option DiskJob → Disk
  | some job => { s with jobs := s.jobs.set i job }
  | none => { s with jobs := s.jobs.eraseIdx i }

def start (s : Disk) (job : DiskJob) : Disk := { s with jobs := s.jobs ++ [job] }

/-- The bound of a deposit: what is left of the total, and the cap on one blob. Past
either, the partial file is removed. -/
def depositBound (l : DiskLimits) (disk : ℕ) : ℕ :=
  let remaining := if l.maxTotalBlobBytes ≠ 0 then l.maxTotalBlobBytes - disk else 2 ^ 64 - 1
  if l.maxBlobBytes ≠ 0 then min remaining l.maxBlobBytes else remaining

/-- The room a request may take once it is admitted. -/
def room (l : DiskLimits) (disk : ℕ) : Ask → ℕ
  | .deposit _ => depositBound l disk
  | .upload _ length => length
  | .seed _ chunks => chunkSize * chunks.length

/-- The check of the budget, against the bytes it was told. -/
def refuses (l : DiskLimits) (disk : ℕ) : Ask → Bool
  | .deposit _ => l.maxTotalBlobBytes ≠ 0 && l.maxTotalBlobBytes ≤ disk
  | .upload _ length => l.maxTotalBlobBytes ≠ 0 && l.maxTotalBlobBytes < satAdd disk length
  | .seed _ chunks =>
      l.maxTotalBlobBytes ≠ 0 && l.maxTotalBlobBytes < satAdd disk (chunkSize * chunks.length)

/-- What an admitted request goes on with. -/
def admitted (l : DiskLimits) (disk : ℕ) : Ask → DiskJob
  | .deposit claim => .streaming ⟨claim, depositBound l disk, 0, Nat.zero_le _⟩
  | .upload id length => .opening id length
  | .seed token chunks => .recording token chunks

/-- `disk_bytes`, from its last query and what the others were told. -/
def diskBytes (s : Disk) (ok : Bool) (stored seeded : ℕ) : ℕ :=
  satAdd (satAdd stored seeded) (if ok then s.reservedUploadBytes else 0)

/-- The checks a request meets before it asks. -/
def accepts (l : DiskLimits) (s : Disk) : Ask → Bool
  | .deposit _ => !s.atCapacity l
  | .upload _ length => !(l.maxBlobBytes ≠ 0 && l.maxBlobBytes < length) && !s.atCapacity l
  | .seed _ chunks =>
      chunks.length ≤ maxSeedChunksPerReq && s.seeded.card + chunks.length ≤ l.maxSeededRows

/-- The next step of a request; `ok` is how its query, its body or its fetch went. -/
def turn (l : DiskLimits) (s : Disk) (ok : Bool) : DiskJob → Disk × Option DiskJob
  | .askStored ask => (s, some (.askSeeded ask (if ok then s.storedBytes else 0)))
  | .askSeeded ask stored =>
      (s, some (.askReserved ask stored (if ok then s.seededBytes else 0)))
  | .askReserved ask stored seeded =>
      let disk := s.diskBytes ok stored seeded
      (s, if refuses l disk ask then none else some (admitted l disk ask))
  | .streaming st =>
      if ok ∧ s.entries.lookup st.claim = none then
        ({ s with entries := s.entries.insert st.claim st.written }, none)
      else (s, none)
  | .opening id length =>
      if ok ∧ s.openUploads < l.maxOpenUploads ∧ s.uploads.lookup id = none then
        let row : UploadRow := ⟨min length i64Max, 0, none⟩
        ({ s with uploads := s.uploads.insert id row }, none)
      else (s, none)
  | .recording _ [] => (s, none)
  | .recording token (hash :: todo) =>
      if ok then
        ({ s with seeded := insert (token, hash) s.seeded }, some (.recording token todo))
      else (s, none)
  | .committing id claim =>
      match s.uploads.lookup id with
      | some u =>
          if ok then ({ s with uploads := s.uploads.insert id { u with claim := some claim } }, none)
          else (s, none)
      | none => (s, none)

/-- A piece of a deposit's body: written, or past the bound, where the file goes. -/
def chunk (s : Disk) (i : ℕ) (st : Stream) (n : ℕ) : Disk :=
  if h : st.written + n ≤ st.bound then
    s.setJob i (some (.streaming { st with written := st.written + n, fits := h }))
  else s.setJob i none

end Disk

inductive DiskEvent
  | ask (a : Ask)
  | chunk (i n : ℕ)
  | turn (i : ℕ) (ok : Bool)
  | append (id n : ℕ)
  | commit (id claim : Name)
  /-- Entries that are reaped, revoked or burned. -/
  | dropEntries (claims : List Name)
  /-- Sessions that are abandoned or reaped. -/
  | dropUploads (ids : List Name)
  | dropSeeds (rows : List (Name × Name))
  deriving DecidableEq

namespace Disk

def dropUpload (s : Disk) (id : Name) : Disk :=
  if s.busy id then s else { s with uploads := s.uploads.erase id }

def step (l : DiskLimits) (s : Disk) : DiskEvent → Disk
  | .ask a => if s.accepts l a then s.start (.askStored a) else s
  | .chunk i n =>
      match s.jobs[i]? with
      | some (.streaming st) => s.chunk i st n
      | _ => s
  | .turn i ok =>
      match s.jobs[i]? with
      | some job => (s.turn l ok job).1.setJob i (s.turn l ok job).2
      | none => s
  | .append id n =>
      match s.uploads.lookup id with
      | some u =>
          if !s.busy id && u.claim = none && u.received + n ≤ u.length then
            { s with uploads := s.uploads.insert id { u with received := u.received + n } }
          else s
      | none => s
  | .commit id claim =>
      match s.uploads.lookup id with
      | some u =>
          if !s.busy id && u.claim = none && u.received = u.length &&
              s.entries.lookup claim = none then
            ({ s with entries := s.entries.insert claim u.length }).start (.committing id claim)
          else s
      | none => s
  | .dropEntries claims =>
      { s with entries := claims.foldl (fun t claim => t.erase claim) s.entries }
  | .dropUploads ids => ids.foldl dropUpload s
  | .dropSeeds rows => { s with seeded := s.seeded \ rows.toFinset }

/-- Blobs, open sessions at their declared length, deposits on their way, and seeded
chunks at the nominal chunk size. -/
def used (s : Disk) : ℕ :=
  Table.total id s.entries + Table.total UploadRow.reserved s.uploads +
    (s.jobs.map DiskJob.written).sum + chunkSize * s.seeded.card

/-- What the requests already admitted may still add. -/
def promised (s : Disk) : ℕ := (s.jobs.map DiskJob.mayAdd).sum

/-- A request that asks is admitted only where its room fits beside all that is used and
all that is promised. -/
def CalmTurn (l : DiskLimits) (s : Disk) (ok : Bool) : DiskJob → Prop
  | .askReserved ask stored seeded =>
      let disk := s.diskBytes ok stored seeded
      refuses l disk ask = false → s.used + s.promised + room l disk ask ≤ l.maxTotalBlobBytes
  | _ => True

/-- An entry is committed only where it fits beside its own reservation. -/
def CalmCommit (l : DiskLimits) (s : Disk) (u : UploadRow) : Prop :=
  s.used + s.promised + u.length ≤ l.maxTotalBlobBytes

def Calm (l : DiskLimits) (s : Disk) : DiskEvent → Prop
  | .turn i ok => ∀ job ∈ s.jobs[i]?, s.CalmTurn l ok job
  | .commit id _ => ∀ u ∈ s.uploads.lookup id, s.CalmCommit l u
  | _ => True

instance (l : DiskLimits) (s : Disk) (ok : Bool) : DecidablePred (s.CalmTurn l ok)
  | .askReserved .. => inferInstanceAs (Decidable (_ → _))
  | .askStored .. | .askSeeded .. | .streaming .. | .opening .. | .recording ..
  | .committing .. => .isTrue trivial

instance (l : DiskLimits) (s : Disk) : DecidablePred (s.CalmCommit l) := fun _ =>
  inferInstanceAs (Decidable (_ ≤ _))

instance (l : DiskLimits) (s : Disk) : DecidablePred (s.Calm l)
  | .turn i ok => inferInstanceAs (Decidable (∀ job ∈ s.jobs[i]?, s.CalmTurn l ok job))
  | .commit id _ => inferInstanceAs (Decidable (∀ u ∈ s.uploads.lookup id, s.CalmCommit l u))
  | .ask _ | .chunk .. | .append .. | .dropEntries _ | .dropUploads _ | .dropSeeds _ =>
      .isTrue trivial

/-! ### What a step adds -/

variable {l : DiskLimits} {s : Disk}

/-- What is in the tables. -/
def stock (s : Disk) : ℕ :=
  Table.total id s.entries + Table.total UploadRow.reserved s.uploads + chunkSize * s.seeded.card

/-- What requests under way have written or may still add. -/
def weight (jobs : List DiskJob) : ℕ := (jobs.map fun j => j.written + j.mayAdd).sum

theorem used_add_promised (s : Disk) : s.used + s.promised = s.stock + weight s.jobs := by
  have hsum : weight s.jobs = (s.jobs.map DiskJob.written).sum + (s.jobs.map DiskJob.mayAdd).sum :=
    List.sum_map_add
  rw [hsum, used, promised, stock]
  omega

@[simp] theorem weight_append (jobs : List DiskJob) (job : DiskJob) :
    weight (jobs ++ [job]) = weight jobs + (job.written + job.mayAdd) := by
  simp [weight]

@[simp] theorem stock_setJob (s : Disk) (i : ℕ) (next : Option DiskJob) :
    (s.setJob i next).stock = s.stock := by
  cases next <;> rfl

/-- The job takes its own weight with it, and brings that of what comes after it. -/
theorem weight_setJob {i : ℕ} {job : DiskJob} (h : s.jobs[i]? = some job) (next : Option DiskJob) :
    weight (s.setJob i next).jobs + (job.written + job.mayAdd) =
      weight s.jobs + weight next.toList := by
  cases next with
  | none => simpa [weight, setJob] using Lib.sum_map_eraseIdx (fun j => j.written + j.mayAdd) h
  | some job' => simpa [weight, setJob] using Lib.sum_map_set (fun j => j.written + j.mayAdd) h job'

theorem jobs_turn (ok : Bool) (job : DiskJob) : (s.turn l ok job).1.jobs = s.jobs := by
  unfold turn
  split <;> try rfl
  · split_ifs <;> rfl
  · split_ifs <;> rfl
  · split_ifs <;> rfl
  · split
    · split_ifs <;> rfl
    · rfl

/-- One more row takes the place of one row still to record. -/
theorem record_le {c a k k' todo : ℕ} (h : k' ≤ k + 1) :
    a + c * k' + (0 + c * todo + 0) ≤ a + c * k + (0 + c * (todo + 1)) := by
  have hk : c * k' ≤ c * (k + 1) := Nat.mul_le_mul_left c h
  rw [Nat.mul_succ] at hk
  rw [Nat.mul_succ]
  omega

/-- A turn puts into the tables no more than the request may add. -/
theorem stock_turn (ok : Bool) {job : DiskJob}
    (hask : ∀ ask stored seeded, job ≠ .askReserved ask stored seeded) :
    (s.turn l ok job).1.stock + weight (s.turn l ok job).2.toList ≤
      s.stock + (job.written + job.mayAdd) := by
  cases job with
  | askStored ask => simp [turn, weight, DiskJob.written, DiskJob.mayAdd]
  | askSeeded ask stored => simp [turn, weight, DiskJob.written, DiskJob.mayAdd]
  | askReserved ask stored seeded => exact absurd rfl (hask ask stored seeded)
  | streaming st =>
      simp only [turn]
      split_ifs with hnew
      · have htotal := Table.total_insert_of_none (f := id) (a := st.written) hnew.2
        have hfits := st.fits
        simp only [stock, htotal, weight, DiskJob.written, DiskJob.mayAdd, Option.toList_none,
          List.map_nil, List.sum_nil, id_eq]
        omega
      · simp [weight]
  | opening id length =>
      simp only [turn]
      split_ifs with hnew
      · have htotal := Table.total_insert_of_none (f := UploadRow.reserved)
          (a := ⟨min length i64Max, 0, none⟩) hnew.2.2
        simp only [stock, htotal, weight, DiskJob.written, DiskJob.mayAdd, Option.toList_none,
          List.map_nil, List.sum_nil, UploadRow.reserved, if_true]
        omega
      · simp [weight]
  | recording token todo =>
      cases todo with
      | nil => simp [turn, weight]
      | cons hash todo =>
          simp only [turn]
          split_ifs with hok
          · simp only [stock, weight, DiskJob.written, DiskJob.mayAdd, Option.toList_some,
              List.map_cons, List.map_nil, List.sum_cons, List.sum_nil, List.length_cons]
            exact record_le (Finset.card_insert_le (token, hash) s.seeded)
          · simp [weight]
  | committing id claim =>
      simp only [turn]
      split
      · next u hu =>
        split_ifs with hok
        · have htotal := Table.total_insert_of_some (f := UploadRow.reserved)
            (a := { u with claim := some claim }) hu
          have hzero : UploadRow.reserved { u with claim := some claim } = 0 := rfl
          simp only [stock, weight, Option.toList_none, List.map_nil, List.sum_nil]
          omega
        · simp [weight]
      · simp [weight]

/-- The answer to an admitted request is all the room it takes. -/
theorem weight_admitted (disk : ℕ) (ask : Ask) : weight [admitted l disk ask] = room l disk ask := by
  cases ask <;> simp [weight, admitted, room, DiskJob.written, DiskJob.mayAdd]

/-! ### Runs -/

/-- All that is used and promised fits. -/
def Within (l : DiskLimits) (s : Disk) : Prop := s.used + s.promised ≤ l.maxTotalBlobBytes

/-- A step that only takes rows away, or exchanges them for smaller ones, keeps the budget. -/
theorem Within.mono (h : s.Within l) {s' : Disk} (hjobs : weight s'.jobs ≤ weight s.jobs)
    (hstock : s'.stock ≤ s.stock) : s'.Within l := by
  unfold Within at h ⊢
  rw [used_add_promised] at h ⊢
  exact (Nat.add_le_add hstock hjobs).trans h

theorem Within.turn (h : s.Within l) {i : ℕ} {ok : Bool} {job : DiskJob} (hjob : s.jobs[i]? = some job)
    (hcalm : s.CalmTurn l ok job) :
    ((s.turn l ok job).1.setJob i (s.turn l ok job).2).Within l := by
  have hjob' : (s.turn l ok job).1.jobs[i]? = some job := by rw [jobs_turn, hjob]
  have hweight := weight_setJob hjob' (s.turn l ok job).2
  rw [jobs_turn] at hweight
  by_cases hask : ∃ ask stored seeded, job = .askReserved ask stored seeded
  · obtain ⟨ask, stored, seeded, rfl⟩ := hask
    by_cases hrefuse : refuses l (s.diskBytes ok stored seeded) ask = true
    · refine h.mono ?_ (stock_setJob ..).le
      simp only [Disk.turn, hrefuse, if_true, Option.toList_none] at hweight ⊢
      have hnil : weight [] = 0 := rfl
      omega
    · have hroom := hcalm (by simpa using hrefuse)
      unfold Within
      rw [used_add_promised] at hroom ⊢
      rw [stock_setJob]
      simp only [Disk.turn, hrefuse, Bool.false_eq_true, if_false, Option.toList_some,
        weight_admitted] at hweight ⊢
      omega
  · have hstock := stock_turn (l := l) (s := s) ok
      fun ask stored seeded he => hask ⟨ask, stored, seeded, he⟩
    unfold Within at h ⊢
    rw [used_add_promised] at h ⊢
    rw [stock_setJob]
    omega

theorem Within.chunk (h : s.Within l) {i : ℕ} {st : Stream} (hjob : s.jobs[i]? = some (.streaming st))
    (n : ℕ) : (s.chunk i st n).Within l := by
  unfold Disk.chunk
  split_ifs with hfits
  · have hweight := weight_setJob hjob
      (some (.streaming { st with written := st.written + n, fits := hfits }))
    refine h.mono ?_ (stock_setJob ..).le
    have hold := st.fits
    simp only [weight, DiskJob.written, DiskJob.mayAdd, Option.toList_some, List.map_cons,
      List.map_nil, List.sum_cons, List.sum_nil] at hweight ⊢
    omega
  · have hweight := weight_setJob hjob none
    refine h.mono ?_ (stock_setJob ..).le
    have hnil : weight (none : Option DiskJob).toList = 0 := rfl
    omega

theorem total_foldl_erase_le (claims : List Name) (t : Table Name ℕ) :
    Table.total id (claims.foldl (fun t claim => t.erase claim) t) ≤ Table.total id t := by
  induction claims generalizing t with
  | nil => exact le_rfl
  | cons claim claims ih => exact (ih _).trans (Table.total_erase_le ..)

theorem Within.dropUploads (h : s.Within l) (ids : List Name) :
    (ids.foldl dropUpload s).Within l := by
  induction ids generalizing s with
  | nil => exact h
  | cons id ids ih =>
      refine ih ?_
      unfold dropUpload
      split_ifs
      · exact h
      · refine h.mono le_rfl ?_
        have := Table.total_erase_le UploadRow.reserved s.uploads id
        simp only [stock]
        omega

theorem Within.step (h : s.Within l) (e : DiskEvent) (hcalm : s.Calm l e) : (s.step l e).Within l := by
  cases e with
  | ask a =>
      simp only [Disk.step]
      split_ifs
      · refine h.mono ?_ le_rfl
        simp [start, DiskJob.written, DiskJob.mayAdd]
      · exact h
  | chunk i n =>
      simp only [Disk.step]
      split
      · next st hjob => exact h.chunk hjob n
      · exact h
  | turn i ok =>
      simp only [Disk.step]
      split
      · next job hjob => exact h.turn hjob (hcalm job hjob)
      · exact h
  | append id n =>
      simp only [Disk.step]
      split
      · next u hu =>
        split_ifs
        · refine h.mono le_rfl ?_
          have htotal := Table.total_insert_of_some (f := UploadRow.reserved)
            (a := { u with received := u.received + n }) hu
          have hsame : UploadRow.reserved { u with received := u.received + n } = u.reserved := rfl
          simp only [stock]
          omega
        · exact h
      · exact h
  | commit upload claim =>
      simp only [Disk.step]
      split
      · next u hu =>
        split_ifs with hopen
        · simp only [Bool.and_eq_true, decide_eq_true_eq] at hopen
          have htotal := Table.total_insert_of_none (f := id) (a := u.length) hopen.2
          have hroom : s.used + s.promised + u.length ≤ l.maxTotalBlobBytes := hcalm u hu
          unfold Within
          rw [used_add_promised] at hroom ⊢
          simp only [start, stock, htotal, weight_append, DiskJob.written, DiskJob.mayAdd,
            id_eq] at hroom ⊢
          omega
        · exact h
      · exact h
  | dropEntries claims =>
      refine h.mono le_rfl ?_
      have := total_foldl_erase_le claims s.entries
      simp only [stock, Disk.step]
      omega
  | dropUploads ids => exact h.dropUploads ids
  | dropSeeds rows =>
      refine h.mono le_rfl ?_
      have hcard : (s.seeded \ rows.toFinset).card ≤ s.seeded.card :=
        Finset.card_le_card Finset.sdiff_subset
      exact Nat.add_le_add_left (Nat.mul_le_mul_left chunkSize hcard) _

def run (l : DiskLimits) : Disk → List DiskEvent → Disk := List.foldl (step l)

theorem within_empty (l : DiskLimits) : empty.Within l := Nat.zero_le _

/-- In a calm run the disk never holds more than the cap. -/
theorem used_le_cap (l : DiskLimits) (es : List DiskEvent) (h : Along (step l) (Calm l) empty es)
    (n : ℕ) : (empty.run l (es.take n)).used ≤ l.maxTotalBlobBytes := by
  have hwithin : (empty.run l (es.take n)).Within l :=
    (h.take n).foldl_inv (Within l) (fun _ e hs hc => hs.step e hc) (within_empty l)
  exact (Nat.le_add_right ..).trans hwithin

/-- Two deposits ask while the disk is empty, and each fills it. -/
def twoDeposits : List DiskEvent :=
  [.ask (.deposit 1), .turn 0 true, .turn 0 true, .turn 0 true,
    .ask (.deposit 2), .turn 1 true, .turn 1 true, .turn 1 true, .chunk 0 100, .chunk 1 100]

theorem overrun :
    ¬ ∀ (l : DiskLimits) (es : List DiskEvent), l.maxTotalBlobBytes ≠ 0 →
      (empty.run l es).used ≤ l.maxTotalBlobBytes := by
  intro h
  have := h ⟨100, 0, 10, 10, 10⟩ twoDeposits (by decide)
  revert this
  decide +kernel

/-- A deposit, an upload with its commit, and a seed, one after the other. -/
def oneByOne : List DiskEvent :=
  [.ask (.deposit 1), .turn 0 true, .turn 0 true, .turn 0 true, .chunk 0 400, .turn 0 true,
    .ask (.upload 2 300), .turn 0 true, .turn 0 true, .turn 0 true, .turn 0 true,
    .append 2 300, .commit 2 3, .turn 0 true,
    .ask (.seed 4 [5]), .turn 0 true, .turn 0 true, .turn 0 true, .turn 0 true, .turn 0 true]

theorem used_le_cap_oneByOne :
    (empty.run ⟨20000000, 1000, 10, 10, 10⟩ (oneByOne.take 20)).used ≤ 20000000 :=
  used_le_cap ⟨20000000, 1000, 10, 10, 10⟩ oneByOne (by decide +kernel) 20

/-- A request that asks while no other is under way is admitted only where it fits: what
breaks the budget is that requests overlap. -/
theorem room_of_alone (hcap : l.maxTotalBlobBytes ≠ 0) (hint : l.maxTotalBlobBytes ≤ i64Max)
    (hused : s.used ≤ l.maxTotalBlobBytes)
    (halone : ∀ job ∈ s.jobs, job.written = 0 ∧ job.mayAdd = 0) (ask : Ask)
    (hok : refuses l (s.diskBytes true s.storedBytes s.seededBytes) ask = false) :
    s.used + s.promised + room l (s.diskBytes true s.storedBytes s.seededBytes) ask ≤
      l.maxTotalBlobBytes := by
  have hzero : weight s.jobs = 0 := by
    refine List.sum_eq_zero fun n hn => ?_
    obtain ⟨job, hjob, rfl⟩ := List.mem_map.1 hn
    simp [halone job hjob]
  have hpromised : s.promised = 0 := by
    refine List.sum_eq_zero fun n hn => ?_
    obtain ⟨job, hjob, rfl⟩ := List.mem_map.1 hn
    exact (halone job hjob).2
  have hstock : s.used = s.stock := by
    have := s.used_add_promised
    omega
  have hmax : i64Max = 2 ^ 63 - 1 := rfl
  have hdisk : s.diskBytes true s.storedBytes s.seededBytes = s.stock := by
    rw [hstock, stock] at hused
    simp only [diskBytes, storedBytes, seededBytes, reservedUploadBytes, sumI64, satAdd, if_true,
      stock]
    generalize Table.total id s.entries = stored at *
    generalize Table.total UploadRow.reserved s.uploads = reserved at *
    generalize chunkSize * s.seeded.card = seeded at *
    rw [if_pos (by omega), if_pos (by omega)]
    omega
  rw [hdisk] at hok ⊢
  rw [hpromised, hstock]
  cases ask with
  | deposit claim =>
      have hlt : s.stock < l.maxTotalBlobBytes := by simpa [refuses, hcap] using hok
      simp only [room, depositBound, hcap, ne_eq, not_false_eq_true, if_true]
      split_ifs <;> omega
  | upload id length =>
      have hle : satAdd s.stock length ≤ l.maxTotalBlobBytes := by simpa [refuses, hcap] using hok
      unfold satAdd at hle
      simp only [room]
      omega
  | seed token chunks =>
      have hle : satAdd s.stock (chunkSize * chunks.length) ≤ l.maxTotalBlobBytes := by
        simpa [refuses, hcap] using hok
      unfold satAdd at hle
      simp only [room]
      generalize chunkSize * chunks.length = add at *
      omega

end Disk

end Arvolo.Relay
