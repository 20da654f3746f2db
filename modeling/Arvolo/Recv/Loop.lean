import Arvolo.Lib.Machine
import Arvolo.Recv.Schedule

/-!
The fetch and commit loop of `recv_chunked`, `core/src/flow/recv.rs`.

The loop hands pieces to fetch tasks, each of which stages one ciphertext in a
file of its own, and commits a piece when a task reports it verified: the stage
file is read back, opened, written at the piece's offset, and the piece's bit is
set. The tasks run on their own, so a run of the loop is a list of events: the
loop assigns a fetch or takes a report, a task opens its stage file, receives a
body, writes it, fails, or notices that it was cancelled.
-/

namespace Arvolo.Recv

open Crypto

/-! ### Stage files -/

/-- `{download}.arvpart.{i}`, and `{download}.arvpart.{i}.eg{n}` for a duplicate. -/
inductive Stage
  | path (i : ℕ)
  | dup (i n : ℕ)
  deriving DecidableEq

/-- The piece a stage path belongs to. -/
def Stage.piece : Stage → ℕ
  | .path i => i
  | .dup i _ => i

/-- The staging files: names, and the inodes behind them. A task that has its
file open goes on writing to the inode whatever becomes of the name. -/
structure StageFiles where
  names : Stage → Option ℕ
  data : ℕ → Bytes
  next : ℕ
  lt_next : ∀ p n, names p = some n → n < next
  inj : ∀ p q n, names p = some n → names q = some n → p = q

namespace StageFiles

variable (f : StageFiles)

/-- No staging files. -/
def empty : StageFiles :=
  ⟨fun _ => none, fun _ => [], 0, fun _ _ h => by simp at h, fun _ _ _ h => by simp at h⟩

def write (n : ℕ) (bytes : Bytes) : StageFiles :=
  { f with data := Function.update f.data n bytes }

/-- A new, empty file under a name that has none. -/
def create (p : Stage) : StageFiles where
  names := Function.update f.names p (some f.next)
  data := Function.update f.data f.next []
  next := f.next + 1
  lt_next q n h := by
    by_cases hq : q = p
    · subst hq
      simp at h
      omega
    · rw [Function.update_of_ne hq] at h
      exact Nat.lt_succ_of_lt (f.lt_next q n h)
  inj q q' n h h' := by
    by_cases hq : q = p <;> by_cases hq' : q' = p
    · rw [hq, hq']
    · subst hq
      rw [Function.update_of_ne hq'] at h'
      simp at h
      have := f.lt_next q' n h'
      omega
    · subst hq'
      rw [Function.update_of_ne hq] at h
      simp at h'
      have := f.lt_next q n h
      omega
    · rw [Function.update_of_ne hq] at h
      rw [Function.update_of_ne hq'] at h'
      exact f.inj q q' n h h'

/-- `OpenOptions::create(true).truncate(true)`: an existing file is emptied. -/
def openStage (p : Stage) : StageFiles × ℕ :=
  match f.names p with
  | some n => (f.write n [], n)
  | none => (f.create p, f.next)

def remove (p : Stage) : StageFiles where
  names := Function.update f.names p none
  data := f.data
  next := f.next
  lt_next q n h := by
    by_cases hq : q = p
    · subst hq
      simp at h
    · rw [Function.update_of_ne hq] at h
      exact f.lt_next q n h
  inj q q' n h h' := by
    by_cases hq : q = p
    · subst hq
      simp at h
    · by_cases hq' : q' = p
      · subst hq'
        simp at h'
      · rw [Function.update_of_ne hq] at h
        rw [Function.update_of_ne hq'] at h'
        exact f.inj q q' n h h'

def read (p : Stage) : Option Bytes := (f.names p).map f.data

end StageFiles

def endgamePieces : ℕ := 4

def endgameParallel : ℕ := 3

/-- Every stage path of piece `i`. -/
def StageFiles.removeAll (f : StageFiles) (i : ℕ) : StageFiles :=
  (List.range endgameParallel).foldl (fun f n => f.remove (.dup i (n + 1))) (f.remove (.path i))

/-! ### Tasks -/

inductive Outcome
  /-- The piece was won by another source, or the download was cancelled. -/
  | cancelled
  | ok
  /-- The fetch failed; `storage` when the local disk is to blame. -/
  | failed (storage : Bool)
  deriving DecidableEq

/-- A fetch task that has not been reported. -/
structure Task where
  piece : ℕ
  prov : Provider
  stage : Stage
  /-- The inode of its stage file, once open. -/
  fd : Option ℕ := none
  /-- The body, once it has been checked against the piece's digest. -/
  verified : Option Bytes := none
  /-- How much of it has been written. -/
  pos : ℕ := 0
  outcome : Option Outcome := none
  deriving DecidableEq

/-! ### The loop -/

/-- What the loop reads of a ticket. -/
structure Ticket where
  chunks : List Bytes
  key : Bytes
  chunkSize : ℕ
  totalSize : ℕ
  name : String := ""
  archive : Bool := false
  deriving DecidableEq

def Ticket.total (t : Ticket) : ℕ := t.chunks.length

inductive Exit
  | cancelled
  | paused
  | failed
  | completed
  deriving DecidableEq

structure Loop where
  remaining : List ℕ
  satisfied : List ℕ
  /-- The bitfield of verified pieces. -/
  have_ : Bytes
  pieceSrcs : ℕ → List Provider := fun _ => []
  /-- The pieces that have a cancellation token. -/
  pieceCancel : List ℕ := []
  /-- The pieces whose token was cancelled. -/
  tripped : List ℕ := []
  pieceBackoff : ℕ → Option ℕ := fun _ => none
  inFlight : Provider → ℕ := fun _ => 0
  cooldown : Provider → Option ℕ := fun _ => none
  banned : List Provider := []
  /-- The join set. -/
  tasks : List Task := []
  stages : StageFiles
  /-- The output file and the resume sidecar next to it. -/
  out : Bytes
  sidecar : Option Bytes
  /-- Whether the download's own token is cancelled. -/
  cancel : Bool := false
  /-- The `Chunk` events reported, one for each commit. -/
  committed : List ℕ := []
  exit : Option Exit := none

/-- What is fixed for a run of the loop. -/
structure Config where
  aead : Aead
  hash : Bytes → Bytes
  ticket : Ticket
  concurrency : ℕ
  origin : Option Provider

def providerCooldownSecs : ℕ := 3

def pieceBackoffSecs : ℕ := 2

/-- Write `bytes` at `offset`; a gap before it reads as zeros. -/
def writeAt (file : Bytes) (offset : ℕ) (bytes : Bytes) : Bytes :=
  if bytes.isEmpty then file
  else (file ++ List.replicate (offset - file.length) 0).take offset ++ bytes ++
    file.drop (offset + bytes.length)

/-- `File::set_len`. -/
def setLen (file : Bytes) (n : ℕ) : Bytes := file.take n ++ List.replicate (n - file.length) 0

/-- A write to the output that fails after `written` bytes; `storage` when the
disk is full. -/
structure Fault where
  written : ℕ
  storage : Bool

/-- How far a write of the sidecar got: it is best effort. -/
inductive Saved
  | whole
  | cut (n : ℕ)
  | skipped

def writeSidecar (old : Option Bytes) (bits : Bytes) : Saved → Option Bytes
  | .whole => some bits
  | .cut n => some (bits.take n)
  | .skipped => old

namespace Loop

variable (c : Config) (s : Loop)

/-- The state the loop starts from: the bits restored from the sidecar, and
whatever staging files are lying around. -/
def start (t : Ticket) (bits : Bytes) (stages : StageFiles) (out : Bytes)
    (sidecar : Option Bytes) : Loop where
  remaining := (List.range t.total).filter fun i => !bitfieldHas bits i
  satisfied := (List.range t.total).filter fun i => bitfieldHas bits i
  have_ := bits
  stages := stages
  out := out
  sidecar := sidecar

/-! #### Assignment -/

def providersHaving (now : ℕ) (src : Sources) (i : ℕ) : List Provider :=
  providersForPiece i src (isEligible s.banned s.cooldown now)

/-- The waiting pieces that somebody can serve now. -/
def candidates (now : ℕ) (src : Sources) : List (ℕ × List Provider) :=
  ((s.remaining.filter fun i => ((s.pieceBackoff i).map fun t => decide (t ≤ now)).getD true).map
    fun i => (i, s.providersHaving now src i)).filter fun e => !e.2.isEmpty

/-- The pieces to pick a fresh one from. -/
def fresh (now : ℕ) (src : Sources) : List (ℕ × List Provider) :=
  let originBusy := (c.origin.map fun id => decide (s.inFlight id > 0)).getD false
  rarestSet (preferOffloadable (s.candidates now src) c.origin originBusy)

/-- The pieces being fetched. -/
def live : List ℕ := (List.range c.ticket.total).filter fun i => !(s.pieceSrcs i).isEmpty

/-- The sources a piece in flight does not use yet. -/
def unused (now : ℕ) (src : Sources) (i : ℕ) : List Provider :=
  (s.providersHaving now src i).filter fun id => !(s.pieceSrcs i).contains id

/-- Whether `prov` may be given the waiting piece `i`. -/
def MayFetch (now : ℕ) (src : Sources) (i : ℕ) (prov : Provider) : Prop :=
  ∃ e ∈ s.fresh c now src, e.1 = i ∧ prov ∈ e.2

/-- Whether `prov` may be given the piece `i` as a further source: nothing is
left to hand out, and only the last few pieces are in flight. -/
def MayDuplicate (now : ℕ) (src : Sources) (i : ℕ) (prov : Provider) : Prop :=
  s.fresh c now src = [] ∧ (s.live c).length ≤ endgamePieces ∧ i ∈ s.live c ∧
    (s.pieceSrcs i).length < endgameParallel ∧ prov ∈ s.unused now src i

instance (now : ℕ) (src : Sources) (i : ℕ) (prov : Provider) :
    Decidable (s.MayFetch c now src i prov) :=
  inferInstanceAs (Decidable (∃ e ∈ s.fresh c now src, e.1 = i ∧ prov ∈ e.2))

instance (now : ℕ) (src : Sources) (i : ℕ) (prov : Provider) :
    Decidable (s.MayDuplicate c now src i prov) :=
  inferInstanceAs (Decidable (_ ∧ _ ∧ _ ∧ _ ∧ _))

def addSource (srcs : List Provider) (prov : Provider) : List Provider :=
  if prov ∈ srcs then srcs else srcs ++ [prov]

/-- The stage path of the next fetch of `i`, numbered by how many sources will
then be fetching it. -/
def stageFor (i : ℕ) (prov : Provider) : Stage :=
  let n := (addSource (s.pieceSrcs i) prov).length
  if n = 1 then .path i else .dup i n

/-- Hand piece `i` to `prov`. -/
def spawn (i : ℕ) (prov : Provider) : Loop :=
  { s with
    inFlight := Function.update s.inFlight prov (s.inFlight prov + 1)
    pieceSrcs := Function.update s.pieceSrcs i (addSource (s.pieceSrcs i) prov)
    pieceCancel := if i ∈ s.pieceCancel then s.pieceCancel else i :: s.pieceCancel
    tasks := s.tasks ++ [{ piece := i, prov, stage := s.stageFor i prov }] }

def assign (now : ℕ) (src : Sources) (i : ℕ) (prov : Provider) : Loop :=
  if s.tasks.length < c.concurrency ∧ s.cancel = false then
    if s.MayFetch c now src i prov then
      { s with remaining := s.remaining.filter (· ≠ i) }.spawn i prov
    else if s.MayDuplicate c now src i prov then s.spawn i prov
    else s
  else s

/-! #### A task by itself -/

def setTask (j : ℕ) (task : Task) : Loop := { s with tasks := s.tasks.set j task }

/-- The first poll: open the stage file. -/
def openStage (j : ℕ) : Loop :=
  match s.tasks[j]? with
  | some task =>
      if task.fd.isNone && task.outcome.isNone then
        let out := s.stages.openStage task.stage
        { s.setTask j { task with fd := some out.2 } with stages := out.1 }
      else s
  | none => s

/-- The body has arrived. One that does not match the digest gets its provider
banned; for one that does the stage file is emptied, ready to take it. -/
def receive (j : ℕ) (body : Bytes) : Loop :=
  match s.tasks[j]? with
  | some task =>
      match task.fd, task.verified, task.outcome with
      | some n, none, none =>
          if c.ticket.chunks[task.piece]? = some (c.hash body) then
            { s.setTask j { task with verified := some body, pos := 0 } with
              stages := s.stages.write n [] }
          else
            { s.setTask j { task with outcome := some (.failed false) } with
              banned := task.prov :: s.banned }
      | _, _, _ => s
  | none => s

/-- The verified body is written on to its byte `n`, at the task's own position in
the file. -/
def writeStage (j n : ℕ) : Loop :=
  match s.tasks[j]? with
  | some task =>
      match task.fd, task.verified, task.outcome with
      | some fd, some body, none =>
          let n := max task.pos (min n body.length)
          { s.setTask j { task with
              pos := n
              outcome := if body.length ≤ n then some .ok else none } with
            stages := s.stages.write fd
              (writeAt (s.stages.data fd) task.pos ((body.take n).drop task.pos)) }
      | _, _, _ => s
  | none => s

def fail (j : ℕ) (storage : Bool) : Loop :=
  match s.tasks[j]? with
  | some task =>
      if task.outcome.isNone then s.setTask j { task with outcome := some (.failed storage) } else s
  | none => s

/-- The task sees its token cancelled. It does not once it has begun to write:
there is no wait from there on. -/
def notice (j : ℕ) : Loop :=
  match s.tasks[j]? with
  | some task =>
      if task.outcome.isNone && task.verified.isNone && (s.cancel || task.piece ∈ s.tripped) then
        s.setTask j { task with outcome := some .cancelled }
      else s
  | none => s

/-! #### Reports -/

/-- The bookkeeping every report starts with. -/
def unlist (j : ℕ) (task : Task) : Loop :=
  { s with
    tasks := s.tasks.eraseIdx j
    inFlight := Function.update s.inFlight task.prov (s.inFlight task.prov - 1)
    pieceSrcs := Function.update s.pieceSrcs task.piece
      ((s.pieceSrcs task.piece).filter (· ≠ task.prov)) }

def removeStage (p : Stage) : Loop := { s with stages := s.stages.remove p }

/-- All the stage paths of a piece, after its commit. -/
def removeStages (i : ℕ) : Loop := { s with stages := s.stages.removeAll i }

/-- The piece is in the output: forget its bookkeeping, set its bit, write the
sidecar and report it. -/
def mark (i : ℕ) (saved : Saved) : Loop :=
  { s with
    pieceCancel := s.pieceCancel.filter (· ≠ i)
    pieceSrcs := Function.update s.pieceSrcs i []
    pieceBackoff := Function.update s.pieceBackoff i none
    remaining := s.remaining.filter (· ≠ i)
    have_ := bitfieldSet s.have_ i
    sidecar := writeSidecar s.sidecar (bitfieldSet s.have_ i) saved
    committed := s.committed ++ [i] }

/-- Commit a verified piece: read the stage file back, open it, write it at its
offset. -/
def commit (task : Task) (fault : Option Fault) (saved : Saved) : Loop :=
  let i := task.piece
  let s := { s with
    satisfied := i :: s.satisfied
    tripped := if i ∈ s.pieceCancel then i :: s.tripped else s.tripped }
  match s.stages.read task.stage with
  | none => { s with exit := some .failed }
  | some ct =>
      match openChunk c.aead c.ticket.key i c.ticket.total ct with
      | none => { s with exit := some .failed }
      | some plain =>
          let offset := i * c.ticket.chunkSize
          match fault with
          | some f =>
              { s with
                out := writeAt s.out offset (plain.take f.written)
                exit := some (if f.storage then .paused else .failed) }
          | none =>
              (({ s with out := writeAt s.out offset plain }.removeStage task.stage).removeStages
                i).mark i saved

/-- A provider failed: cool it down, and put the piece back unless another
source is still fetching it. -/
def reassign (task : Task) (now : ℕ) : Loop :=
  let s := { s with
    cooldown := Function.update s.cooldown task.prov (some (now + providerCooldownSecs)) }
  let s := s.removeStage task.stage
  if task.piece ∉ s.satisfied ∧ s.pieceSrcs task.piece = [] then
    { s with
      remaining := if task.piece ∈ s.remaining then s.remaining else task.piece :: s.remaining
      pieceBackoff := Function.update s.pieceBackoff task.piece (some (now + pieceBackoffSecs)) }
  else s

/-- The loop takes the report of task `j`. -/
def report (j now : ℕ) (fault : Option Fault) (saved : Saved) : Loop :=
  match s.tasks[j]? with
  | some task =>
      match task.outcome with
      | none => s
      | some .cancelled => (s.unlist j task).removeStage task.stage
      | some .ok =>
          if task.piece ∈ s.satisfied then (s.unlist j task).removeStage task.stage
          else (s.unlist j task).commit c task fault saved
      | some (.failed storage) =>
          if storage then
            { (s.unlist j task).removeStage task.stage with exit := some .paused }
          else (s.unlist j task).reassign task now
  | none => s

/-! #### Leaving -/

/-- Nothing is running and nothing is left: out of the loop. A cancelled
download that is not complete is left as it is; any other is finalised, and its
sidecar is removed if it can be. -/
def leave (removed : Bool) : Loop :=
  if s.tasks = [] ∧ s.remaining = [] ∧ s.live c = [] then
    if s.cancel && bitfieldCount s.have_ < c.ticket.total then { s with exit := some .cancelled }
    else
      { s with
        out := setLen s.out c.ticket.totalSize
        sidecar := if removed then none else s.sidecar
        exit := some .completed }
  else s

inductive Event
  | assign (now : ℕ) (src : Sources) (i : ℕ) (prov : Provider)
  | openStage (j : ℕ)
  | receive (j : ℕ) (body : Bytes)
  | writeStage (j n : ℕ)
  | fail (j : ℕ) (storage : Bool)
  | notice (j : ℕ)
  | report (j now : ℕ) (fault : Option Fault) (saved : Saved)
  /-- The download is cancelled. -/
  | trip
  /-- The loop sees the cancel while it waits. -/
  | stop
  | leave (removed : Bool)
  /-- The process dies, or an error around the loop ends it. -/
  | die

def step (e : Event) : Loop :=
  if s.exit.isSome then s
  else
    match e with
    | .assign now src i prov => s.assign c now src i prov
    | .openStage j => s.openStage j
    | .receive j body => s.receive c j body
    | .writeStage j n => s.writeStage j n
    | .fail j storage => s.fail j storage
    | .notice j => s.notice j
    | .report j now fault saved => s.report c j now fault saved
    | .trip => { s with cancel := true }
    | .stop => if s.cancel then { s with exit := some .cancelled } else s
    | .leave removed => s.leave c removed
    | .die => { s with exit := some .failed }

/-! ### What a step leaves alone -/

/-- Nothing was committed: the output, the bits and the reports are as they were,
and the loop goes on. -/
structure Quiet (s s' : Loop) : Prop where
  out : s'.out = s.out
  sidecar : s'.sidecar = s.sidecar
  bits : s'.have_ = s.have_
  satisfied : s'.satisfied = s.satisfied
  committed : s'.committed = s.committed
  exit : s'.exit = s.exit

variable {c : Config} {s : Loop}

theorem quiet_rfl : s.Quiet s := ⟨rfl, rfl, rfl, rfl, rfl, rfl⟩

theorem quiet_assign (now : ℕ) (src : Sources) (i : ℕ) (prov : Provider) :
    s.Quiet (s.assign c now src i prov) := by
  unfold assign
  split_ifs <;> exact ⟨rfl, rfl, rfl, rfl, rfl, rfl⟩

theorem quiet_openStage (j : ℕ) : s.Quiet (s.openStage j) := by
  unfold openStage
  split
  · split_ifs <;> exact ⟨rfl, rfl, rfl, rfl, rfl, rfl⟩
  · exact quiet_rfl

theorem quiet_receive (j : ℕ) (body : Bytes) : s.Quiet (s.receive c j body) := by
  unfold receive
  split
  · split
    · split_ifs <;> exact ⟨rfl, rfl, rfl, rfl, rfl, rfl⟩
    · exact quiet_rfl
  · exact quiet_rfl

theorem quiet_writeStage (j n : ℕ) : s.Quiet (s.writeStage j n) := by
  unfold writeStage
  split
  · split
    · exact ⟨rfl, rfl, rfl, rfl, rfl, rfl⟩
    · exact quiet_rfl
  · exact quiet_rfl

theorem quiet_fail (j : ℕ) (storage : Bool) : s.Quiet (s.fail j storage) := by
  unfold fail
  split
  · split_ifs <;> exact ⟨rfl, rfl, rfl, rfl, rfl, rfl⟩
  · exact quiet_rfl

theorem quiet_notice (j : ℕ) : s.Quiet (s.notice j) := by
  unfold notice
  split
  · split_ifs <;> exact ⟨rfl, rfl, rfl, rfl, rfl, rfl⟩
  · exact quiet_rfl

theorem quiet_reassign (task : Task) (now : ℕ) : s.Quiet (s.reassign task now) := by
  unfold reassign
  simp only
  split_ifs <;> exact ⟨rfl, rfl, rfl, rfl, rfl, rfl⟩

end Loop

end Arvolo.Recv
