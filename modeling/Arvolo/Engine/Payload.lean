import Arvolo.Lib.Machine
import Arvolo.Lib.Table

/-!
The archives of packed payloads: `engine/src/payload.rs` and the requests of
`daemon.rs` that send a folder or several paths.

The name of an archive is that of the process, so all requests of one run of the
daemon pack into one file. A request subscribes to the events before it starts its
transfer, and once the transfer ends it, or the task it leaves behind, deletes the
file. What a transfer is restored from after a restart names the file too; no task
is left behind for it then.
-/

namespace Arvolo.Engine

open Lib

/-- The bytes of an archive file. Two requests that write at once tear it. -/
inductive Archive
  | writing (req : ℕ)
  | whole (req : ℕ)
  | torn
  deriving DecidableEq

/-- A transfer whose payload is a packed archive. -/
structure PackedSend where
  path : ℕ
  /-- It comes back after a restart: all do but an explicit deposit. -/
  restorable : Bool
  /-- `Completed`, `Failed`, `Cancelled` or `Deposited`: the payload is needed no more. -/
  finished : Bool
  /-- Who will delete the archive, and whether the end is among its unread events. -/
  watch : Option Bool
  deriving DecidableEq

structure Payloads where
  pid : ℕ
  files : Table ℕ Archive := ∅
  packing : List ℕ := []
  /-- Requests that have packed and not yet started their transfer. -/
  packed : List ℕ := []
  transfers : Table ℕ PackedSend := ∅
  nextReq : ℕ := 0

inductive PayloadEvent
  | packStart
  | packEnd (req : ℕ)
  | packFail (req : ℕ)
  | register (req : ℕ) (restorable : Bool)
  /-- The manager refuses the request before there is a transfer. -/
  | reject (req : ℕ)
  | finish (req : ℕ)
  /-- The subscriber lags, and what it had not read is lost to it. -/
  | lag (req : ℕ)
  /-- It reads of the end. -/
  | cleanup (req : ℕ)
  /-- A clean shutdown, at which these subscribers still see the channel close, and
  the next start under another process id. -/
  | restart (pid : ℕ) (ran : List ℕ)
  deriving DecidableEq

namespace PackedSend

/-- Over, and nobody is left to delete anything for it. -/
def done (x : PackedSend) : Bool := x.finished && x.watch.isNone

/-- What a shutdown makes of a transfer: one that does not come back is over. -/
def shutDown (x : PackedSend) : PackedSend :=
  { x with finished := x.finished || !x.restorable, watch := none }

end PackedSend

namespace Payloads

variable (s : Payloads)

/-- `resolve_payload` creates the file. -/
def packStart : Payloads :=
  { s with
    files := s.files.insert s.pid (if s.packing = [] then .writing s.nextReq else .torn)
    packing := s.nextReq :: s.packing
    nextReq := s.nextReq + 1 }

def packEnd (req : ℕ) : Payloads :=
  { s with
    files :=
      if s.files.lookup s.pid = some (.writing req) then s.files.insert s.pid (.whole req)
      else s.files
    packing := s.packing.filter (· ≠ req)
    packed := req :: s.packed }

/-- The subscriber deletes the file by its name. -/
def cleanup (req : ℕ) (x : PackedSend) : Payloads :=
  { s with
    files := s.files.erase x.path
    transfers := s.transfers.insert req { x with watch := none } }

/-- The paths the subscribers that still run delete. -/
def closed (ran : List ℕ) : List ℕ :=
  ran.filterMap fun req =>
    (s.transfers.lookup req).bind fun x => if x.watch.isSome then some x.path else none

def restart (pid : ℕ) (ran : List ℕ) : Payloads :=
  { s with
    pid
    files := (s.closed ran).foldl (fun files path => files.erase path) s.files
    packing := []
    packed := []
    transfers := s.transfers.mapValues fun _ => PackedSend.shutDown }

def step (s : Payloads) : PayloadEvent → Payloads
  | .packStart => s.packStart
  | .packEnd req => if req ∈ s.packing then s.packEnd req else s
  | .packFail req => { s with packing := s.packing.filter (· ≠ req) }
  | .register req restorable =>
      if req ∈ s.packed then
        { s with
          packed := s.packed.filter (· ≠ req)
          transfers := s.transfers.insert req ⟨s.pid, restorable, false, some false⟩ }
      else s
  | .reject req =>
      if req ∈ s.packed then
        { s with packed := s.packed.filter (· ≠ req), files := s.files.erase s.pid }
      else s
  | .finish req =>
      match s.transfers.lookup req with
      | some x =>
          if x.finished then s
          else
            { s with transfers :=
                s.transfers.insert req { x with finished := true, watch := x.watch.map fun _ => true } }
      | none => s
  | .lag req =>
      match s.transfers.lookup req with
      | some x =>
          { s with transfers := s.transfers.insert req { x with watch := x.watch.map fun _ => false } }
      | none => s
  | .cleanup req =>
      match s.transfers.lookup req with
      | some x => if x.watch = some true then s.cleanup req x else s
      | none => s
  | .restart pid ran => s.restart pid ran

abbrev run (pid : ℕ) (es : List PayloadEvent) : Payloads := es.foldl step { pid }

/-- A transfer that is not over has its archive, with the bytes packed for it; and
one that is over has none, or somebody is about to read of its end. -/
def LiveExactly : Prop :=
  ∀ req x, s.transfers.lookup req = some x →
    if x.finished then x.watch = some true ∨ s.files.lookup x.path ≠ some (.whole req)
    else s.files.lookup x.path = some (.whole req)

/-- A step that does not mix two payloads up, nor lose track of one. A request packs
while no other of this run has the file: none packs or has packed, and no transfer
with this path goes on or has its archive still to be deleted. A subscriber does not
lag over the end of its transfer, and a transfer does not end without one. A
shutdown closes the channel before the subscribers of transfers that do not come
back, or are over, and not before those of the others. -/
def Calm : PayloadEvent → Prop
  | .packStart =>
      s.packing = [] ∧ s.packed = [] ∧
        ∀ req x, s.transfers.lookup req = some x → x.path = s.pid → x.done
  | .finish req => ∀ x, s.transfers.lookup req = some x → x.finished = false → x.watch.isSome
  | .lag req => ∀ x, s.transfers.lookup req = some x → x.watch ≠ some true
  | .restart _ ran =>
      ∀ req x, s.transfers.lookup req = some x → x.watch.isSome →
        (req ∈ ran ↔ x.finished ∨ x.restorable = false)
  | _ => True

/-! ### Calm runs -/

/-- A request that has the file and no transfer yet. -/
structure Pending (req : ℕ) : Prop where
  new : s.transfers.lookup req = none
  lt : req < s.nextReq
  alone : ∀ req', req' ∈ s.packing ∨ req' ∈ s.packed → req' = req
  free : ∀ req' x, s.transfers.lookup req' = some x → x.path = s.pid → x.done

structure Inv : Prop where
  packing : ∀ req ∈ s.packing, s.Pending req ∧ s.files.lookup s.pid = some (.writing req)
  packed : ∀ req ∈ s.packed, s.Pending req ∧ req ∉ s.packing ∧
    s.files.lookup s.pid = some (.whole req)
  /-- A transfer that still has its archive. -/
  live : ∀ req x, s.transfers.lookup req = some x → x.done = false →
    s.files.lookup x.path = some (.whole req)
  /-- Its end is known to whoever will delete it. -/
  told : ∀ req x, s.transfers.lookup req = some x → x.finished → x.watch ≠ some false
  ended : ∀ req x, s.transfers.lookup req = some x → x.watch = some true → x.finished
  /-- One whose archive is deleted. -/
  gone : ∀ req x, s.transfers.lookup req = some x → x.done →
    s.files.lookup x.path ≠ some (.whole req)
  /-- One that does not come back is watched until it is over. -/
  watched : ∀ req x, s.transfers.lookup req = some x → x.finished = false →
    x.watch = none → x.restorable
  old : ∀ req x, s.transfers.lookup req = some x → req < s.nextReq

theorem Inv.liveExactly {s : Payloads} (h : s.Inv) : s.LiveExactly := by
  intro req x hx
  have hlive := h.live req x hx
  have htold := h.told req x hx
  have hgone := h.gone req x hx
  unfold PackedSend.done at hlive hgone
  split_ifs with hfin
  · cases hw : x.watch with
    | none => exact .inr (hgone (by simp [hfin, hw]))
    | some told =>
        cases told with
        | false => exact absurd hw (htold hfin)
        | true => exact .inl rfl
  · exact hlive (by simp [hfin])

section Steps

variable {s : Payloads}

/-- Two transfers that have their archives under one name are one. -/
theorem Inv.eq_of_path (h : s.Inv) {req req' : ℕ} {x x' : PackedSend}
    (hx : s.transfers.lookup req = some x) (hx' : s.transfers.lookup req' = some x')
    (hlive : x.done = false) (hlive' : x'.done = false) (hpath : x'.path = x.path) :
    req' = req := by
  have hfile := h.live req x hx hlive
  rw [← hpath, h.live req' x' hx' hlive'] at hfile
  cases hfile
  rfl

theorem Inv.packStart (h : s.Inv) (hcalm : s.Calm .packStart) : s.packStart.Inv := by
  obtain ⟨hpacking, hpacked, hfree⟩ := hcalm
  have hnew : s.transfers.lookup s.nextReq = none := by
    by_contra hne
    obtain ⟨x, hx⟩ := Option.ne_none_iff_exists'.mp hne
    exact absurd (h.old _ x hx) (lt_irrefl _)
  simp only [Payloads.packStart, hpacking, if_true]
  refine ⟨?_, by simp [hpacked], ?_, h.told, h.ended, ?_, h.watched, ?_⟩
  · intro req hreq
    rw [List.mem_singleton.mp hreq]
    exact ⟨⟨hnew, Nat.lt_succ_self _, by simp [hpacked], hfree⟩, AList.lookup_insert s.files⟩
  · intro req x hx hlive
    have hpath : x.path ≠ s.pid := fun he => by
      rw [hfree req x hx he] at hlive
      cases hlive
    exact (AList.lookup_insert_ne hpath).trans (h.live req x hx hlive)
  · intro req x hx hdone
    rw [Table.lookup_insert_eq]
    split_ifs
    · simp
    · exact h.gone req x hx hdone
  · exact fun req x hx => Nat.lt_succ_of_lt (h.old req x hx)

theorem Inv.packEnd (h : s.Inv) {req : ℕ} (hreq : req ∈ s.packing) : (s.packEnd req).Inv := by
  obtain ⟨hpend, hfile⟩ := h.packing req hreq
  simp only [Payloads.packEnd, hfile, if_true]
  have hpacking : s.packing.filter (· ≠ req) = [] := by
    rw [List.filter_eq_nil_iff]
    intro req' hreq'
    simp [hpend.alone req' (.inl hreq')]
  have hpacked : s.packed = [] := by
    rw [List.eq_nil_iff_forall_not_mem]
    intro req' hreq'
    obtain ⟨-, hnot, -⟩ := h.packed req' hreq'
    rw [hpend.alone req' (.inr hreq')] at hnot
    exact hnot hreq
  rw [hpacking, hpacked]
  refine ⟨by simp, ?_, ?_, h.told, h.ended, ?_, h.watched, h.old⟩
  · intro req' hreq'
    rw [List.mem_singleton.mp hreq']
    exact ⟨⟨hpend.new, hpend.lt, by simp, hpend.free⟩, by simp, AList.lookup_insert s.files⟩
  · intro req' x hx hlive
    have hpath : x.path ≠ s.pid := fun he => by
      rw [hpend.free req' x hx he] at hlive
      cases hlive
    exact (AList.lookup_insert_ne hpath).trans (h.live req' x hx hlive)
  · intro req' x hx hdone
    rw [Table.lookup_insert_eq]
    split_ifs
    · intro he
      obtain rfl : req = req' := by simpa using he
      rw [hpend.new] at hx
      cases hx
    · exact h.gone req' x hx hdone

/-- A request that has packed is the only one that has the file. -/
theorem Inv.only (h : s.Inv) {req : ℕ} (hreq : req ∈ s.packed) :
    s.packing = [] ∧ s.packed.filter (· ≠ req) = [] := by
  obtain ⟨hpend, hnot, -⟩ := h.packed req hreq
  constructor
  · rw [List.eq_nil_iff_forall_not_mem]
    intro req' hreq'
    rw [hpend.alone req' (.inl hreq')] at hreq'
    exact hnot hreq'
  · rw [List.filter_eq_nil_iff]
    intro req' hreq'
    simp [hpend.alone req' (.inr hreq')]

theorem Inv.register (h : s.Inv) {req : ℕ} (hreq : req ∈ s.packed) (restorable : Bool) :
    Inv { s with
      packed := s.packed.filter (· ≠ req)
      transfers := s.transfers.insert req ⟨s.pid, restorable, false, some false⟩ } := by
  obtain ⟨hpend, -, hfile⟩ := h.packed req hreq
  obtain ⟨hpacking, hpacked⟩ := h.only hreq
  rw [hpacked]
  have hlt := hpend.lt
  obtain ⟨-, -, hlive, htold, hover, hgone, hwatched, hold⟩ := h
  constructor <;> grind [Table.lookup_insert_eq, PackedSend.done]

theorem Inv.reject (h : s.Inv) {req : ℕ} (hreq : req ∈ s.packed) :
    Inv { s with packed := s.packed.filter (· ≠ req), files := s.files.erase s.pid } := by
  obtain ⟨hpend, -, hfile⟩ := h.packed req hreq
  obtain ⟨hpacking, hpacked⟩ := h.only hreq
  rw [hpacked]
  have hfree := hpend.free
  obtain ⟨-, -, hlive, htold, hover, hgone, hwatched, hold⟩ := h
  constructor <;> grind [Table.lookup_erase_eq]

theorem Inv.congr (h : s.Inv) {transfers : Table ℕ PackedSend}
    (hlook : ∀ req, transfers.lookup req = s.transfers.lookup req) : Inv { s with transfers } := by
  have hpend {req : ℕ} (hp : s.Pending req) : Pending { s with transfers } req :=
    ⟨(hlook req).trans hp.new, hp.lt, hp.alone, fun req' x hx => hp.free req' x (hlook req' ▸ hx)⟩
  exact ⟨fun req hr => (h.packing req hr).imp_left hpend,
    fun req hr => (h.packed req hr).imp_left hpend,
    fun req x hx => h.live req x (hlook req ▸ hx), fun req x hx => h.told req x (hlook req ▸ hx),
    fun req x hx => h.ended req x (hlook req ▸ hx), fun req x hx => h.gone req x (hlook req ▸ hx),
    fun req x hx => h.watched req x (hlook req ▸ hx), fun req x hx => h.old req x (hlook req ▸ hx)⟩

/-- The end of a transfer that is watched. -/
theorem Inv.finish (h : s.Inv) {req : ℕ} {x : PackedSend} (hx : s.transfers.lookup req = some x)
    (hfin : x.finished = false) (hwatch : x.watch.isSome) :
    Inv { s with
      transfers :=
        s.transfers.insert req { x with finished := true, watch := x.watch.map fun _ => true } } := by
  have hmap : x.watch.map (fun _ => true) = some true := by
    obtain ⟨told, htold⟩ := Option.isSome_iff_exists.mp hwatch
    rw [htold, Option.map_some]
  rw [hmap]
  have hnot : x.done = false := by simp [PackedSend.done, hfin]
  have hpend {req' : ℕ} (hp : s.Pending req') :
      Pending { s with transfers := s.transfers.insert req ⟨x.path, x.restorable, true, some true⟩ }
        req' := by
    obtain ⟨hnew, hlt, halone, hfree⟩ := hp
    constructor <;> grind [Table.lookup_insert_eq, PackedSend.done]
  obtain ⟨hpacking, hpacked, hlive, htold, hover, hgone, hwatched, hold⟩ := h
  refine ⟨fun req' hr => ⟨hpend (hpacking req' hr).1, (hpacking req' hr).2⟩,
    fun req' hr => ⟨hpend (hpacked req' hr).1, (hpacked req' hr).2⟩, ?_, ?_, ?_, ?_, ?_, ?_⟩
  all_goals grind [Table.lookup_insert_eq, PackedSend.done]

/-- The archive goes, and with it whoever was to delete it. -/
theorem Inv.cleanup (h : s.Inv) {req : ℕ} {x : PackedSend} (hx : s.transfers.lookup req = some x)
    (hwatch : x.watch = some true) : (s.cleanup req x).Inv := by
  have hnot : x.done = false := by simp [PackedSend.done, hwatch]
  have hfin : x.finished = true := h.ended req x hx hwatch
  have hpath {req' : ℕ} (hp : s.Pending req') : s.pid ≠ x.path := fun he => by
    rw [hp.free req x hx he.symm] at hnot
    cases hnot
  have hother {req' : ℕ} {x' : PackedSend} (hx' : s.transfers.lookup req' = some x')
      (hlive' : x'.done = false) (hne : req' ≠ req) : x'.path ≠ x.path :=
    fun he => hne (h.eq_of_path hx hx' hnot hlive' he)
  have hpend {req' : ℕ} (hp : s.Pending req') : (s.cleanup req x).Pending req' := by
    have := hpath hp
    obtain ⟨hnew, hlt, halone, hfree⟩ := hp
    unfold Payloads.cleanup
    constructor <;> grind [Table.lookup_insert_eq, PackedSend.done]
  obtain ⟨hpacking, hpacked, hlive, htold, hover, hgone, hwatched, hold⟩ := h
  refine ⟨fun req' hr => ⟨hpend (hpacking req' hr).1, ?_⟩,
    fun req' hr => ⟨hpend (hpacked req' hr).1, (hpacked req' hr).2.1, ?_⟩, ?_, ?_, ?_, ?_, ?_, ?_⟩
  · exact (AList.lookup_erase_ne (hpath (hpacking req' hr).1)).trans (hpacking req' hr).2
  · exact (AList.lookup_erase_ne (hpath (hpacked req' hr).1)).trans (hpacked req' hr).2.2
  all_goals
    unfold Payloads.cleanup
    grind [Table.lookup_insert_eq, Table.lookup_erase_eq, PackedSend.done]

theorem Inv.restart (h : s.Inv) {pid : ℕ} {ran : List ℕ} (hcalm : s.Calm (.restart pid ran)) :
    (s.restart pid ran).Inv := by
  have hclosed {path : ℕ} : path ∈ s.closed ran ↔
      ∃ req ∈ ran, ∃ x, s.transfers.lookup req = some x ∧ x.watch.isSome ∧ x.path = path := by
    simp [closed, List.mem_filterMap, Option.bind_eq_some_iff]
  have hback {req : ℕ} {x' : PackedSend}
      (hx' : (s.transfers.mapValues fun _ => PackedSend.shutDown).lookup req = some x') :
      ∃ x, s.transfers.lookup req = some x ∧ x.shutDown = x' := by
    rw [Table.lookup_mapValues] at hx'
    exact Option.map_eq_some_iff.mp hx'
  unfold Payloads.restart
  refine ⟨by simp, by simp, ?_, ?_, ?_, ?_, ?_, ?_⟩
  · intro req x' hx' hlive
    obtain ⟨x, hx, rfl⟩ := hback hx'
    have hfin : x.finished = false ∧ x.restorable = true := by
      simpa [PackedSend.done, PackedSend.shutDown] using hlive
    have hnot : x.done = false := by simp [PackedSend.done, hfin.1]
    have hkept : x.path ∉ s.closed ran := by
      rw [hclosed]
      rintro ⟨req', hran, y, hy, hwatch, hpath⟩
      have hynot : y.done = false := by
        obtain ⟨told, htold⟩ := Option.isSome_iff_exists.mp hwatch
        simp [PackedSend.done, htold]
      obtain rfl := h.eq_of_path hx hy hnot hynot hpath
      obtain rfl := Option.some.inj (hx.symm.trans hy)
      have hover := (hcalm req' x hx hwatch).mp hran
      simp [hfin.1, hfin.2] at hover
    change ((s.closed ran).foldl (fun files path => files.erase path) s.files).lookup x.path = _
    rw [Table.lookup_foldl_erase, if_neg hkept]
    exact h.live req x hx hnot
  · intro req x' hx' _
    obtain ⟨x, -, rfl⟩ := hback hx'
    simp [PackedSend.shutDown]
  · intro req x' hx' htold
    obtain ⟨x, -, rfl⟩ := hback hx'
    simp [PackedSend.shutDown] at htold
  · intro req x' hx' hdone
    obtain ⟨x, hx, rfl⟩ := hback hx'
    change ((s.closed ran).foldl (fun files path => files.erase path) s.files).lookup x.path ≠ _
    rw [Table.lookup_foldl_erase]
    split_ifs with hmem
    · simp
    · cases hd : x.done with
      | true => exact h.gone req x hx hd
      | false =>
          -- It is over only now, or its end was still unread: its subscriber has run.
          have hover : x.finished = true ∨ x.restorable = false := by
            simpa [PackedSend.done, PackedSend.shutDown] using hdone
          have hwatch : x.watch.isSome := by
            by_contra hnone
            have hnone : x.watch = none := by simpa using hnone
            have hfin : x.finished = false := by simpa [PackedSend.done, hnone] using hd
            have hrest := h.watched req x hx hfin hnone
            simp [hfin, hrest] at hover
          exact absurd (hclosed.mpr ⟨req, (hcalm req x hx hwatch).mpr hover, x, hx, hwatch, rfl⟩)
            hmem
  · intro req x' hx' hfin _
    obtain ⟨x, -, rfl⟩ := hback hx'
    exact (show x.finished = false ∧ x.restorable = true by
      simpa [PackedSend.shutDown] using hfin).2
  · intro req x' hx'
    obtain ⟨x, hx, -⟩ := hback hx'
    exact h.old req x hx

theorem Inv.step (h : s.Inv) {e : PayloadEvent} (hcalm : s.Calm e) : (s.step e).Inv := by
  cases e with
  | packStart => exact h.packStart hcalm
  | packEnd req =>
      simp only [Payloads.step]
      split_ifs with hreq
      · exact h.packEnd hreq
      · exact h
  | packFail req =>
      simp only [Payloads.step]
      have hpend {req' : ℕ} (hp : s.Pending req') :
          Pending { s with packing := s.packing.filter (· ≠ req) } req' := by
        obtain ⟨hnew, hlt, halone, hfree⟩ := hp
        constructor <;> grind
      obtain ⟨hpacking, hpacked, hlive, htold, hover, hgone, hwatched, hold⟩ := h
      constructor <;> grind
  | register req restorable =>
      simp only [Payloads.step]
      split_ifs with hreq
      · exact h.register hreq restorable
      · exact h
  | reject req =>
      simp only [Payloads.step]
      split_ifs with hreq
      · exact h.reject hreq
      · exact h
  | finish req =>
      simp only [Payloads.step]
      split
      next x hx =>
        split_ifs with hfin
        · exact h
        · have hfin : x.finished = false := by simpa using hfin
          exact h.finish hx hfin (hcalm x hx hfin)
      next => exact h
  | lag req =>
      simp only [Payloads.step]
      split
      next x hx =>
        -- It had read all there was, so nothing is lost.
        have hsame : { x with watch := x.watch.map fun _ => false } = x := by
          obtain ⟨path, restorable, finished, watch⟩ := x
          cases watch with
          | none => rfl
          | some told =>
              cases told with
              | false => rfl
              | true => exact absurd rfl (hcalm _ hx)
        rw [hsame]
        refine h.congr fun req' => ?_
        rw [Table.lookup_insert_eq]
        split_ifs with he
        · rw [he, hx]
        · rfl
      next => exact h
  | cleanup req =>
      simp only [Payloads.step]
      split
      next x hx =>
        split_ifs with hwatch
        · exact h.cleanup hx hwatch
        · exact h
      next => exact h
  | restart pid ran => exact h.restart hcalm

end Steps

theorem inv_start (pid : ℕ) : Inv { pid } := by
  constructor <;> simp

/-- One folder, packed, sent and done with. -/
def folderRun : List PayloadEvent := [.packStart, .packEnd 0, .register 0 true, .finish 0, .cleanup 0]

end Payloads

end Arvolo.Engine
